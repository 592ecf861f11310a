import PioAssembler.Failure
import PioAssembler.Isa.Word

/-!
# Side-set and delay

An instruction can drive a few pins on the side and idle for a few cycles. Both numbers live in the
five shared bits of the word: the side-set value at the top, under an enable bit when it is
optional, and the delay in what is left below.

`SideSet` is a configuration with any width; `SideSet.configure` admits the ones that fit. The
quantities derived from a configuration can therefore trap.
-/

namespace PioAssembler

/-- A side-set configuration. -/
structure SideSet where
  /-- Number of value bits, the enable bit not counted. -/
  width : UInt8 := 0
  /-- Whether an instruction may go without a side-set value. -/
  optional : Bool := false
  /-- Whether the value drives pin directions instead of levels. -/
  pindirs : Bool := false
  deriving DecidableEq, Repr, Inhabited

/-- Number of bits that delay and side-set share. -/
def sharedBits : Nat := 5

namespace SideSet

/-- The largest width that leaves room for the enable bit, if there is one. -/
def widthLimit (optional : Bool) : Nat := if optional then sharedBits - 1 else sharedBits

/-- The configuration, if its width fits the shared field. -/
def configure (width : UInt8) (optional pindirs : Bool) : Except Error SideSet := do
  checkRange "side-set width" width.toNat 0 (widthLimit optional)
  return { width, optional, pindirs }

/-- Whether instructions carry side-set values at all. -/
def enabled (ss : SideSet) : Bool := 0 < ss.width

/-- Number of shared bits that side-set takes, the enable bit included. -/
def bits (ss : SideSet) : Except Trap Nat :=
  if ss.width = 0 then .ok 0 else Exact.add 8 ss.width.toNat ss.optional.toNat

/-- Number of shared bits left for the delay. -/
def delayBits (ss : SideSet) : Except Trap Nat := do
  Exact.sub sharedBits (← ss.bits)

/-- The low byte of the largest number with the given number of bits. -/
def largest (bits : Nat) : Except Trap Nat := do
  let power ← Exact.shiftLeft (1 : BitVec 16) bits
  return (← Exact.sub power.toNat 1) % 256

/-- The longest delay, in cycles. -/
def maxDelay (ss : SideSet) : Except Trap Nat := do
  largest (← ss.delayBits)

/-- The largest side-set value. -/
def maxValue (ss : SideSet) : Except Trap Nat := largest ss.width.toNat

end SideSet

namespace Word

/-- The enable bit of an optional side-set value. -/
def sideEnable : Word := 1 <<< 12

/-- ORs a delay into the low end of the shared field. -/
def withDelay (w : Word) (cycles : UInt8) (ss : SideSet) : Except Failure Word := do
  let max ← ss.maxDelay.mapError .trapped
  (checkRange "delay" cycles.toNat 0 max).mapError .rejected
  return w ||| BitVec.ofNat 16 cycles.toNat <<< 8

/-- ORs a side-set value into the high end of the shared field, below the enable bit if the value
is optional. -/
def withSide (w : Word) (value : UInt8) (ss : SideSet) : Except Failure Word := do
  unless ss.enabled do
    throw (.rejected (.misconfiguredSideSet "side value used without a side_set directive"))
  let max ← ss.maxValue.mapError .trapped
  (checkRange "side-set value" value.toNat 0 max).mapError .rejected
  let bits := BitVec.ofNat 16 value.toNat
  if ss.optional then
    let places ← (Exact.sub 12 ss.width.toNat).mapError .trapped
    return w ||| sideEnable ||| bits <<< places
  else
    let places ← (Exact.sub 13 ss.width.toNat).mapError .trapped
    return w ||| bits <<< places

end Word

end PioAssembler
