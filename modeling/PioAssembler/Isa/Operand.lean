/-!
# Operands

Every role an operand can play has a type of its own, so an operand that is illegal for an
instruction cannot be written down. `code` is the number by which the instruction word selects
the operand; the numbers that are left out are reserved.
-/

namespace PioAssembler

/-- The condition of a jump. -/
inductive Condition where
  | always
  /-- Scratch register X is zero (`!x`). -/
  | xZero
  /-- Scratch register X is not zero; it is decremented afterwards (`x--`). -/
  | xPostDecrement
  /-- Scratch register Y is zero (`!y`). -/
  | yZero
  /-- Scratch register Y is not zero; it is decremented afterwards (`y--`). -/
  | yPostDecrement
  /-- The scratch registers differ (`x!=y`). -/
  | xNotEqualY
  /-- The branch pin is high. -/
  | pin
  /-- The output shift register still holds bits (`!osre`). -/
  | osrNotEmpty
  deriving DecidableEq, Repr

/-- The number that selects the operand. -/
def Condition.code : Condition → BitVec 3
  | .always => 0
  | .xZero => 1
  | .xPostDecrement => 2
  | .yZero => 3
  | .yPostDecrement => 4
  | .xNotEqualY => 5
  | .pin => 6
  | .osrNotEmpty => 7

/-- What a `wait` watches. -/
inductive WaitSource where
  | gpio | pin | irq
  deriving DecidableEq, Repr

/-- The number that selects the operand. -/
def WaitSource.code : WaitSource → BitVec 2
  | .gpio => 0
  | .pin => 1
  | .irq => 2

/-- Where `in` takes its bits from. -/
inductive InSource where
  | pins | x | y | null | isr | osr
  deriving DecidableEq, Repr

/-- The number that selects the operand. -/
def InSource.code : InSource → BitVec 3
  | .pins => 0
  | .x => 1
  | .y => 2
  | .null => 3
  | .isr => 6
  | .osr => 7

/-- Where `out` shifts its bits to. -/
inductive OutDestination where
  | pins | x | y | null | pindirs | pc | isr | exec
  deriving DecidableEq, Repr

/-- The number that selects the operand. -/
def OutDestination.code : OutDestination → BitVec 3
  | .pins => 0
  | .x => 1
  | .y => 2
  | .null => 3
  | .pindirs => 4
  | .pc => 5
  | .isr => 6
  | .exec => 7

/-- Where `mov` writes to. -/
inductive MovDestination where
  | pins | x | y | exec | pc | isr | osr
  deriving DecidableEq, Repr

/-- The number that selects the operand. -/
def MovDestination.code : MovDestination → BitVec 3
  | .pins => 0
  | .x => 1
  | .y => 2
  | .exec => 4
  | .pc => 5
  | .isr => 6
  | .osr => 7

/-- Where `mov` reads from. -/
inductive MovSource where
  | pins | x | y | null | status | isr | osr
  deriving DecidableEq, Repr

/-- The number that selects the operand. -/
def MovSource.code : MovSource → BitVec 3
  | .pins => 0
  | .x => 1
  | .y => 2
  | .null => 3
  | .status => 5
  | .isr => 6
  | .osr => 7

/-- What `mov` does to the bits on their way. -/
inductive MovOperation where
  | none | invert | reverse
  deriving DecidableEq, Repr

/-- The number that selects the operand. -/
def MovOperation.code : MovOperation → BitVec 2
  | .none => 0
  | .invert => 1
  | .reverse => 2

/-- Where `set` writes to. -/
inductive SetDestination where
  | pins | x | y | pindirs
  deriving DecidableEq, Repr

/-- The number that selects the operand. -/
def SetDestination.code : SetDestination → BitVec 3
  | .pins => 0
  | .x => 1
  | .y => 2
  | .pindirs => 4

/-- What `irq` does to the flag: raise it, raise it and stall until it is cleared, or clear it. -/
inductive IrqMode where
  | set | wait | clear
  deriving DecidableEq, Repr

/-- The pair of flags that a mode is written as: whether the flag is cleared, and whether the state
machine waits. -/
def IrqMode.flags : IrqMode → Bool × Bool
  | .set => (false, false)
  | .wait => (false, true)
  | .clear => (true, false)

/-- The number that selects the operand: under a bit that is always zero, the two flags of the mode. -/
def IrqMode.code (mode : IrqMode) : BitVec 3 :=
  BitVec.ofBool false ++ BitVec.ofBool mode.flags.1 ++ BitVec.ofBool mode.flags.2

/-- Marks a flag index as relative to the state machine that executes the instruction. -/
def relative (index : UInt8) : UInt8 := index ||| 16

end PioAssembler
