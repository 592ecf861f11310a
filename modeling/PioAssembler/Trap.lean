/-!
# Arithmetic that traps

A side-set configuration can be written down with any width that fits a byte, also one that no
instruction word has room for. The quantities derived from it are then computed in fixed-width
arithmetic that never wraps: a step whose exact result does not fit *traps*.

* `Trap` names the step that could not be carried out,
* `Exact.add`, `Exact.sub` and `Exact.shiftLeft` are the steps.

A trap is not a diagnostic about the program being assembled: those are `Error`s.
-/

namespace PioAssembler

/-- A step that has no result: an arithmetic operation out of range, or a look-up past the end. -/
inductive Trap where
  | add
  | subtract
  | shiftLeft
  | index (length position : Nat)
  deriving DecidableEq, Repr

/-- The text of a trap. -/
def Trap.message : Trap → String
  | .add => "attempt to add with overflow"
  | .subtract => "attempt to subtract with overflow"
  | .shiftLeft => "attempt to shift left with overflow"
  | .index length position =>
      s!"index out of bounds: the len is {length} but the index is {position}"

namespace Exact

/-- The sum, if it fits `width` bits. -/
def add (width a b : Nat) : Except Trap Nat :=
  if a + b < 1 <<< width then .ok (a + b) else .error .add

/-- The difference, if it is not negative. -/
def sub (a b : Nat) : Except Trap Nat :=
  if b ≤ a then .ok (a - b) else .error .subtract

/-- Shifts left by fewer places than there are bits; bits that leave at the top are lost. -/
def shiftLeft {width : Nat} (x : BitVec width) (places : Nat) : Except Trap (BitVec width) :=
  if places < width then .ok (x <<< places) else .error .shiftLeft

end Exact

end PioAssembler
