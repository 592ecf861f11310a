/-!
# Errors

What can be wrong with a program, as causes. `Error.message` is the only place with their wording.
-/

namespace PioAssembler

/-- The address of an instruction. -/
abbrev Addr := UInt8

/-- Number of instructions the memory of a state machine holds. -/
def capacity : Nat := 32

/-- What keeps a jump from its target. -/
inductive BadJump.Cause where
  /-- The label was never defined. -/
  | undefined
  /-- The label sits behind the last instruction. -/
  | pastEnd (target : Addr)
  deriving DecidableEq, Repr

/-- A jump that cannot be given its target. -/
structure BadJump where
  /-- Where the jump stands. -/
  addr : Addr
  /-- The label it names. -/
  label : String
  cause : BadJump.Cause
  deriving DecidableEq, Repr

/-- What is said about a bad jump. -/
def BadJump.message : BadJump → String
  | ⟨addr, label, .undefined⟩ => s!"`{label}` (jmp at {addr}) is undefined"
  | ⟨addr, label, .pastEnd target⟩ =>
      s!"`{label}` (jmp at {addr}) names {target}, past the last instruction"

/-- Why a statement, or the program as a whole, is refused. -/
inductive Error where
  | unresolvedLabels (jumps : List BadJump)
  | duplicateLabel (name : String) (first second : Addr)
  | programTooLarge
  /-- An immediate outside the range of its field; both bounds are included. -/
  | invalidOperand (what : String) (value min max : Nat)
  | misconfiguredSideSet (reason : String)
  /-- Side-set is mandatory, and the instruction has no side-set value. -/
  | missingSideSet (addr : Addr)
  /-- The statement refers back to an instruction, and there is none. -/
  | noInstruction (what : String)
  | duplicateQualifier (what : String) (addr : Addr)
  | invalidWrap (wrapTarget wrap : Addr) (count : Nat)
  | emptyProgram
  deriving DecidableEq, Repr

/-- The wording of an error. -/
def Error.message : Error → String
  | .unresolvedLabels jumps =>
      "unresolved jump(s): " ++ String.intercalate ", " (jumps.map BadJump.message)
  | .duplicateLabel name first second =>
      s!"label `{name}` already defined at {first}, redefined at {second}"
  | .programTooLarge => s!"program exceeds {capacity} instructions"
  | .invalidOperand what value min max => s!"{what} {value} outside {min}..={max}"
  | .misconfiguredSideSet reason => s!"side-set misconfigured: {reason}"
  | .missingSideSet addr =>
      s!"instruction at {addr} has no side-set value but side-set is mandatory"
  | .noInstruction what => s!"{what} needs a preceding instruction"
  | .duplicateQualifier what addr => s!"{what} applied twice to instruction at {addr}"
  | .invalidWrap wrapTarget wrap count =>
      s!"wrap window {wrapTarget}..={wrap} invalid for {count} instruction(s)"
  | .emptyProgram => "program has no instructions"

/-- Refuses a value outside `min` to `max`, both included. -/
def checkRange (what : String) (value min max : Nat) : Except Error Unit :=
  if min ≤ value ∧ value ≤ max then .ok () else .error (.invalidOperand what value min max)

end PioAssembler
