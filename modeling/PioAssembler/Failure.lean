import PioAssembler.Error
import PioAssembler.Trap

/-!
# Failures

A step of the assembler has no result for one of two reasons: what it was asked for is wrong, or its
arithmetic trapped.
-/

namespace PioAssembler

/-- Why an operation has no result. -/
inductive Failure where
  | rejected (error : Error)
  | trapped (trap : Trap)
  deriving DecidableEq, Repr

/-- The text of a failure. -/
def Failure.message : Failure → String
  | .rejected e => e.message
  | .trapped t => t.message

/-! ### Turning one kind of failure into another -/

variable {ε ε' α : Type}

@[simp] theorem mapError_ok (f : ε → ε') (a : α) : (Except.ok a).mapError f = .ok a := rfl

@[simp] theorem mapError_error (f : ε → ε') (e : ε) :
    (Except.error e : Except ε α).mapError f = .error (f e) := rfl

end PioAssembler
