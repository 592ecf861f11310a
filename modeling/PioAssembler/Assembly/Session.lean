import PioAssembler.Assembly.Draft

/-!
# Sessions

An assembly works on a `Session`: the draft and the log. Its steps live in the `Assembly` monad, where
a step that fails leaves the session in the state it has reached, so that one can go on after it.
`Session.attempt` carries out a step in this way.
-/

namespace PioAssembler

/-- The state of an assembly. -/
structure Session where
  draft : Draft := {}
  /-- What has happened, oldest first. -/
  log : List Event := []
  deriving DecidableEq, Repr

/-- Steps of an assembly. A failure keeps the state that was reached. -/
abbrev Assembly := EStateM Failure Session

namespace Assembly

variable {α β : Type}

/-- Refuses the current statement, or the whole program. -/
def reject (e : Error) : Assembly α := throw (.rejected e)

/-- The value of a computation that can fail without touching the session. -/
def accept : Except Failure α → Assembly α
  | .ok a => pure a
  | .error failure => throw failure

/-- The draft as it is now. -/
def draft : Assembly Draft := return (← get).draft

/-- Changes the draft. -/
def revise (f : Draft → Draft) : Assembly Unit :=
  modify fun s => { s with draft := f s.draft }

/-- Adds to the log. -/
def record (events : List Event) : Assembly Unit :=
  modify fun s => { s with log := s.log ++ events }

/-! ### What the primitives do -/

@[simp] theorem run_pure (a : α) (s : Session) : (pure a : Assembly α).run s = .ok a s := rfl

@[simp] theorem run_bind (x : Assembly α) (f : α → Assembly β) (s : Session) :
    (x >>= f).run s =
      match x.run s with
      | .ok a s' => (f a).run s'
      | .error failure s' => .error failure s' := by
  simp only [EStateM.run, bind, EStateM.bind]
  cases x s <;> rfl

@[simp] theorem run_throw (failure : Failure) (s : Session) :
    (throw failure : Assembly α).run s = .error failure s := rfl

@[simp] theorem run_reject (e : Error) (s : Session) :
    (reject e : Assembly α).run s = .error (.rejected e) s := rfl

@[simp] theorem run_accept_ok (a : α) (s : Session) : (accept (.ok a)).run s = .ok a s := rfl

@[simp] theorem run_accept_error (failure : Failure) (s : Session) :
    (accept (.error failure) : Assembly α).run s = .error failure s := rfl

@[simp] theorem run_draft (s : Session) : draft.run s = .ok s.draft s := rfl

@[simp] theorem run_revise (f : Draft → Draft) (s : Session) :
    (revise f).run s = .ok () { s with draft := f s.draft } := rfl

@[simp] theorem run_record (events : List Event) (s : Session) :
    (record events).run s = .ok () { s with log := s.log ++ events } := rfl

end Assembly

/-- Carries out a step; the session goes on whether or not the step fails. -/
def Session.attempt {α : Type} (s : Session) (step : Assembly α) : Except Failure α × Session :=
  match step.run s with
  | .ok a s' => (.ok a, s')
  | .error failure s' => (.error failure, s')

end PioAssembler
