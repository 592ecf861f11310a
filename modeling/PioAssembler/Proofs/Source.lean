import Mathlib.Data.List.DropRight
import PioAssembler.Proofs.Format
import PioAssembler.Proofs.Step

/-!
# What a source says

A source is carried out statement by statement, going on after one that is refused. This file reads
off a source, *from the statements and from which of them were accepted alone*, what the program
built from it should be:

* `Source.operations`: the accepted instructions in order, each with the delay and the side-set
  value accepted between it and the next instruction,
* `Source.address`: the address of a label, the number of instructions accepted before the first
  statement that defines it,
* `Source.sideSet`, `Source.wrapTarget`, `Source.wrap`: the configuration and the wrap window.

Each comes with an equation for a source with one more statement at its end, so that facts about
runs are proved by induction from the left.
-/

namespace PioAssembler

/-! ### Runs -/

namespace Session

/-- The session after some statements, whether or not they were accepted. -/
def after (s : Session) (source : List Statement) : Session :=
  source.foldl (fun s st => (s.attempt st.run).2) s

/-- Those of some statements that are accepted. -/
def accepted (s : Session) : List Statement → List Statement
  | [] => []
  | st :: rest =>
      let s' := (s.attempt st.run).2
      if s.accepts st then st :: s'.accepted rest else s'.accepted rest

/-- What is accepted of the rest depends on the session that the statements before it lead to. -/
theorem accepted_append (s : Session) (before rest : List Statement) :
    s.accepted (before ++ rest) = s.accepted before ++ (s.after before).accepted rest := by
  induction before generalizing s with
  | nil => rfl
  | cons st before ih =>
    rw [List.cons_append, accepted, accepted, ih]
    split <;> rfl

end Session

/-- Statements, to be carried out in order. -/
abbrev Source := List Statement

namespace Source

/-- The session that a source leads to. -/
def session (source : Source) : Session := Session.after {} source

/-- The draft that a source leads to. -/
def draft (source : Source) : Draft := source.session.draft

/-- The program that is built at the end of a source. -/
def build (source : Source) : Except Failure Program := (source.session.attempt Assembly.build).1

/-- The statements of a source that are accepted. -/
def accepted (source : Source) : List Statement := Session.accepted {} source

theorem session_concat (source : Source) (st : Statement) :
    session (source ++ [st]) = (source.session.attempt st.run).2 := by
  rw [session, Session.after, List.foldl_concat]
  rfl

/-- One more statement is added to the accepted ones if it is accepted. -/
theorem accepted_concat (source : Source) (st : Statement) :
    accepted (source ++ [st])
      = if source.session.accepts st then source.accepted ++ [st] else source.accepted := by
  rw [accepted, Session.accepted_append]
  show source.accepted ++ Session.accepted source.session [st] = _
  rw [Session.accepted]
  split <;> simp [Session.accepted]

/-- One more statement takes a step, or leaves the draft alone. -/
theorem step_or_draft_concat_eq (source : Source) (st : Statement) :
    source.draft.Step st (draft (source ++ [st])) ∨ draft (source ++ [st]) = source.draft := by
  rw [draft, draft, session_concat, Session.attempt]
  rcases st.run_cases source.session with ⟨failure, hrun, -⟩ | ⟨s', hrun, hstep⟩
  · rw [hrun]
    exact .inr rfl
  · rw [hrun]
    exact .inl hstep

/-- **Induction over runs.** What holds at the start and is kept by every statement, accepted or
refused, holds of every source. -/
theorem concat_induction {motive : Source → Prop} (nil : motive [])
    (accepted : ∀ (source : Source) (st : Statement), motive source →
      source.session.accepts st = true → source.draft.Step st (draft (source ++ [st])) →
      motive (source ++ [st]))
    (refused : ∀ (source : Source) (st : Statement), motive source →
      source.session.accepts st = false → draft (source ++ [st]) = source.draft →
      motive (source ++ [st]))
    (source : Source) : motive source := by
  induction source using List.reverseRecOn with
  | nil => exact nil
  | append_singleton source st ih =>
    cases h : (session source).accepts st with
    | true =>
      obtain ⟨d', hstep⟩ := Session.accepts_iff.mp h
      have hd : draft (source ++ [st]) = d' := by
        rw [draft, session_concat]
        exact Session.draft_attempt hstep
      exact accepted source st ih h (hd ▸ hstep)
    | false =>
      have hd : draft (source ++ [st]) = draft source := by
        rw [draft, session_concat, Session.attempt_of_refused h]
        rfl
      exact refused source st ih h hd

/-- A property of drafts that holds of the empty one and is kept by every step holds of every draft
that a source leads to. -/
theorem draft_induction {P : Draft → Prop} (empty : P {})
    (step : ∀ {d d' : Draft} {st : Statement}, P d → d.Step st d' → P d') (source : Source) :
    P source.draft := by
  induction source using concat_induction with
  | nil => exact empty
  | accepted source st ih _ hstep => exact step ih hstep
  | refused source st ih _ hd => exact hd ▸ ih

end Source

/-! ### Operations -/

namespace Statement

def isInstruction : Statement → Bool
  | .instruction _ => true
  | _ => false

def delay? : Statement → Option UInt8
  | .delay cycles => some cycles
  | _ => none

def side? : Statement → Option UInt8
  | .side value => some value
  | _ => none

def sideSet? : Statement → Option SideSet
  | .sideSet width optional pindirs => some ⟨width, optional, pindirs⟩
  | _ => none

/-- The statements before the next instruction. -/
def untilInstruction (statements : List Statement) : List Statement :=
  statements.takeWhile fun st => !st.isInstruction

/-- The instructions among some statements, each with the qualifiers that stand between it and the
next one. -/
def operations : List Statement → List (Operation String)
  | [] => []
  | .instruction i :: rest =>
      { instruction := i
        delay := (untilInstruction rest).findSome? delay?
        side := (untilInstruction rest).findSome? side? } :: operations rest
  | _ :: rest => operations rest

/-- There are as many operations as instructions. -/
theorem length_operations (statements : List Statement) :
    (operations statements).length = statements.countP isInstruction := by
  induction statements with
  | nil => rfl
  | cons st rest ih =>
    cases st with
    | instruction i => rw [operations, List.length_cons, ih, List.countP_cons_of_pos rfl]
    | _ => rw [List.countP_cons_of_neg (by simp [isInstruction])]; exact ih

/-- There is no operation exactly if there is no instruction. -/
theorem operations_eq_nil_iff {statements : List Statement} :
    operations statements = [] ↔ ∀ st ∈ statements, st.isInstruction = false := by
  rw [← List.length_eq_zero_iff, length_operations, List.countP_eq_zero]
  simp

/-- Behind the first instruction nothing counts. -/
theorem untilInstruction_append {before : List Statement} (h : operations before ≠ [])
    (rest : List Statement) : untilInstruction (before ++ rest) = untilInstruction before := by
  rw [untilInstruction, List.takeWhile_append, if_neg]
  · rfl
  · intro hlen
    apply h
    rw [operations_eq_nil_iff]
    have hall : before.takeWhile (fun st => !st.isInstruction) = before :=
      (List.takeWhile_prefix _).eq_of_length hlen
    intro st hst
    simpa using List.takeWhile_eq_self_iff.mp hall st hst

theorem untilInstruction_of_nil {statements : List Statement} (h : operations statements = []) :
    untilInstruction statements = statements := by
  rw [untilInstruction, List.takeWhile_eq_self_iff]
  intro st hst
  simp [operations_eq_nil_iff.mp h st hst]

theorem untilInstruction_append_of_nil {before : List Statement} (h : operations before = [])
    (rest : List Statement) :
    untilInstruction (before ++ rest) = before ++ untilInstruction rest := by
  apply List.takeWhile_append_of_pos
  intro st hst
  simp [operations_eq_nil_iff.mp h st hst]

theorem operations_append_of_nil {before : List Statement} (h : operations before = [])
    (rest : List Statement) : operations (before ++ rest) = operations rest := by
  induction before with
  | nil => rfl
  | cons st before ih =>
    cases st with
    | instruction i => cases h
    | _ => exact ih h

/-- A new instruction is an operation of its own. -/
theorem operations_concat_instruction (statements : List Statement) (i : Instruction String) :
    operations (statements ++ [.instruction i]) = operations statements ++ [⟨i, none, none⟩] := by
  induction statements with
  | nil => rfl
  | cons st rest ih =>
    cases st with
    | instruction j =>
      rw [List.cons_append, operations, operations, ih, List.cons_append]
      -- the qualifiers of an earlier instruction end where the next one stands
      have huntil : untilInstruction (rest ++ [.instruction i]) = untilInstruction rest := by
        by_cases h : operations rest = []
        · rw [untilInstruction_append_of_nil h, untilInstruction_of_nil h]
          exact List.append_nil rest
        · exact untilInstruction_append h _
      rw [huntil]
    | _ => exact ih

end Statement

/-- The operation with a qualifier, unless it has it already; any other statement changes nothing. -/
def Operation.qualify {τ : Type} (op : Operation τ) (st : Statement) : Operation τ :=
  { op with delay := op.delay.or st.delay?, side := op.side.or st.side? }

/-- A statement that is no instruction can only qualify the last operation. -/
theorem Statement.operations_concat {statements : List Statement} {st : Statement}
    (hst : st.isInstruction = false) {ops : List (Operation String)} {op : Operation String}
    (h : operations statements = ops ++ [op]) :
    operations (statements ++ [st]) = ops ++ [op.qualify st] := by
  induction statements generalizing ops with
  | nil => simp [operations] at h
  | cons st' rest ih =>
    cases st' with
    | instruction i =>
      rw [operations] at h
      rw [List.cons_append, operations]
      cases ops with
      | nil =>
        -- the instruction is the last one
        obtain ⟨rfl, hnil⟩ := List.cons.inj h
        have hone : operations [st] = [] := by
          rw [operations_eq_nil_iff]
          simpa using hst
        rw [operations_append_of_nil hnil, hone, untilInstruction_append_of_nil hnil,
          untilInstruction_of_nil hnil, untilInstruction_of_nil hone, List.findSome?_append,
          List.findSome?_append, List.findSome?_singleton, List.findSome?_singleton]
        rfl
      | cons first ops =>
        -- another instruction follows, and the statement belongs to that or a later one
        obtain ⟨rfl, hrest⟩ := List.cons.inj h
        have hne : operations rest ≠ [] := by
          rw [hrest]
          simp
        rw [ih hrest, untilInstruction_append hne]
        rfl
    | _ => exact ih h

namespace Statement

/-- The first side-set configuration among some statements. -/
def configured (statements : List Statement) : Option SideSet := statements.findSome? sideSet?

/-- A configuration counts only if there was none before. -/
theorem configured_concat (statements : List Statement) (st : Statement) :
    configured (statements ++ [st]) = (configured statements).or st.sideSet? := by
  rw [configured, List.findSome?_append, List.findSome?_singleton]
  rfl

/-- A statement that is neither an instruction nor a qualifier adds nothing to the operations. -/
theorem operations_concat_directive {statements : List Statement} {st : Statement}
    (hst : st.isInstruction = false) (hdelay : st.delay? = none) (hside : st.side? = none) :
    operations (statements ++ [st]) = operations statements := by
  rcases List.eq_nil_or_concat' (operations statements) with hnil | ⟨ops, op, hops⟩
  · rw [operations_append_of_nil hnil, hnil, operations_eq_nil_iff]
    simpa using hst
  · rw [operations_concat hst hops, Operation.qualify, hdelay, hside, Option.or_none, Option.or_none,
      hops]

end Statement

/-! ### The program a source describes -/

namespace Source

/-- The accepted instructions, each with the qualifiers accepted for it. -/
def operations (source : Source) : List (Operation String) := Statement.operations source.accepted

/-- Number of accepted instructions. -/
def count (source : Source) : Nat := source.accepted.countP Statement.isInstruction

/-- The side-set configuration; all zero unless one was accepted. -/
def sideSet (source : Source) : SideSet := (Statement.configured source.accepted).getD {}

/-- The number of instructions accepted before the first statement that defines the label. -/
def address (source : Source) (name : String) : Option Nat :=
  if .label name ∈ source then some (count (source.takeWhile (· ≠ .label name))) else none

/-- The number of instructions accepted before the last `wrapTarget`; zero without one. -/
def wrapTarget (source : Source) : Nat := count (source.rdropWhile (· ≠ .wrapTarget))

/-- The number of instructions accepted before the last `wrap`; zero without one. -/
def wrapEnd (source : Source) : Nat := count (source.rdropWhile (· ≠ .wrap))

/-- The address of the instruction before the last `wrap` that had one before it; the last address
without such a `wrap`. -/
def wrap (source : Source) : Nat :=
  if source.wrapEnd = 0 then source.count - 1 else source.wrapEnd - 1

theorem length_operations (source : Source) : source.operations.length = source.count :=
  Statement.length_operations _

theorem accepted_of_accepts {source : Source} {st : Statement}
    (h : source.session.accepts st = true) : accepted (source ++ [st]) = source.accepted ++ [st] := by
  rw [accepted_concat, if_pos h]

theorem accepted_of_refused {source : Source} {st : Statement}
    (h : source.session.accepts st = false) : accepted (source ++ [st]) = source.accepted := by
  rw [accepted_concat, if_neg (by rw [h]; decide)]

/-- Only an instruction adds to the count. -/
theorem count_concat {source : Source} {st : Statement} (hst : st.isInstruction = false) :
    count (source ++ [st]) = source.count := by
  rw [count, accepted_concat]
  split
  · rw [List.countP_append, List.countP_cons_of_neg (by rw [hst]; decide)]
    rfl
  · rfl

/-- A label has the address of the first statement that defines it. -/
theorem address_concat (source : Source) (st : Statement) (name : String) :
    address (source ++ [st]) name
      = (source.address name).or (if st = .label name then some source.count else none) := by
  rw [address, address]
  -- a definition that is there already hides the new statement
  by_cases hmem : .label name ∈ source
  · have hne : (source.takeWhile (· ≠ .label name)).length ≠ source.length := by
      intro hlen
      have hself := (List.takeWhile_prefix _).eq_of_length hlen
      simpa using List.takeWhile_eq_self_iff.mp hself _ hmem
    rw [if_pos (List.mem_append_left _ hmem), if_pos hmem, List.takeWhile_append, if_neg hne]
    rfl
  · rw [if_neg hmem, Option.none_or]
    by_cases hst : st = .label name
    · subst hst
      have hall : source.takeWhile (· ≠ .label name) = source := by
        rw [List.takeWhile_eq_self_iff]
        intro st' hst'
        simpa using fun he : st' = .label name => hmem (he ▸ hst')
      have htake : (source ++ [Statement.label name]).takeWhile (· ≠ .label name) = source := by
        rw [List.takeWhile_append, if_pos (by rw [hall])]
        simp
      rw [if_pos (List.mem_append_right _ List.mem_cons_self), htake, if_pos rfl]
    · have hnot : .label name ∉ source ++ [st] := by
        simpa [hmem] using Ne.symm hst
      rw [if_neg hnot, if_neg hst]

theorem address_concat_of_ne (source : Source) {st : Statement} {name : String}
    (h : st ≠ .label name) : address (source ++ [st]) name = source.address name := by
  rw [address_concat, if_neg h, Option.or_none]

theorem wrapTarget_concat (source : Source) (st : Statement) :
    wrapTarget (source ++ [st]) = if st = .wrapTarget then source.count else source.wrapTarget := by
  rw [wrapTarget, List.rdropWhile_concat]
  by_cases hst : st = .wrapTarget
  · subst hst
    rw [if_neg (by decide), if_pos rfl]
    exact count_concat rfl
  · rw [if_pos (by simpa using hst), if_neg hst]
    rfl

theorem wrapTarget_concat_of_ne (source : Source) {st : Statement} (h : st ≠ .wrapTarget) :
    wrapTarget (source ++ [st]) = source.wrapTarget := by
  rw [wrapTarget_concat, if_neg h]

/-- The last `wrap` counts. -/
theorem wrapEnd_concat (source : Source) (st : Statement) :
    wrapEnd (source ++ [st]) = if st = .wrap then source.count else source.wrapEnd := by
  rw [wrapEnd, List.rdropWhile_concat]
  by_cases hst : st = .wrap
  · subst hst
    rw [if_neg (by decide), if_pos rfl]
    exact count_concat rfl
  · rw [if_pos (by simpa using hst), if_neg hst]
    rfl

theorem wrapEnd_concat_of_ne (source : Source) {st : Statement} (h : st ≠ .wrap) :
    wrapEnd (source ++ [st]) = source.wrapEnd := by
  rw [wrapEnd_concat, if_neg h]

end Source

end PioAssembler
