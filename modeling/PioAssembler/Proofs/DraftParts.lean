import PioAssembler.Proofs.SymbolOrder

/-!
# The draft after a statement

`Draft.next` is the draft after a statement, accepted or refused. It does not depend on the log, so a run
is a fold of it (`Source.draft_append`), and what is built in the end depends on the last draft alone
(`Source.build_append_congr`).

A statement that adds no instruction acts on each part of the draft by itself: `Draft.next_eq`.
-/

namespace PioAssembler

/-! ### The draft after a statement -/

/-- The draft after a statement, accepted or refused. -/
def Draft.next (d : Draft) (st : Statement) : Draft :=
  (Session.attempt { draft := d } st.run).2.draft

namespace Session

/-- The draft after a statement does not depend on the log. -/
theorem draft_attempt_eq_next (s : Session) (st : Statement) :
    (s.attempt st.run).2.draft = s.draft.next st := by
  have hsame : s.accepts st = Session.accepts { draft := s.draft } st :=
    Bool.eq_iff_iff.mpr (accepts_iff.trans (accepts_iff (s := { draft := s.draft })).symm)
  cases h : s.accepts st with
  | true =>
    obtain ⟨d', hstep⟩ := accepts_iff.mp h
    rw [draft_attempt hstep]
    exact (draft_attempt (s := { draft := s.draft }) hstep).symm
  | false => rw [attempt_of_refused h, Draft.next, attempt_of_refused (hsame ▸ h)]

/-- What is built does not depend on the log. -/
theorem attempt_build_congr {s t : Session} (h : s.draft = t.draft) :
    (s.attempt Assembly.build).1 = (t.attempt Assembly.build).1 := by
  simp only [attempt, Assembly.run_build, h]
  by_cases hzero : t.draft.count = 0
  · simp [hzero]
  · cases t.draft.firstUnsided? with
    | some addr => simp [hzero]
    | none =>
      simp only [hzero, if_false]
      cases (t.draft.labels.resolve t.draft.words).check with
      | error e => rfl
      | ok u =>
        by_cases hwrap : t.draft.effectiveWrapTarget > t.draft.effectiveWrap ∨
            t.draft.count ≤ t.draft.effectiveWrap.toNat
        · simp only [hwrap, if_true]
        · simp only [hwrap, if_false]

end Session

namespace Source

theorem draft_concat (source : Source) (st : Statement) :
    draft (source ++ [st]) = source.draft.next st := by
  rw [draft, session_concat]
  exact Session.draft_attempt_eq_next _ st

/-- A run is a fold over the drafts, whatever was logged and whatever was refused. -/
theorem draft_append (source rest : Source) :
    draft (source ++ rest) = rest.foldl Draft.next source.draft := by
  induction rest using List.reverseRecOn with
  | nil => rw [List.append_nil]; rfl
  | append_singleton rest st ih => rw [← List.append_assoc, draft_concat, ih, List.foldl_concat]

/-- Sources that lead to the same draft can be told apart neither by what follows nor by building. -/
theorem build_append_congr {source source' : Source} (h : source.draft = source'.draft)
    (rest : Source) : build (source ++ rest) = build (source' ++ rest) := by
  apply Session.attempt_build_congr
  show draft (source ++ rest) = draft (source' ++ rest)
  rw [draft_append, draft_append, h]

end Source

/-! ### Qualifiers of one instruction -/

/-- A qualifier is OR-ed into the word, and whether it is accepted does not depend on the word. -/
theorem Qualifier.apply_eq_map (q : Qualifier) (w : Word) (value : UInt8) (ss : SideSet) :
    q.apply w value ss = (q.apply 0 value ss).map (w ||| ·) := by
  -- the word takes no part in the checks, only in the last line
  cases q with
  | delay =>
    simp only [Qualifier.apply, Word.withDelay]
    cases ss.maxDelay with
    | error trap => rfl
    | ok max =>
      cases h : checkRange "delay" value.toNat 0 max with
      | error e => simp [h, bind, Except.bind, Except.map]
      | ok u => simp [h, bind, Except.bind, Except.map, pure, Except.pure]
  | side =>
    simp only [Qualifier.apply, Word.withSide]
    cases ss.enabled with
    | false => rfl
    | true =>
      cases ss.maxValue with
      | error trap => rfl
      | ok max =>
        cases h : checkRange "side-set value" value.toNat 0 max with
        | error e => simp [h, bind, Except.bind, Except.map]
        | ok u =>
          cases ss.optional with
          | true =>
            cases Exact.sub 12 ss.width.toNat <;>
              simp [h, bind, Except.bind, Except.map, pure, Except.pure, BitVec.or_assoc]
          | false =>
            cases Exact.sub 13 ss.width.toNat <;>
              simp [h, bind, Except.bind, Except.map, pure, Except.pure]

namespace Slot

/-- The instruction after an attempt to qualify it. -/
def attempt (ss : SideSet) (slot : Slot) (q : Qualifier) (value : UInt8) : Slot :=
  if slot.has q then slot
  else
    match q.apply slot.word value ss with
    | .ok word => slot.qualify q word
    | .error _ => slot

/-- Whether a qualifier fits is known without the instruction; the instruction only has to lack it. -/
theorem attempt_eq (ss : SideSet) (slot : Slot) (q : Qualifier) (value : UInt8) :
    slot.attempt ss q value =
      match q.apply 0 value ss with
      | .ok bits => if slot.has q then slot else slot.qualify q (slot.word ||| bits)
      | .error _ => slot := by
  rw [attempt, q.apply_eq_map]
  cases q.apply 0 value ss with
  | ok bits => rfl
  | error failure =>
    dsimp only
    split <;> rfl

/-- The two qualifiers can be given in either order. -/
theorem attempt_delay_side (ss : SideSet) (slot : Slot) (cycles value : UInt8) :
    (slot.attempt ss .delay cycles).attempt ss .side value
      = (slot.attempt ss .side value).attempt ss .delay cycles := by
  simp only [attempt_eq]
  cases Qualifier.apply .delay 0 cycles ss with
  | error failure => rfl
  | ok delayBits =>
    cases Qualifier.apply .side 0 value ss with
    | error failure => rfl
    | ok sideBits =>
      obtain ⟨word, delayed, sided⟩ := slot
      have hor : word ||| delayBits ||| sideBits = word ||| sideBits ||| delayBits := by
        rw [BitVec.or_assoc, BitVec.or_assoc, BitVec.or_comm delayBits]
      cases delayed <;> cases sided <;> simp [has, qualify, hor]

/-- Different qualifiers can be given in either order. -/
theorem attempt_comm (ss : SideSet) (slot : Slot) {q q' : Qualifier} (h : q ≠ q')
    (value value' : UInt8) :
    (slot.attempt ss q value).attempt ss q' value'
      = (slot.attempt ss q' value').attempt ss q value := by
  cases q <;> cases q'
  · exact absurd rfl h
  · exact attempt_delay_side ss slot value value'
  · exact (attempt_delay_side ss slot value' value).symm
  · exact absurd rfl h

end Slot

/-! ### The parts of a draft -/

namespace Statement

/-- The label that a statement defines. -/
def label? : Statement → Option String
  | .label name => some name
  | _ => none

/-- The qualifier that a statement gives, and its value. -/
def qualifier? : Statement → Option (Qualifier × UInt8)
  | .delay cycles => some (.delay, cycles)
  | .side value => some (.side, value)
  | _ => none

end Statement

/-- The instruction after a statement that may qualify it. -/
def Slot.next (ss : SideSet) (slot : Slot) (st : Statement) : Slot :=
  match st.qualifier? with
  | some (q, value) => slot.attempt ss q value
  | none => slot

namespace Draft

/-- The instructions after a statement that adds none: it can only qualify the last one. -/
def nextSlots (d : Draft) (st : Statement) : List Slot :=
  match d.last with
  | none => d.slots
  | some addr => d.slots.modify addr.toNat fun slot => slot.next d.effectiveSideSet st

/-- The start of the wrap window after a statement. -/
def nextWrapTarget (d : Draft) (st : Statement) : Option Addr :=
  if st = .wrapTarget then some d.nextAddr else d.wrapTarget

/-- The end of the wrap window after a statement. -/
def nextWrap (d : Draft) (st : Statement) : Option Addr :=
  if st = .wrap ∧ d.count ≠ 0 then some (UInt8.ofNat (d.count - 1)) else d.wrap

/-- The configuration after a statement. -/
def nextSideSet (d : Draft) (st : Statement) : Option SideSet :=
  match st.sideSet? with
  | some ss => if ss.Fits ∧ d.sideSet = none ∧ d.count = 0 then some ss else d.sideSet
  | none => d.sideSet

/-- The labels after a statement that adds no instruction. -/
def nextLabels (d : Draft) (st : Statement) : Labels :=
  match st.label? with
  | some name => d.labels.mark name d.nextAddr
  | none => d.labels

/-- An accepted statement leads to the draft of its step. -/
theorem next_of_step {d d' : Draft} {st : Statement} (h : d.Step st d') : d.next st = d' :=
  Session.draft_attempt (s := { draft := d }) h

/-- A refused statement leaves the draft alone. -/
theorem next_of_refused {d : Draft} {st : Statement} (h : ∀ d', ¬ d.Step st d') : d.next st = d := by
  rw [next, Session.attempt_of_refused]
  rw [Bool.eq_false_iff, Ne, Session.accepts_iff]
  exact fun ⟨d', hstep⟩ => h d' hstep

/-- A statement takes a step, or leaves the draft alone. -/
theorem step_or_next_eq (d : Draft) (st : Statement) : d.Step st (d.next st) ∨ d.next st = d := by
  by_cases h : ∃ d', d.Step st d'
  · obtain ⟨d', hstep⟩ := h
    exact .inl ((next_of_step hstep).symm ▸ hstep)
  · exact .inr (next_of_refused fun d' hstep => h ⟨d', hstep⟩)

theorem nextSlots_of_directive (d : Draft) {st : Statement} (h : st.qualifier? = none) :
    d.nextSlots st = d.slots := by
  rw [nextSlots]
  cases d.last with
  | none => rfl
  | some addr =>
    simp only [Slot.next, h]
    exact List.modify_id _ _

/-- An attempt to qualify the last instruction changes that instruction at most. -/
theorem next_qualify (d : Draft) {st : Statement} {q : Qualifier} {value : UInt8}
    (h : st.qualifier? = some (q, value)) :
    (Session.attempt { draft := d } (Assembly.qualify q value)).2.draft
      = { d with slots := d.nextSlots st } := by
  rw [Session.attempt, Assembly.run_qualify, nextSlots]
  obtain ⟨slots, last, wrapTarget, wrap, sideSet, labels⟩ := d
  cases last with
  | none => rfl
  | some addr =>
    simp only [Slot.next, h]
    generalize effectiveSideSet _ = ss
    rw [List.modify_eq_set_getElem?]
    cases hslot : slots[addr.toNat]? with
    | none => rfl
    | some slot =>
      -- a slot that stays as it is may as well be put back
      have hback : slots.set addr.toNat slot = slots := by
        obtain ⟨hlt, rfl⟩ := List.getElem?_eq_some_iff.mp hslot
        exact List.set_getElem_self hlt
      dsimp only [Option.map_eq_map, Option.map_some, Option.getD_some]
      rw [Slot.attempt]
      cases slot.has q with
      | true => simp [hback]
      | false =>
        cases q.apply slot.word value ss with
        | error failure => simp [hback]
        | ok word => simp [replace]

/-- **Each part of a draft is written by statements of one sort.** -/
theorem next_eq (d : Draft) {st : Statement} (h : st.isInstruction = false) :
    d.next st =
      { slots := d.nextSlots st
        last := d.last
        wrapTarget := d.nextWrapTarget st
        wrap := d.nextWrap st
        sideSet := d.nextSideSet st
        labels := d.nextLabels st } := by
  cases st with
  | instruction i => cases h
  | label name =>
    rw [d.nextSlots_of_directive rfl]
    show _ = { d with labels := d.labels.mark name d.nextAddr }
    rw [next, Session.attempt, Statement.run, Assembly.run_label, Labels.mark]
    cases d.labels.define name d.nextAddr <;> rfl
  | wrapTarget =>
    rw [d.nextSlots_of_directive rfl]
    rfl
  | wrap =>
    rw [d.nextSlots_of_directive rfl]
    show _ = { d with wrap := d.nextWrap .wrap }
    rw [next, Session.attempt, Statement.run, Assembly.run_wrap, nextWrap]
    by_cases hzero : d.count = 0 <;> simp [hzero]
  | sideSet width optional pindirs =>
    rw [d.nextSlots_of_directive rfl]
    show _ = { d with sideSet := d.nextSideSet (.sideSet width optional pindirs) }
    simp only [nextSideSet, Statement.sideSet?]
    -- the three guards of the step, in one condition
    by_cases hstep : SideSet.Fits ⟨width, optional, pindirs⟩ ∧ d.sideSet = none ∧ d.count = 0
    · rw [if_pos hstep]
      exact next_of_step (.sideSet hstep.1 hstep.2.1 hstep.2.2)
    · rw [if_neg hstep]
      apply next_of_refused
      intro d' hd'
      cases hd' with
      | sideSet fits first early => exact hstep ⟨fits, first, early⟩
  | delay cycles => exact d.next_qualify rfl
  | side value => exact d.next_qualify rfl

section

variable {d : Draft} {st : Statement} (h : st.isInstruction = false)
include h

theorem slots_next : (d.next st).slots = d.nextSlots st := by rw [next_eq d h]

theorem last_next : (d.next st).last = d.last := by rw [next_eq d h]

theorem wrapTarget_next : (d.next st).wrapTarget = d.nextWrapTarget st := by rw [next_eq d h]

theorem wrap_next : (d.next st).wrap = d.nextWrap st := by rw [next_eq d h]

theorem sideSet_next : (d.next st).sideSet = d.nextSideSet st := by rw [next_eq d h]

theorem labels_next : (d.next st).labels = d.nextLabels st := by rw [next_eq d h]

theorem count_next : (d.next st).count = d.count := by
  rw [count, slots_next h, nextSlots]
  cases d.last with
  | none => rfl
  | some addr => exact List.length_modify _ _ _

theorem nextAddr_next : (d.next st).nextAddr = d.nextAddr := by
  rw [nextAddr, count_next h, nextAddr]

end

end Draft

end PioAssembler
