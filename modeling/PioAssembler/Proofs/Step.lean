import PioAssembler.Assembly.Build
import PioAssembler.Proofs.SharedField

/-!
# Steps of an assembly

`Draft.Step d st d'` says, once for every kind of statement, when a statement is accepted and what it
then does to the draft. Everything that is proved about whole runs goes through it:

* `Session.accepts_iff`: a statement is accepted exactly if there is a step,
* `Session.draft_attempt`: the draft afterwards is the one the step leads to,
* `Session.attempt_of_refused`: a statement that is refused leaves the session as it was.
-/

namespace PioAssembler

/-- What an accepted statement does to a draft, and what it takes to be accepted. -/
inductive Draft.Step (d : Draft) : Statement → Draft → Prop where
  | instruction {i : Instruction String} {word : Word} (encoded : i.encode = .ok word)
      (free : d.count < capacity) :
      Step d (.instruction i) ((d.append word).await d.nextAddr i)
  | label {name : String} (fresh : d.labels.lookup name = none) :
      Step d (.label name)
        { d with labels.symbols := d.labels.symbols.insert name d.nextAddr }
  | wrapTarget : Step d .wrapTarget { d with wrapTarget := some d.nextAddr }
  | wrap (nonempty : d.count ≠ 0) :
      Step d .wrap { d with wrap := some (UInt8.ofNat (d.count - 1)) }
  | sideSet {width : UInt8} {optional pindirs : Bool}
      (fits : SideSet.Fits ⟨width, optional, pindirs⟩) (first : d.sideSet = none)
      (early : d.count = 0) :
      Step d (.sideSet width optional pindirs)
        { d with sideSet := some ⟨width, optional, pindirs⟩ }
  | delay {cycles : UInt8} {addr : Addr} {slot : Slot} {word : Word} (last : d.last = some addr)
      (found : d.slots[addr.toNat]? = some slot) (unused : slot.delayed = false)
      (added : slot.word.withDelay cycles d.effectiveSideSet = .ok word) :
      Step d (.delay cycles) (d.replace addr { slot with word, delayed := true })
  | side {value : UInt8} {addr : Addr} {slot : Slot} {word : Word} (last : d.last = some addr)
      (found : d.slots[addr.toNat]? = some slot) (unused : slot.sided = false)
      (added : slot.word.withSide value d.effectiveSideSet = .ok word) :
      Step d (.side value) (d.replace addr { slot with word, sided := true })

/-- The instruction at `addr` is the last one and can be given a qualifier, which makes its word
`word`. -/
structure Draft.Qualifies (d : Draft) (q : Qualifier) (value : UInt8) (addr : Addr) (slot : Slot)
    (word : Word) : Prop where
  last : d.last = some addr
  found : d.slots[addr.toNat]? = some slot
  unused : slot.has q = false
  added : q.apply slot.word value d.effectiveSideSet = .ok word

/-- A qualifier is added to the last instruction, or fails and leaves the session alone. -/
theorem Assembly.run_qualify_cases (q : Qualifier) (value : UInt8) (s : Session) :
    (∃ failure, (qualify q value).run s = .error failure s ∧
        ∀ addr slot word, ¬ s.draft.Qualifies q value addr slot word) ∨
      ∃ addr slot word, s.draft.Qualifies q value addr slot word ∧
        (qualify q value).run s
          = .ok () { s with draft := s.draft.replace addr (slot.qualify q word) } := by
  rw [run_qualify]
  cases hlast : s.draft.last with
  | none =>
    refine Or.inl ⟨_, rfl, ?_⟩
    intro addr slot word h
    cases hlast.symm.trans h.last
  | some addr =>
    dsimp only
    cases hslot : s.draft.slots[addr.toNat]? with
    | none =>
      refine Or.inl ⟨_, rfl, ?_⟩
      intro addr' slot word h
      obtain rfl : addr = addr' := Option.some.inj (hlast.symm.trans h.last)
      cases hslot.symm.trans h.found
    | some slot =>
      dsimp only
      -- from here on the instruction is the one that any step would qualify
      have hsame : ∀ {addr' slot' word}, s.draft.Qualifies q value addr' slot' word →
          slot.has q = false ∧ q.apply slot.word value s.draft.effectiveSideSet = .ok word := by
        intro addr' slot' word h
        obtain rfl : addr = addr' := Option.some.inj (hlast.symm.trans h.last)
        obtain rfl : slot = slot' := Option.some.inj (hslot.symm.trans h.found)
        exact ⟨h.unused, h.added⟩
      cases hused : slot.has q with
      | true =>
        refine Or.inl ⟨_, if_pos rfl, ?_⟩
        intro addr' slot' word h
        cases hused.symm.trans (hsame h).1
      | false =>
        rw [if_neg (by decide)]
        cases happly : q.apply slot.word value s.draft.effectiveSideSet with
        | error failure =>
          refine Or.inl ⟨failure, rfl, ?_⟩
          intro addr' slot' word h
          cases happly.symm.trans (hsame h).2
        | ok word => exact Or.inr ⟨addr, slot, word, ⟨hlast, hslot, hused, happly⟩, rfl⟩

/-- A statement either fails and leaves the session alone, or takes a step. -/
theorem Statement.run_cases (st : Statement) (s : Session) :
    (∃ failure, st.run.run s = .error failure s ∧ ∀ d', ¬ s.draft.Step st d') ∨
      ∃ s', st.run.run s = .ok () s' ∧ s.draft.Step st s'.draft := by
  -- in each branch that fails one guard of the step does not hold
  cases st with
  | instruction i =>
    rw [Statement.run, Assembly.run_instruction]
    cases he : i.encode with
    | error e =>
      refine Or.inl ⟨_, rfl, ?_⟩
      intro d' hstep
      cases hstep with
      | instruction encoded free => rw [he] at encoded; cases encoded
    | ok word =>
      by_cases hfull : capacity ≤ s.draft.count
      · refine Or.inl ⟨_, if_pos hfull, ?_⟩
        intro d' hstep
        cases hstep with
        | instruction encoded free => omega
      · exact Or.inr ⟨_, if_neg hfull, .instruction he (by omega)⟩
  | label name =>
    rw [Statement.run, Assembly.run_label, Labels.define]
    cases hl : s.draft.labels.lookup name with
    | some first =>
      refine Or.inl ⟨_, rfl, ?_⟩
      intro d' hstep
      cases hstep with
      | label fresh => rw [hl] at fresh; cases fresh
    | none => exact Or.inr ⟨_, rfl, .label hl⟩
  | wrapTarget => exact Or.inr ⟨_, Assembly.run_wrapTarget s, .wrapTarget⟩
  | wrap =>
    rw [Statement.run, Assembly.run_wrap]
    by_cases hzero : s.draft.count = 0
    · refine Or.inl ⟨_, if_pos hzero, ?_⟩
      intro d' hstep
      cases hstep with
      | wrap nonempty => exact nonempty hzero
    · exact Or.inr ⟨_, if_neg hzero, .wrap hzero⟩
  | sideSet width optional pindirs =>
    rw [Statement.run, Assembly.run_sideSet, SideSet.configure_eq]
    by_cases hfit : SideSet.Fits ⟨width, optional, pindirs⟩
    · rw [if_pos hfit]
      cases hset : s.draft.sideSet with
      | some ss =>
        refine Or.inl ⟨_, rfl, ?_⟩
        intro d' hstep
        cases hstep with
        | sideSet fits first early => rw [hset] at first; cases first
      | none =>
        by_cases hzero : s.draft.count = 0
        · exact Or.inr ⟨_, if_neg (not_not.mpr hzero), .sideSet hfit hset hzero⟩
        · refine Or.inl ⟨_, if_pos hzero, ?_⟩
          intro d' hstep
          cases hstep with
          | sideSet fits first early => exact hzero early
    · rw [if_neg hfit]
      refine Or.inl ⟨_, rfl, ?_⟩
      intro d' hstep
      cases hstep with
      | sideSet fits first early => exact hfit fits
  | delay cycles =>
    rcases Assembly.run_qualify_cases .delay cycles s with
      ⟨failure, hrun, hnot⟩ | ⟨addr, slot, word, h, hrun⟩
    · refine Or.inl ⟨failure, hrun, ?_⟩
      intro d' hstep
      cases hstep with
      | delay last found unused added => exact hnot _ _ _ ⟨last, found, unused, added⟩
    · exact Or.inr ⟨_, hrun, .delay h.last h.found h.unused h.added⟩
  | side value =>
    rcases Assembly.run_qualify_cases .side value s with
      ⟨failure, hrun, hnot⟩ | ⟨addr, slot, word, h, hrun⟩
    · refine Or.inl ⟨failure, hrun, ?_⟩
      intro d' hstep
      cases hstep with
      | side last found unused added => exact hnot _ _ _ ⟨last, found, unused, added⟩
    · exact Or.inr ⟨_, hrun, .side h.last h.found h.unused h.added⟩

/-- A draft and a statement leave no choice. -/
theorem Draft.Step.unique {d d₁ d₂ : Draft} {st : Statement} (h₁ : d.Step st d₁)
    (h₂ : d.Step st d₂) : d₁ = d₂ := by
  cases h₁ with
  | instruction encoded₁ free₁ =>
    cases h₂ with
    | instruction encoded₂ free₂ => cases encoded₁.symm.trans encoded₂; rfl
  | label fresh => cases h₂; rfl
  | wrapTarget => cases h₂; rfl
  | wrap nonempty => cases h₂; rfl
  | sideSet fits first early => cases h₂; rfl
  | delay last₁ found₁ unused₁ added₁ =>
    cases h₂ with
    | delay last₂ found₂ unused₂ added₂ =>
      cases last₁.symm.trans last₂
      cases found₁.symm.trans found₂
      cases added₁.symm.trans added₂
      rfl
  | side last₁ found₁ unused₁ added₁ =>
    cases h₂ with
    | side last₂ found₂ unused₂ added₂ =>
      cases last₁.symm.trans last₂
      cases found₁.symm.trans found₂
      cases added₁.symm.trans added₂
      rfl

/-! ### Attempts -/

namespace Session

/-- Whether a statement would be accepted now. -/
def accepts (s : Session) (st : Statement) : Bool := (s.attempt st.run).1.isOk

/-- A statement is accepted exactly if there is a step. -/
theorem accepts_iff {s : Session} {st : Statement} :
    s.accepts st = true ↔ ∃ d', s.draft.Step st d' := by
  rcases st.run_cases s with ⟨failure, hrun, hnot⟩ | ⟨s', hrun, hstep⟩
  · have hno : s.accepts st = false := by rw [accepts, attempt, hrun]; rfl
    rw [hno]
    constructor
    · intro h; cases h
    · rintro ⟨d', h⟩; exact absurd h (hnot d')
  · have hyes : s.accepts st = true := by rw [accepts, attempt, hrun]; rfl
    exact ⟨fun _ => ⟨_, hstep⟩, fun _ => hyes⟩

/-- The draft after an accepted statement is the one that the step leads to. -/
theorem draft_attempt {s : Session} {st : Statement} {d' : Draft} (h : s.draft.Step st d') :
    (s.attempt st.run).2.draft = d' := by
  rcases st.run_cases s with ⟨failure, hrun, hnot⟩ | ⟨s', hrun, hstep⟩
  · exact absurd h (hnot d')
  · rw [attempt, hrun]
    exact hstep.unique h

theorem attempt_of_accepts {s : Session} {st : Statement} (h : s.accepts st = true) :
    (s.attempt st.run).1 = .ok () := by
  rw [accepts] at h
  cases hanswer : (s.attempt st.run).1 with
  | ok u => rfl
  | error failure =>
    rw [hanswer] at h
    cases h

/-- A statement that is refused leaves the session as it was. -/
theorem attempt_of_refused {s : Session} {st : Statement} (h : s.accepts st = false) :
    (s.attempt st.run).2 = s := by
  rcases st.run_cases s with ⟨failure, hrun, hnot⟩ | ⟨s', hrun, hstep⟩
  · rw [attempt, hrun]
  · rw [accepts_iff.mpr ⟨_, hstep⟩] at h
    cases h

end Session

end PioAssembler
