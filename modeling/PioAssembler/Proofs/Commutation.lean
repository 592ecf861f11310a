import PioAssembler.Proofs.DraftParts

/-!
# Directives and qualifiers commute

Between two instructions the statements of a source may change places, as long as delays keep their order
among themselves, and so do side-set values and configurations (`Statement.Rearranged`).

Each part of a draft is written by statements of one sort (`Draft.next_eq`), so two statements of
different sorts commute (`Draft.next_comm`): a configuration that a qualifier could read is accepted only
while there is nothing to qualify, and two qualifiers are OR-ed into the same word. From two statements
the step to whole blocks is `Draft.foldl_next_eq`, and what it means for the program
`Source.build_rearranged`.
-/

namespace PioAssembler

/-! ### Two statements -/

/-- The sorts of statements that have to keep their order. -/
inductive Lane where
  | delay | side | sideSet
  deriving DecidableEq, Repr

/-- The sort of the statements that give a qualifier. -/
def Qualifier.lane : Qualifier → Lane
  | .delay => .delay
  | .side => .side

namespace Statement

/-- The sort of a statement, if its order among its like counts. -/
def lane? : Statement → Option Lane
  | .delay _ => some .delay
  | .side _ => some .side
  | .sideSet .. => some .sideSet
  | _ => none

/-- The two statements may change places. -/
def Independent (a b : Statement) : Prop := ∀ lane, ¬ (a.lane? = some lane ∧ b.lane? = some lane)

theorem lane?_of_sideSet? {st : Statement} {ss : SideSet} (h : st.sideSet? = some ss) :
    st.lane? = some .sideSet := by
  cases st with
  | sideSet width optional pindirs => rfl
  | _ => cases h

theorem lane?_of_qualifier? {st : Statement} {q : Qualifier} {value : UInt8}
    (h : st.qualifier? = some (q, value)) :
    st.lane? = some q.lane := by
  cases st with
  | delay cycles => cases h; rfl
  | side value => cases h; rfl
  | _ => cases h

end Statement

/-- An instruction takes its two qualifiers in either order. -/
theorem Slot.next_comm (ss : SideSet) (slot : Slot) {a b : Statement} (hind : a.Independent b) :
    (slot.next ss a).next ss b = (slot.next ss b).next ss a := by
  simp only [Slot.next]
  cases ha : a.qualifier? with
  | none => rfl
  | some given =>
    cases hb : b.qualifier? with
    | none => rfl
    | some given' =>
      obtain ⟨q, value⟩ := given
      obtain ⟨q', value'⟩ := given'
      have hne : q ≠ q' := by
        rintro rfl
        exact hind _ ⟨Statement.lane?_of_qualifier? ha, Statement.lane?_of_qualifier? hb⟩
      exact slot.attempt_comm ss hne value value'

namespace Draft

variable {d : Draft} {a b : Statement}

/-- The start of the wrap window depends on the address alone, which neither statement moves. -/
theorem nextWrapTarget_comm (ha : a.isInstruction = false) (hb : b.isInstruction = false) :
    (d.next a).nextWrapTarget b = (d.next b).nextWrapTarget a := by
  simp only [nextWrapTarget, nextAddr_next ha, nextAddr_next hb, wrapTarget_next ha,
    wrapTarget_next hb]
  by_cases hat : a = .wrapTarget <;> by_cases hbt : b = .wrapTarget <;> simp [hat, hbt]

/-- The end of the wrap window depends on the address alone, which neither statement moves. -/
theorem nextWrap_comm (ha : a.isInstruction = false) (hb : b.isInstruction = false) :
    (d.next a).nextWrap b = (d.next b).nextWrap a := by
  simp only [nextWrap, count_next ha, count_next hb, wrap_next ha, wrap_next hb]
  by_cases haw : a = .wrap <;> by_cases hbw : b = .wrap <;> simp [haw, hbw]

/-- Two labels are defined at the same address, so their order does not show. -/
theorem nextLabels_comm (ho : d.labels.symbols.Ordered) (ha : a.isInstruction = false)
    (hb : b.isInstruction = false) : (d.next a).nextLabels b = (d.next b).nextLabels a := by
  simp only [nextLabels, nextAddr_next ha, nextAddr_next hb, labels_next ha, labels_next hb]
  cases a.label? with
  | none => rfl
  | some name =>
    cases b.label? with
    | none => rfl
    | some other => exact Labels.mark_comm ho name other d.nextAddr

/-- Of two independent statements at most one is a configuration. -/
theorem nextSideSet_comm (ha : a.isInstruction = false) (hb : b.isInstruction = false)
    (hind : a.Independent b) : (d.next a).nextSideSet b = (d.next b).nextSideSet a := by
  simp only [nextSideSet, count_next ha, count_next hb, sideSet_next ha, sideSet_next hb]
  cases hsa : a.sideSet? with
  | none => rfl
  | some ss =>
    cases hsb : b.sideSet? with
    | none => rfl
    | some ss' =>
      exact absurd ⟨Statement.lane?_of_sideSet? hsa, Statement.lane?_of_sideSet? hsb⟩ (hind _)

/-- Once there is an instruction, the configuration does not change any more. -/
theorem effectiveSideSet_next (h : a.isInstruction = false) (hne : d.count ≠ 0) :
    (d.next a).effectiveSideSet = d.effectiveSideSet := by
  rw [effectiveSideSet, sideSet_next h, nextSideSet]
  cases a.sideSet? with
  | none => rfl
  | some ss =>
    dsimp only
    rw [if_neg fun hstep => hne hstep.2.2]
    rfl

/-- Two independent qualifiers are given to the same instruction, and under the same configuration. -/
theorem nextSlots_comm (hc : d.Consistent) (ha : a.isInstruction = false)
    (hb : b.isInstruction = false) (hind : a.Independent b) :
    (d.next a).nextSlots b = (d.next b).nextSlots a := by
  rw [nextSlots, nextSlots, last_next ha, last_next hb, slots_next ha, slots_next hb, nextSlots,
    nextSlots]
  cases hlast : d.last with
  | none => rfl
  | some addr =>
    -- an instruction is there, so neither statement configures anything
    have hne : d.count ≠ 0 := by
      have := hc.toNat_last hlast
      omega
    dsimp only
    rw [effectiveSideSet_next ha hne, effectiveSideSet_next hb hne, List.modify_modify_eq,
      List.modify_modify_eq]
    congr 1
    funext slot
    exact slot.next_comm _ hind

/-- **Statements of different sorts commute.** -/
theorem next_comm (hc : d.Consistent) (ho : d.labels.symbols.Ordered) (ha : a.isInstruction = false)
    (hb : b.isInstruction = false) (hind : a.Independent b) :
    (d.next a).next b = (d.next b).next a := by
  rw [next_eq (d.next a) hb, next_eq (d.next b) ha, nextSlots_comm hc ha hb hind, last_next ha,
    last_next hb, nextWrapTarget_comm ha hb, nextWrap_comm ha hb, nextSideSet_comm ha hb hind,
    nextLabels_comm ho ha hb]

/-- Every statement keeps the invariant, accepted or refused. -/
theorem consistent_next (hc : d.Consistent) (st : Statement) : (d.next st).Consistent := by
  rcases d.step_or_next_eq st with hstep | hsame
  · exact hc.step hstep
  · rw [hsame]
    exact hc

/-- Every statement keeps the symbol table in order, accepted or refused. -/
theorem ordered_symbols_next (ho : d.labels.symbols.Ordered) (st : Statement) :
    (d.next st).labels.symbols.Ordered := by
  rcases d.step_or_next_eq st with hstep | hsame
  · exact hstep.ordered_symbols ho
  · rw [hsame]
    exact ho

end Draft

/-! ### Blocks -/

namespace Statement

/-- The second block has the statements of the first, and the statements of each sort in the same order
among themselves. -/
structure Rearranged (block block' : List Statement) : Prop where
  perm : block.Perm block'
  order : ∀ lane : Lane,
    block.filter (·.lane? = some lane) = block'.filter (·.lane? = some lane)

/-- The statement that comes first in one arrangement can come first in the other. -/
theorem Rearranged.exists_front {st : Statement} {block block' : List Statement}
    (h : Rearranged (st :: block) block') :
    ∃ before after, block' = before ++ st :: after ∧ (∀ other ∈ before, other.Independent st) ∧
      Rearranged block (before ++ after) := by
  obtain ⟨before, after, rfl, hnot⟩ :=
    List.eq_append_cons_of_mem (h.perm.mem_iff.mp List.mem_cons_self)
  -- one of its sort before it would be the first of its sort
  have hnone : ∀ lane, st.lane? = some lane → before.filter (·.lane? = some lane) = [] := by
    intro lane hlane
    have horder := h.order lane
    rw [List.filter_append, List.filter_cons_of_pos (by simpa using hlane)] at horder
    cases hbefore : before.filter (·.lane? = some lane) with
    | nil => rfl
    | cons first rest =>
      rw [hbefore] at horder
      have hmem : first ∈ before.filter (·.lane? = some lane) := by
        rw [hbefore]
        exact List.mem_cons_self
      obtain rfl : st = first := (List.cons.inj horder).1
      exact absurd (List.mem_of_mem_filter hmem) hnot
  refine ⟨before, after, rfl, ?_, ?_, ?_⟩
  · rintro other hother lane ⟨hlane, hst⟩
    have := List.filter_eq_nil_iff.mp (hnone lane hst) other hother
    exact this (by simpa using hlane)
  · exact (h.perm.trans List.perm_middle).cons_inv
  · intro lane
    have horder := h.order lane
    by_cases hst : st.lane? = some lane
    · rw [List.filter_append, hnone lane hst, List.filter_cons_of_pos (by simpa using hst),
        List.filter_cons_of_pos (by simpa using hst)] at horder
      rw [List.filter_append, hnone lane hst]
      exact (List.cons.inj horder).2
    · rw [List.filter_append, List.filter_cons_of_neg (by simpa using hst),
        List.filter_cons_of_neg (by simpa using hst)] at horder
      rw [List.filter_append]
      exact horder

end Statement

namespace Draft

variable {d : Draft}

/-- A statement moves in front of those that it is independent of. -/
theorem foldl_next_move {st : Statement} (hst : st.isInstruction = false)
    {before : List Statement} (hbefore : ∀ other ∈ before, other.isInstruction = false)
    (hind : ∀ other ∈ before, other.Independent st) (hc : d.Consistent)
    (ho : d.labels.symbols.Ordered) :
    (before.foldl next d).next st = before.foldl next (d.next st) := by
  induction before generalizing d with
  | nil => rfl
  | cons first rest ih =>
    rw [List.foldl_cons, List.foldl_cons, ih (fun other h => hbefore other (List.mem_cons_of_mem _ h))
      (fun other h => hind other (List.mem_cons_of_mem _ h)) (consistent_next hc first)
      (ordered_symbols_next ho first)]
    rw [next_comm hc ho (hbefore first List.mem_cons_self) hst (hind first List.mem_cons_self)]

/-- **A block and its rearrangement lead to the same draft.** -/
theorem foldl_next_eq {block block' : List Statement}
    (hblock : ∀ st ∈ block, st.isInstruction = false) (h : Statement.Rearranged block block')
    (hc : d.Consistent) (ho : d.labels.symbols.Ordered) :
    block.foldl next d = block'.foldl next d := by
  induction block generalizing block' d with
  | nil => rw [List.nil_perm.mp h.perm]
  | cons st rest ih =>
    -- the first statement stands somewhere in the other block, and may be moved to its front
    obtain ⟨before, after, rfl, hind, hrest⟩ := h.exists_front
    have hst := hblock st List.mem_cons_self
    have hbefore : ∀ other ∈ before, other.isInstruction = false := by
      intro other hother
      exact hblock other (h.perm.mem_iff.mpr (List.mem_append_left _ hother))
    calc (st :: rest).foldl next d
        = (before ++ after).foldl next (d.next st) :=
          ih (fun other hother => hblock other (List.mem_cons_of_mem _ hother)) hrest
            (consistent_next hc st) (ordered_symbols_next ho st)
      _ = after.foldl next (before.foldl next (d.next st)) := List.foldl_append
      _ = after.foldl next ((before.foldl next d).next st) := by
          rw [foldl_next_move hst hbefore hind hc ho]
      _ = (before ++ st :: after).foldl next d := by rw [List.foldl_append, List.foldl_cons]

end Draft

namespace Source

/-- **Between instructions statements commute**: a block of directives and qualifiers can be rearranged,
as long as delays, side-set values and configurations keep their order among themselves. The draft is the
same afterwards, and so is what is built in the end, whatever follows. -/
theorem build_rearranged (source block block' : Source)
    (hblock : ∀ st ∈ block, st.isInstruction = false) (h : Statement.Rearranged block block') :
    draft (source ++ block) = draft (source ++ block') ∧
      ∀ rest : Source, build (source ++ block ++ rest) = build (source ++ block' ++ rest) := by
  have hdraft : draft (source ++ block) = draft (source ++ block') := by
    rw [draft_append, draft_append]
    exact Draft.foldl_next_eq hblock h source.consistent_draft source.ordered_symbols
  exact ⟨hdraft, build_append_congr hdraft⟩

/-- Around a jump, with a delay that is too long, a second side-set value, a late configuration and a
label that is taken. -/
theorem build_rearranged_around_jump :
    let source : Source := [.sideSet 1 true false, .label "top", .instruction (.jmp .always "end")]
    let block : Source := [.delay 9, .side 1, .label "end", .delay 2, .wrap, .label "top",
      .sideSet 2 false false, .wrapTarget, .side 0]
    let block' : Source := [.wrapTarget, .delay 9, .label "top", .delay 2, .sideSet 2 false false,
      .side 1, .wrap, .side 0, .label "end"]
    let rest : Source := [.instruction (.set .pins 0), .wrap]
    ((∀ st ∈ block, st.isInstruction = false) ∧ Statement.Rearranged block block') ∧
      draft (source ++ block) = draft (source ++ block') ∧
      build (source ++ block' ++ rest)
        = .ok ⟨[0x1a01#16, 0xe000#16], 1, 1, ⟨1, true, false⟩, [("end", 1), ("top", 0)]⟩ := by
  intro source block block' rest
  have hblock : ∀ st ∈ block, st.isInstruction = false := by decide
  have hrearranged : Statement.Rearranged block block' := by
    refine ⟨by decide +kernel, ?_⟩
    intro lane
    cases lane <;> decide +kernel
  obtain ⟨hdraft, hbuild⟩ := build_rearranged source block block' hblock hrearranged
  refine ⟨⟨hblock, hrearranged⟩, hdraft, ?_⟩
  rw [← hbuild rest]
  decide +kernel

end Source

end PioAssembler
