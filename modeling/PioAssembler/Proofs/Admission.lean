import PioAssembler.Proofs.Image

/-!
# What a source admits next

Whether a statement is accepted depends on what the source before it says, not on how the draft keeps
it. `Source.Admits` states the rule for each kind of statement, and `Source.accepts_iff` that it is the
one that sessions follow. What a source says after a statement it admits is given by
`Source.operations_instruction`, `Source.operations_qualify` and `Source.operations_directive`.
-/

namespace PioAssembler

namespace Source

/-- The rule by which a statement is accepted behind a source. -/
def Admits (source : Source) : Statement → Prop
  | .instruction i => i.InRange ∧ source.count < capacity
  | .label name => source.address name = none
  | .wrapTarget => True
  | .wrap => source.count ≠ 0
  | .sideSet width optional pindirs =>
      SideSet.Fits ⟨width, optional, pindirs⟩ ∧ Statement.configured source.accepted = none ∧
        source.count = 0
  | .delay cycles =>
      ∃ op, source.operations.getLast? = some op ∧ op.delay = none ∧
        source.sideSet.FitsDelay cycles.toNat
  | .side value =>
      ∃ op, source.operations.getLast? = some op ∧ op.side = none ∧ 0 < source.sideSet.width.toNat ∧
        value.toNat < 2 ^ source.sideSet.width.toNat

/-! ### The last operation -/

/-- The instruction that a qualifier is added to is the last operation. -/
theorem getLast?_of_last {source : Source} {addr : Addr} {slot : Slot}
    (last : source.draft.last = some addr) (found : source.draft.slots[addr.toNat]? = some slot) :
    ∃ op, source.operations.getLast? = some op ∧ slot = op.slot source.sideSet := by
  obtain ⟨ops, op, hops, -, hslot⟩ :=
    source.reflects_draft.code.last_operation source.consistent_draft last found
  rw [source.effectiveSideSet_eq] at hslot
  exact ⟨op, List.getLast?_eq_some_iff.mpr ⟨ops, hops⟩, hslot⟩

/-- The last operation is the instruction that a qualifier is added to. -/
theorem last_of_getLast? {source : Source} {op : Operation String}
    (h : source.operations.getLast? = some op) :
    ∃ addr, source.draft.last = some addr ∧
      source.draft.slots[addr.toNat]? = some (op.slot source.sideSet) := by
  obtain ⟨ops, hops⟩ := List.getLast?_eq_some_iff.mp h
  have hcount : source.draft.count = ops.length + 1 := by
    rw [source.count_eq, ← source.length_operations, hops, List.length_append]
    rfl
  have hlast := source.consistent_draft.last_eq
  rw [hcount, if_neg (Nat.succ_ne_zero _)] at hlast
  obtain ⟨addr, hsome, haddr⟩ := Option.map_eq_some_iff.mp hlast
  refine ⟨addr, hsome, ?_⟩
  rw [haddr, source.reflects_draft.code.slots, source.effectiveSideSet_eq]
  show (List.map _ source.operations)[_]? = _
  rw [hops, List.getElem?_map, Nat.add_sub_cancel, List.getElem?_concat_length]
  rfl

/-! ### Acceptance -/

/-- A delay is accepted behind an instruction that has none, if it fits what side-set leaves over. -/
theorem step_delay_iff {source : Source} {cycles : UInt8} :
    (∃ d', source.draft.Step (.delay cycles) d') ↔ source.Admits (.delay cycles) := by
  have hfit := source.sideSet_fits
  constructor
  · rintro ⟨d', hstep⟩
    cases hstep with
    | delay last found unused added =>
      obtain ⟨op, hlast, rfl⟩ := getLast?_of_last last found
      rw [source.effectiveSideSet_eq] at added
      obtain ⟨hd, -⟩ := (Word.withDelay_eq_ok_iff hfit).mp added
      exact ⟨op, hlast, by simpa [Operation.slot] using unused, hd⟩
  · rintro ⟨op, hlast, hnone, hd⟩
    obtain ⟨addr, last, found⟩ := last_of_getLast? hlast
    obtain ⟨word, added⟩ : ∃ word, (op.slot source.sideSet).word.withDelay cycles
        source.draft.effectiveSideSet = .ok word := by
      rw [source.effectiveSideSet_eq]
      exact ⟨_, (Word.withDelay_eq_ok_iff hfit).mpr ⟨hd, rfl⟩⟩
    exact ⟨_, .delay last found (by simp [Operation.slot, hnone]) added⟩

/-- A side-set value is accepted behind an instruction that has none, if it fits the width. -/
theorem step_side_iff {source : Source} {value : UInt8} :
    (∃ d', source.draft.Step (.side value) d') ↔ source.Admits (.side value) := by
  have hfit := source.sideSet_fits
  constructor
  · rintro ⟨d', hstep⟩
    cases hstep with
    | side last found unused added =>
      obtain ⟨op, hlast, rfl⟩ := getLast?_of_last last found
      rw [source.effectiveSideSet_eq] at added
      obtain ⟨h0, hv, -⟩ := (Word.withSide_eq_ok_iff hfit).mp added
      exact ⟨op, hlast, by simpa [Operation.slot] using unused, h0, hv⟩
  · rintro ⟨op, hlast, hnone, h0, hv⟩
    obtain ⟨addr, last, found⟩ := last_of_getLast? hlast
    obtain ⟨word, added⟩ : ∃ word, (op.slot source.sideSet).word.withSide value
        source.draft.effectiveSideSet = .ok word := by
      rw [source.effectiveSideSet_eq]
      exact ⟨_, (Word.withSide_eq_ok_iff hfit).mpr ⟨h0, hv, rfl⟩⟩
    exact ⟨_, .side last found (by simp [Operation.slot, hnone]) added⟩

/-- **A statement is accepted exactly if the source admits it.** -/
theorem accepts_iff {source : Source} {st : Statement} :
    source.session.accepts st = true ↔ source.Admits st := by
  rw [Session.accepts_iff]
  show (∃ d', source.draft.Step st d') ↔ _
  -- each guard of a step speaks of the draft; the draft reflects the source
  have hcount := source.count_eq
  cases st with
  | instruction i =>
    constructor
    · rintro ⟨d', hstep⟩
      cases hstep with
      | instruction encoded free =>
        exact ⟨(Instruction.encode_eq_ok_iff.mp encoded).1, hcount ▸ free⟩
    · rintro ⟨hin, hfree⟩
      exact ⟨_, .instruction (Instruction.encode_eq_ok_iff.mpr ⟨hin, rfl⟩) (hcount ▸ hfree)⟩
  | label name =>
    have hlookup : source.draft.labels.lookup name = none ↔ source.address name = none := by
      rw [source.reflects_draft.marks.lookup name, Option.map_eq_none_iff]
    constructor
    · rintro ⟨d', hstep⟩
      cases hstep with
      | label fresh => exact hlookup.mp fresh
    · intro hnone
      exact ⟨_, .label (hlookup.mpr hnone)⟩
  | wrapTarget => exact ⟨fun _ => trivial, fun _ => ⟨_, .wrapTarget⟩⟩
  | wrap =>
    constructor
    · rintro ⟨d', hstep⟩
      cases hstep with
      | wrap nonempty =>
        rw [hcount] at nonempty
        exact nonempty
    · intro hne
      rw [Admits, ← hcount] at hne
      exact ⟨_, .wrap hne⟩
  | sideSet width optional pindirs =>
    have hset := source.reflects_draft.code.sideSet
    constructor
    · rintro ⟨d', hstep⟩
      cases hstep with
      | sideSet fits first early => exact ⟨fits, hset ▸ first, hcount ▸ early⟩
    · rintro ⟨hfit, hfirst, hearly⟩
      exact ⟨_, .sideSet hfit (hset ▸ hfirst) (hcount ▸ hearly)⟩
  | delay cycles => exact step_delay_iff
  | side value => exact step_side_iff

/-! ### What is said afterwards -/

theorem accepted_of_admits {source : Source} {st : Statement} (h : source.Admits st) :
    accepted (source ++ [st]) = source.accepted ++ [st] :=
  accepted_of_accepts (accepts_iff.mpr h)

/-- An admitted instruction is a new operation without qualifiers. -/
theorem operations_instruction {source : Source} {i : Instruction String}
    (h : source.Admits (.instruction i)) :
    operations (source ++ [.instruction i]) = source.operations ++ [⟨i, none, none⟩] := by
  rw [operations, accepted_of_admits h]
  exact Statement.operations_concat_instruction _ _

/-- An admitted qualifier belongs to the last operation. -/
theorem operations_qualify {source : Source} {st : Statement} (hst : st.isInstruction = false)
    (h : source.Admits st) {ops : List (Operation String)} {op : Operation String}
    (hops : source.operations = ops ++ [op]) :
    operations (source ++ [st]) = ops ++ [op.qualify st] := by
  rw [operations, accepted_of_admits h]
  exact Statement.operations_concat hst hops

/-- A directive, admitted or not, adds nothing to the operations. -/
theorem operations_directive (source : Source) {st : Statement} (hst : st.isInstruction = false)
    (hdelay : st.delay? = none) (hside : st.side? = none) :
    operations (source ++ [st]) = source.operations := by
  rw [operations, accepted_concat]
  split
  · exact Statement.operations_concat_directive hst hdelay hside
  · rfl

theorem configured_of_admits {source : Source} {st : Statement} (h : source.Admits st) :
    Statement.configured (accepted (source ++ [st]))
      = (Statement.configured source.accepted).or st.sideSet? := by
  rw [accepted_of_admits h, Statement.configured_concat]

end Source

end PioAssembler
