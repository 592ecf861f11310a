import PioAssembler.Proofs.Invariant

/-!
# Drafts and what their sources say

`Draft.Reflects source d` says that a draft holds what the source describes, and nothing else. It has
two halves.

* `Draft.HoldsCode`: the words are those of the accepted operations, their jumps still without
  targets, and exactly these jumps wait for their labels. This half depends on the accepted statements
  alone.
* `Draft.HoldsMarks`: labels and wrap window are where the source puts them.

A step keeps each half, because it changes the draft and the reading of the source alike. A refused
statement changes neither. So every draft reflects its source (`Source.reflects_draft`).
-/

namespace PioAssembler

/-- The draft holds the operations among some accepted statements. -/
structure Draft.HoldsCode (statements : List Statement) (d : Draft) : Prop where
  sideSet : d.sideSet = Statement.configured statements
  slots : d.slots = (Statement.operations statements).map (Operation.slot d.effectiveSideSet)
  valid : ∀ op ∈ Statement.operations statements, op.Valid d.effectiveSideSet
  awaited : ∀ addr : Addr, d.labels.awaited addr
    = (Statement.operations statements)[addr.toNat]?.bind (·.instruction.target?)

/-- The draft has labels and wrap window where a source puts them. -/
structure Draft.HoldsMarks (source : Source) (d : Draft) : Prop where
  lookup : ∀ name, d.labels.lookup name = (source.address name).map UInt8.ofNat
  wrapTarget : d.effectiveWrapTarget = UInt8.ofNat source.wrapTarget
  wrap : d.wrap = if source.wrapEnd = 0 then none else some (UInt8.ofNat (source.wrapEnd - 1))

/-- The draft holds what the source describes. -/
structure Draft.Reflects (source : Source) (d : Draft) : Prop where
  code : d.HoldsCode source.accepted
  marks : d.HoldsMarks source

/-! ### Code -/

namespace Draft.HoldsCode

variable {statements : List Statement} {d : Draft}

/-- The draft has one slot for each operation. -/
theorem length_operations (h : d.HoldsCode statements) :
    (Statement.operations statements).length = d.count := by
  rw [Draft.count, h.slots, List.length_map]

/-- An instruction is the last operation and the last slot, and if it is a jump it waits. -/
theorem instruction (h : d.HoldsCode statements) (hc : d.Consistent) {i : Instruction String}
    {word : Word} (encoded : i.encode = .ok word) :
    ((d.append word).await d.nextAddr i).HoldsCode (statements ++ [.instruction i]) := by
  have hss : ((d.append word).await d.nextAddr i).effectiveSideSet = d.effectiveSideSet := by
    rw [effectiveSideSet, sideSet_await]
    rfl
  obtain ⟨hin, hword⟩ := (Operation.encode_eq_ok_iff d.effectiveSideSet).mp encoded
  have hops := Statement.operations_concat_instruction statements i
  refine ⟨?_, ?_, ?_, ?_⟩
  · rw [sideSet_await, Statement.configured_concat, ← h.sideSet]
    exact Option.or_none.symm
  · rw [slots_await, hss, hops, List.map_append, ← h.slots]
    show d.slots ++ [⟨word, false, false⟩] = _
    rw [← hword]
    rfl
  · rw [hss, hops]
    intro op hop
    rcases List.mem_append.mp hop with hold | hnew
    · exact h.valid op hold
    · rw [List.mem_singleton.mp hnew]
      exact ⟨hin, Nat.two_pow_pos _, by intro value hvalue; cases hvalue⟩
  · intro addr
    rw [awaited_await, hops]
    show Option.or _ (d.labels.awaited addr) = _
    rw [h.awaited addr, hc.getElem?_concat h.length_operations]
    -- at the new address stands the new instruction, and no operation stood there before
    by_cases he : addr = d.nextAddr
    · have hbehind : (Statement.operations statements)[addr.toNat]? = none := by
        rw [he, hc.toNat_nextAddr, ← h.length_operations]
        exact List.getElem?_eq_none (Nat.le_refl _)
      rw [if_pos he, if_pos he, hbehind]
      simp
    · rw [if_neg he, if_neg he, Option.none_or]

/-- A configuration is accepted before the first operation, so it changes the slot of none. -/
theorem sideSet_step (h : d.HoldsCode statements) (first : d.sideSet = none) (early : d.count = 0)
    (ss : SideSet) :
    Draft.HoldsCode (statements ++ [.sideSet ss.width ss.optional ss.pindirs])
      { d with sideSet := some ss } := by
  have hnil : Statement.operations statements = [] :=
    List.length_eq_zero_iff.mp (h.length_operations.trans early)
  have hops : Statement.operations (statements ++ [.sideSet ss.width ss.optional ss.pindirs]) = [] := by
    rw [Statement.operations_append_of_nil hnil]
    rfl
  refine ⟨?_, ?_, ?_, ?_⟩
  · rw [Statement.configured_concat, ← h.sideSet, first]
    rfl
  · rw [hops, List.map_nil]
    exact List.length_eq_zero_iff.mp early
  · rw [hops]
    intro op hop
    cases hop
  · rw [hops, ← hnil]
    exact h.awaited

/-- A statement that touches neither slots nor configuration, and no waiting jump. -/
theorem directive (h : d.HoldsCode statements) {st : Statement} {d' : Draft}
    (hst : st.isInstruction = false) (hdelay : st.delay? = none) (hside : st.side? = none)
    (hset : st.sideSet? = none) (hslots : d'.slots = d.slots) (hss : d'.sideSet = d.sideSet)
    (hwait : d'.labels.waiting = d.labels.waiting) : d'.HoldsCode (statements ++ [st]) := by
  have hops : Statement.operations (statements ++ [st]) = Statement.operations statements :=
    Statement.operations_concat_directive hst hdelay hside
  have heff : d'.effectiveSideSet = d.effectiveSideSet := by
    rw [effectiveSideSet, hss, effectiveSideSet]
  refine ⟨?_, ?_, ?_, ?_⟩
  · rw [hss, Statement.configured_concat, hset, Option.or_none]
    exact h.sideSet
  · rw [hslots, hops, heff]
    exact h.slots
  · rw [hops, heff]
    exact h.valid
  · intro addr
    rw [hops, Labels.awaited, hwait]
    exact h.awaited addr

/-- The slot that a qualifier belongs to is that of the last operation. -/
theorem last_operation (h : d.HoldsCode statements) (hc : d.Consistent) {addr : Addr} {slot : Slot}
    (last : d.last = some addr) (found : d.slots[addr.toNat]? = some slot) :
    ∃ ops op, Statement.operations statements = ops ++ [op] ∧ ops.length = addr.toNat ∧
      slot = op.slot d.effectiveSideSet := by
  have hlast := hc.toNat_last last
  have hlen := h.length_operations
  rcases List.eq_nil_or_concat' (Statement.operations statements) with hnil | ⟨ops, op, hops⟩
  · rw [hnil] at hlen
    simp only [List.length_nil] at hlen
    omega
  · have haddr : ops.length = addr.toNat := by
      rw [hops, List.length_append, List.length_singleton] at hlen
      omega
    refine ⟨ops, op, hops, haddr, ?_⟩
    rw [h.slots, hops, ← haddr, List.getElem?_map, List.getElem?_concat_length] at found
    exact (Option.some.inj found).symm

/-- Replacing the slot of the last operation by that of the qualified operation. -/
theorem qualify (h : d.HoldsCode statements) {st : Statement} (hst : st.isInstruction = false)
    (hset : st.sideSet? = none) {ops : List (Operation String)} {op : Operation String}
    (hops : Statement.operations statements = ops ++ [op]) {addr : Addr}
    (haddr : ops.length = addr.toNat) (hvalid : (op.qualify st).Valid d.effectiveSideSet) :
    (d.replace addr ((op.qualify st).slot d.effectiveSideSet)).HoldsCode (statements ++ [st]) := by
  have hops' := Statement.operations_concat hst hops
  refine ⟨?_, ?_, ?_, ?_⟩
  · rw [Statement.configured_concat, hset, Option.or_none]
    exact h.sideSet
  · show d.slots.set addr.toNat _ = List.map (Operation.slot d.effectiveSideSet) _
    rw [h.slots, hops, hops', ← haddr, List.map_append, List.map_append]
    simp
  · rw [hops']
    intro op' hop'
    show op'.Valid d.effectiveSideSet
    rcases List.mem_append.mp hop' with hold | hnew
    · exact h.valid op' (hops ▸ List.mem_append_left _ hold)
    · rw [List.mem_singleton.mp hnew]
      exact hvalid
  · intro other
    show d.labels.awaited other = _
    rw [h.awaited other, hops, hops']
    -- a qualifier leaves the target of the operation alone
    rcases Nat.lt_or_ge other.toNat ops.length with hlt | hge
    · rw [List.getElem?_append_left hlt, List.getElem?_append_left hlt]
    · rw [List.getElem?_append_right hge, List.getElem?_append_right hge]
      cases other.toNat - ops.length <;> rfl

/-- **A step keeps the code half.** -/
theorem step (h : d.HoldsCode statements) (hc : d.Consistent) {st : Statement} {d' : Draft}
    (hstep : d.Step st d') : d'.HoldsCode (statements ++ [st]) := by
  have hfit := hc.effectiveSideSet_fits
  cases hstep with
  | instruction encoded free => exact h.instruction hc encoded
  | label fresh => exact h.directive rfl rfl rfl rfl rfl rfl rfl
  | wrapTarget => exact h.directive rfl rfl rfl rfl rfl rfl rfl
  | wrap nonempty => exact h.directive rfl rfl rfl rfl rfl rfl rfl
  | sideSet fits first early => exact h.sideSet_step first early ⟨_, _, _⟩
  | @delay cycles addr slot word last found unused added =>
    -- the slot is that of the last operation, so the new word is that of the qualified operation
    obtain ⟨ops, op, hops, haddr, rfl⟩ := h.last_operation hc last found
    have hnone : op.delay = none := by simpa [Operation.slot] using unused
    have hqual : op.qualify (.delay cycles) = { op with delay := some cycles } := by
      simp [Operation.qualify, Statement.delay?, Statement.side?, hnone]
    have hold := h.valid op (hops ▸ List.mem_append_right _ (List.mem_singleton_self op))
    have hword := Operation.withDelay_word hfit (show (op.map fun _ => 0).delay = none from hnone) cycles
    rw [show (op.slot d.effectiveSideSet).word = (op.map fun _ => 0).word d.effectiveSideSet from rfl,
      hword] at added
    split at added
    · next hd =>
      cases added
      have hvalid : (op.qualify (.delay cycles)).Valid d.effectiveSideSet := by
        rw [hqual]
        exact ⟨hold.inRange, hd, hold.side⟩
      have hnew := h.qualify rfl rfl hops haddr hvalid
      rw [hqual] at hnew
      exact hnew
    · cases added
  | @side value addr slot word last found unused added =>
    obtain ⟨ops, op, hops, haddr, rfl⟩ := h.last_operation hc last found
    have hnone : op.side = none := by simpa [Operation.slot] using unused
    have hqual : op.qualify (.side value) = { op with side := some value } := by
      simp [Operation.qualify, Statement.delay?, Statement.side?, hnone]
    have hold := h.valid op (hops ▸ List.mem_append_right _ (List.mem_singleton_self op))
    have hword := Operation.withSide_word hfit (show (op.map fun _ => 0).side = none from hnone)
      hold.delay value
    rw [show (op.slot d.effectiveSideSet).word = (op.map fun _ => 0).word d.effectiveSideSet from rfl,
      hword] at added
    split at added
    · cases added
    · next h0 =>
      split at added
      · next hv =>
        cases added
        have hvalid : (op.qualify (.side value)).Valid d.effectiveSideSet := by
          rw [hqual]
          refine ⟨hold.inRange, hold.delay, ?_⟩
          intro v hvalue
          cases hvalue
          exact ⟨Nat.pos_of_ne_zero h0, hv⟩
        have hnew := h.qualify rfl rfl hops haddr hvalid
        rw [hqual] at hnew
        exact hnew
      · cases added

end Draft.HoldsCode

/-! ### Marks -/

namespace Draft.HoldsMarks

variable {source : Source} {d : Draft}

/-- A statement that sets no mark. -/
theorem unmarked (h : d.HoldsMarks source) {st : Statement} {d' : Draft}
    (hlabel : ∀ name, st ≠ .label name) (htarget : st ≠ .wrapTarget) (hwrap : st ≠ .wrap)
    (hsymbols : d'.labels.symbols = d.labels.symbols) (hdt : d'.wrapTarget = d.wrapTarget)
    (hdw : d'.wrap = d.wrap) : d'.HoldsMarks (source ++ [st]) := by
  refine ⟨?_, ?_, ?_⟩
  · intro name
    rw [Labels.lookup, hsymbols, Source.address_concat_of_ne _ (hlabel name)]
    exact h.lookup name
  · rw [effectiveWrapTarget, hdt, Source.wrapTarget_concat_of_ne _ htarget]
    exact h.wrapTarget
  · rw [hdw, Source.wrapEnd_concat_of_ne _ hwrap]
    exact h.wrap

/-- **A step keeps the marks half.** -/
theorem step (h : d.HoldsMarks source) (hcount : d.count = source.count) {st : Statement}
    {d' : Draft} (hstep : d.Step st d') : d'.HoldsMarks (source ++ [st]) := by
  cases hstep with
  | instruction encoded free =>
    refine h.unmarked (by simp) (by simp) (by simp) ?_ ?_ ?_
    · rw [symbols_await]; rfl
    · rw [wrapTarget_await]; rfl
    · rw [wrap_await]; rfl
  | @label name fresh =>
    refine ⟨?_, ?_, ?_⟩
    · intro other
      rw [Source.address_concat]
      show SymbolTable.find? (d.labels.symbols.insert name d.nextAddr) other = _
      rw [SymbolTable.find?_insert _ fresh]
      by_cases he : other = name
      · -- the step found no such label, so the source has none before this one
        have hnone : source.address other = none := by
          have hlookup := h.lookup other
          rw [he, fresh] at hlookup
          rw [he]
          exact Option.map_eq_none_iff.mp hlookup.symm
        rw [if_pos he, hnone, if_pos (by rw [he]), ← hcount]
        rfl
      · have hne : Statement.label name ≠ .label other := fun hst => he (Statement.label.inj hst).symm
        rw [if_neg he, if_neg hne, Option.or_none]
        exact h.lookup other
    · rw [Source.wrapTarget_concat_of_ne _ (by simp)]
      exact h.wrapTarget
    · rw [Source.wrapEnd_concat_of_ne _ (by simp)]
      exact h.wrap
  | wrapTarget =>
    refine ⟨?_, ?_, ?_⟩
    · intro name
      rw [Source.address_concat_of_ne _ (by simp)]
      exact h.lookup name
    · rw [Source.wrapTarget_concat, if_pos rfl, ← hcount]
      rfl
    · rw [Source.wrapEnd_concat_of_ne _ (by simp)]
      exact h.wrap
  | wrap nonempty =>
    refine ⟨?_, ?_, ?_⟩
    · intro name
      rw [Source.address_concat_of_ne _ (by simp)]
      exact h.lookup name
    · rw [Source.wrapTarget_concat_of_ne _ (by simp)]
      exact h.wrapTarget
    · rw [Source.wrapEnd_concat, if_pos rfl, ← hcount, if_neg nonempty]
  | sideSet fits first early => exact h.unmarked (by simp) (by simp) (by simp) rfl rfl rfl
  | delay last found unused added => exact h.unmarked (by simp) (by simp) (by simp) rfl rfl rfl
  | side last found unused added => exact h.unmarked (by simp) (by simp) (by simp) rfl rfl rfl

/-- **A refused statement sets no mark**: a label that is refused has its address already, and a
`wrap` is refused only while there is no instruction. -/
theorem refuse (h : d.HoldsMarks source) (hc : d.Consistent) (hcount : d.count = source.count)
    {st : Statement} (hno : ∀ d', ¬ d.Step st d') : d.HoldsMarks (source ++ [st]) := by
  refine ⟨?_, ?_, ?_⟩
  · intro name
    rw [Source.address_concat, h.lookup name]
    cases haddr : source.address name with
    | some addr => rfl
    | none =>
      have hne : st ≠ .label name := by
        rintro rfl
        have hlookup := h.lookup name
        rw [haddr] at hlookup
        exact hno _ (.label hlookup)
      rw [if_neg hne]
      rfl
  · rw [Source.wrapTarget_concat, if_neg]
    · exact h.wrapTarget
    · rintro rfl
      exact hno _ .wrapTarget
  · rw [Source.wrapEnd_concat]
    by_cases hst : st = .wrap
    · subst hst
      -- refused while there is no instruction: then no `wrap` was accepted before it either
      have hzero : d.count = 0 := by
        by_contra hne
        exact hno _ (.wrap hne)
      rw [if_pos rfl, ← hcount, if_pos hzero]
      cases hw : d.wrap with
      | none => rfl
      | some addr =>
        have := hc.wrap_lt addr hw
        omega
    · rw [if_neg hst]
      exact h.wrap

end Draft.HoldsMarks

/-! ### Every draft reflects its source -/

namespace Source

/-- **Every draft holds what its source describes.** -/
theorem reflects_draft (source : Source) : source.draft.Reflects source := by
  induction source using concat_induction with
  | nil =>
    refine ⟨⟨rfl, rfl, ?_, ?_⟩, ⟨?_, rfl, rfl⟩⟩
    · intro op hop; cases hop
    · intro addr; rfl
    · intro name; rfl
  | accepted source st ih hacc hstep =>
    have hcount : source.draft.count = source.count :=
      ih.code.length_operations.symm.trans source.length_operations
    refine ⟨?_, ih.marks.step hcount hstep⟩
    rw [accepted_of_accepts hacc]
    exact ih.code.step source.consistent_draft hstep
  | refused source st ih hacc hd =>
    -- a refused statement adds no operation, but marks are looked for in the whole source
    have hcount : source.draft.count = source.count :=
      ih.code.length_operations.symm.trans source.length_operations
    have hno : ∀ d', ¬ source.draft.Step st d' := by
      intro d' hstep
      rw [Session.accepts_iff.mpr ⟨d', hstep⟩] at hacc
      cases hacc
    rw [hd]
    refine ⟨?_, ih.marks.refuse source.consistent_draft hcount hno⟩
    rw [accepted_of_refused hacc]
    exact ih.code

end Source

end PioAssembler
