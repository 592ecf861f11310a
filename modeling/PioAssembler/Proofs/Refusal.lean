import PioAssembler.Proofs.Admission

/-!
# Why a statement is refused

`Source.Refuses source st e` states the rules by which a statement is refused behind a source, and with
which error. Like `Source.Admits` they read the source alone: how many instructions it had accepted, which
of its statements define the label, what it configured, and what its last instruction was given.

Every statement is either admitted or refused (`Source.admits_or_refuses`), and a refusal is what a
session reports (`Source.Refuses.attempt_eq`). So the answer to every statement follows from the source:
`Source.attempt_by_history`.
-/

namespace PioAssembler

/-! ### Immediates -/

/-- An immediate, by the name that errors use, and the range it has to be in. -/
structure Immediate where
  what : String
  value : Nat
  min : Nat
  max : Nat
  deriving DecidableEq, Repr

namespace Instruction

variable {τ : Type}

/-- The immediate of an instruction. -/
def immediate? : Instruction τ → Option Immediate
  | .wait _ _ index => some ⟨"wait index", index.toNat, 0, 31⟩
  | .shiftIn _ bitCount | .shiftOut _ bitCount => some ⟨"bit count", bitCount.toNat, 1, 32⟩
  | .irq _ index => some ⟨"irq index", index.toNat, 0, 31⟩
  | .set _ data => some ⟨"set data", data.toNat, 0, 31⟩
  | .jmp .. | .push .. | .pull .. | .mov .. => none

/-- An instruction is in range exactly if its immediate is. -/
theorem inRange_iff {i : Instruction τ} :
    i.InRange ↔ ∀ m ∈ i.immediate?, m.min ≤ m.value ∧ m.value ≤ m.max := by
  cases i <;> simp [InRange, immediate?]

/-- Every immediate goes through the same check, with its own name and bounds. -/
theorem low_of_immediate {i : Instruction τ} {m : Immediate} (h : i.immediate? = some m) :
    i.low = (do checkRange m.what m.value m.min m.max; return BitVec.ofNat 5 m.value) := by
  cases i with
  | jmp | push | pull | mov => cases h
  | wait | shiftIn | shiftOut | irq | set => cases h; rfl

/-- An immediate outside its range is named, with its value and its bounds. -/
theorem encode_of_outside {i : Instruction τ} {m : Immediate} (h : i.immediate? = some m)
    (hout : m.value < m.min ∨ m.max < m.value) :
    i.encode = .error (.invalidOperand m.what m.value m.min m.max) := by
  have hcheck : checkRange m.what m.value m.min m.max
      = .error (.invalidOperand m.what m.value m.min m.max) := if_neg (by omega)
  rw [encode, low_of_immediate h, hcheck]
  rfl

end Instruction

/-! ### The rules -/

/-- The statement that gives a qualifier. -/
def Qualifier.statement : Qualifier → UInt8 → Statement
  | .delay => .delay
  | .side => .side

/-- What an operation was given of a qualifier. -/
def Operation.given {τ : Type} (op : Operation τ) : Qualifier → Option UInt8
  | .delay => op.delay
  | .side => op.side

/-- A slot knows which qualifiers its operation was given. -/
theorem Operation.has_slot {τ : Type} (ss : SideSet) (op : Operation τ) (q : Qualifier) :
    (op.slot ss).has q = (op.given q).isSome := by
  cases q <;> rfl

namespace Source

/-- The rules by which a statement is refused behind a source. Where a statement can be wrong in more
than one way, the later rules ask that the earlier ones do not apply. -/
inductive Refuses (source : Source) : Statement → Error → Prop where
  /-- Also when the memory is full. -/
  | immediate {i : Instruction String} {m : Immediate} (has : i.immediate? = some m)
      (outside : m.value < m.min ∨ m.max < m.value) :
      Refuses source (.instruction i) (.invalidOperand m.what m.value m.min m.max)
  | full {i : Instruction String} (inRange : i.InRange) (full : source.count = capacity) :
      Refuses source (.instruction i) .programTooLarge
  | label {name : String} (first second : Addr) (earlier : source.address name = some first.toNat)
      (now : source.count = second.toNat) :
      Refuses source (.label name) (.duplicateLabel name first second)
  | wrap (empty : source.count = 0) : Refuses source .wrap (.noInstruction "wrap")
  | width {width : UInt8} {optional pindirs : Bool}
      (wide : (if optional then 4 else 5) < width.toNat) :
      Refuses source (.sideSet width optional pindirs)
        (.invalidOperand "side-set width" width.toNat 0 (if optional then 4 else 5))
  | again {width : UInt8} {optional pindirs : Bool}
      (fits : width.toNat ≤ if optional then 4 else 5)
      (earlier : ∃ st ∈ source.accepted, st.sideSet?.isSome) :
      Refuses source (.sideSet width optional pindirs)
        (.misconfiguredSideSet "side_set given more than once")
  | late {width : UInt8} {optional pindirs : Bool}
      (fits : width.toNat ≤ if optional then 4 else 5)
      (first : ∀ st ∈ source.accepted, st.sideSet? = none) (late : source.count ≠ 0) :
      Refuses source (.sideSet width optional pindirs)
        (.misconfiguredSideSet "side_set after the first instruction")
  | alone (q : Qualifier) (value : UInt8) (empty : source.count = 0) :
      Refuses source (q.statement value) (.noInstruction q.name)
  | twice (q : Qualifier) (value : UInt8) {op : Operation String} {addr : Addr}
      (last : source.operations.getLast? = some op) (given : (op.given q).isSome)
      (position : source.count = addr.toNat + 1) :
      Refuses source (q.statement value) (.duplicateQualifier q.name addr)
  | delay {cycles : UInt8} {op : Operation String} (last : source.operations.getLast? = some op)
      (unused : op.delay = none) (long : 2 ^ source.sideSet.room ≤ cycles.toNat) :
      Refuses source (.delay cycles)
        (.invalidOperand "delay" cycles.toNat 0 (2 ^ source.sideSet.room - 1))
  | unconfigured {value : UInt8} {op : Operation String}
      (last : source.operations.getLast? = some op) (unused : op.side = none)
      (off : source.sideSet.width.toNat = 0) :
      Refuses source (.side value)
        (.misconfiguredSideSet "side value used without a side_set directive")
  | value {value : UInt8} {op : Operation String} (last : source.operations.getLast? = some op)
      (unused : op.side = none) (on : source.sideSet.width.toNat ≠ 0)
      (large : 2 ^ source.sideSet.width.toNat ≤ value.toNat) :
      Refuses source (.side value)
        (.invalidOperand "side-set value" value.toNat 0 (2 ^ source.sideSet.width.toNat - 1))

/-! ### Admitted or refused -/

theorem configured_accepted_eq_none_iff {source : Source} :
    Statement.configured source.accepted = none ↔ ∀ st ∈ source.accepted, st.sideSet? = none :=
  List.findSome?_eq_none_iff

theorem getLast?_operations_eq_none_iff {source : Source} :
    source.operations.getLast? = none ↔ source.count = 0 := by
  rw [List.getLast?_eq_none_iff, ← List.length_eq_zero_iff, source.length_operations]

/-- A qualifier is refused, unless there is a last instruction that does not have it. -/
theorem refuses_or_unused (source : Source) (q : Qualifier) (value : UInt8) :
    (∃ e, source.Refuses (q.statement value) e) ∨
      ∃ op, source.operations.getLast? = some op ∧ op.given q = none := by
  cases hlast : source.operations.getLast? with
  | none => exact .inl ⟨_, .alone q value (getLast?_operations_eq_none_iff.mp hlast)⟩
  | some op =>
    cases hgiven : op.given q with
    | none => exact .inr ⟨op, rfl, hgiven⟩
    | some old =>
      have hne : source.count ≠ 0 := by
        rw [Ne, ← getLast?_operations_eq_none_iff, hlast]
        exact Option.some_ne_none op
      have hcap := source.count_le_capacity
      have hposition : source.count = (UInt8.ofNat (source.count - 1)).toNat + 1 := by
        rw [toNat_ofNat_of_le (by omega)]
        omega
      exact .inl ⟨_, .twice q value hlast (by rw [hgiven]; rfl) hposition⟩

/-- **There is a rule for every statement**: what is not admitted is refused. -/
theorem admits_or_refuses (source : Source) (st : Statement) :
    source.Admits st ∨ ∃ e, source.Refuses st e := by
  have hcap := source.count_le_capacity
  -- in the order of the checks, so that each refusal may assume that those before it have passed
  cases st with
  | instruction i =>
    by_cases hin : i.InRange
    · by_cases hfull : source.count = capacity
      · exact .inr ⟨_, .full hin hfull⟩
      · exact .inl ⟨hin, by omega⟩
    · rw [Instruction.inRange_iff] at hin
      push Not at hin
      obtain ⟨m, hm, hout⟩ := hin
      exact .inr ⟨_, .immediate hm (by omega)⟩
  | label name =>
    cases ha : source.address name with
    | none => exact .inl ha
    | some first =>
      have hle := address_le_count ha
      refine .inr ⟨_, .label (UInt8.ofNat first) (UInt8.ofNat source.count) ?_ ?_⟩
      · rw [ha, toNat_ofNat_of_le (by omega)]
      · rw [toNat_ofNat_of_le hcap]
  | wrapTarget => exact .inl trivial
  | wrap =>
    by_cases hzero : source.count = 0
    · exact .inr ⟨_, .wrap hzero⟩
    · exact .inl hzero
  | sideSet width optional pindirs =>
    by_cases hfits : width.toNat ≤ if optional then 4 else 5
    · by_cases hfirst : ∀ st ∈ source.accepted, st.sideSet? = none
      · by_cases hzero : source.count = 0
        · exact .inl ⟨hfits, configured_accepted_eq_none_iff.mpr hfirst, hzero⟩
        · exact .inr ⟨_, .late hfits hfirst hzero⟩
      · push Not at hfirst
        obtain ⟨st, hst, hset⟩ := hfirst
        exact .inr ⟨_, .again hfits ⟨st, hst, Option.isSome_iff_ne_none.mpr hset⟩⟩
    · exact .inr ⟨_, .width (by omega)⟩
  | delay cycles =>
    rcases source.refuses_or_unused .delay cycles with hrefused | ⟨op, hlast, hunused⟩
    · exact .inr hrefused
    · by_cases hfits : source.sideSet.FitsDelay cycles.toNat
      · exact .inl ⟨op, hlast, hunused, hfits⟩
      · exact .inr ⟨_, .delay hlast hunused (Nat.le_of_not_lt hfits)⟩
  | side value =>
    rcases source.refuses_or_unused .side value with hrefused | ⟨op, hlast, hunused⟩
    · exact .inr hrefused
    · by_cases hoff : source.sideSet.width.toNat = 0
      · exact .inr ⟨_, .unconfigured hlast hunused hoff⟩
      · by_cases hfits : value.toNat < 2 ^ source.sideSet.width.toNat
        · exact .inl ⟨op, hlast, hunused, Nat.pos_of_ne_zero hoff, hfits⟩
        · exact .inr ⟨_, .value hlast hunused hoff (Nat.le_of_not_lt hfits)⟩

/-! ### What a session reports -/

theorem session_draft (source : Source) : source.session.draft = source.draft := rfl

/-- Without an instruction there is nothing to qualify. -/
theorem run_qualify_of_empty {source : Source} (h : source.count = 0) (q : Qualifier) (value : UInt8) :
    (Assembly.qualify q value).run source.session
      = .error (.rejected (.noInstruction q.name)) source.session := by
  have hlast := source.consistent_draft.last_eq
  rw [source.count_eq, if_pos h, Option.map_eq_none_iff] at hlast
  rw [Assembly.run_qualify, session_draft, hlast]

/-- A qualifier that the last instruction was given already is refused, with its address. -/
theorem run_qualify_of_given {source : Source} {op : Operation String}
    (h : source.operations.getLast? = some op) {q : Qualifier} (hgiven : (op.given q).isSome)
    {addr : Addr} (hposition : source.count = addr.toNat + 1) (value : UInt8) :
    (Assembly.qualify q value).run source.session
      = .error (.rejected (.duplicateQualifier q.name addr)) source.session := by
  obtain ⟨last, hlast, hfound⟩ := last_of_getLast? h
  have hsame : last = addr := by
    have htoNat := source.consistent_draft.toNat_last hlast
    rw [source.count_eq] at htoNat
    exact UInt8.toNat_inj.mp (by omega)
  rw [hsame] at hlast hfound
  rw [Assembly.run_qualify, session_draft, hlast]
  dsimp only
  rw [hfound]
  exact if_pos (by rw [Operation.has_slot, hgiven])

/-- Otherwise a qualifier fails as it does for the word of the last instruction. -/
theorem run_qualify_of_error {source : Source} {op : Operation String}
    (h : source.operations.getLast? = some op) {q : Qualifier} (hunused : op.given q = none)
    {value : UInt8} {failure : Failure}
    (happly : q.apply (op.slot source.sideSet).word value source.sideSet = .error failure) :
    (Assembly.qualify q value).run source.session = .error failure source.session := by
  obtain ⟨addr, hlast, hfound⟩ := last_of_getLast? h
  rw [Assembly.run_qualify, session_draft, hlast]
  dsimp only
  rw [hfound]
  dsimp only
  rw [Operation.has_slot, hunused, if_neg (by decide), source.effectiveSideSet_eq, happly]

/-- A session reports the refusal, whatever it keeps of the source. -/
theorem Refuses.run_eq {source : Source} {st : Statement} {e : Error} (h : source.Refuses st e) :
    st.run.run source.session = .error (.rejected e) source.session := by
  have hcount := source.count_eq
  have hset := source.reflects_draft.code.sideSet
  have hfit := source.sideSet_fits
  -- each rule is read off the source, and the draft that reflects it takes the same branch
  cases h with
  | immediate has outside =>
    rw [Statement.run, Assembly.run_instruction, Instruction.encode_of_outside has outside]
  | full inRange full =>
    rw [Statement.run, Assembly.run_instruction, Instruction.encode_eq_ok_iff.mpr ⟨inRange, rfl⟩,
      session_draft]
    exact if_pos (by omega)
  | @label name first second earlier now =>
    have hlookup : source.draft.labels.lookup name = some first := by
      rw [source.reflects_draft.marks.lookup name, earlier, Option.map_some, UInt8.ofNat_toNat]
    have hnext : source.draft.nextAddr = second := by
      rw [Draft.nextAddr, hcount, now, UInt8.ofNat_toNat]
    rw [Statement.run, Assembly.run_label, session_draft, Labels.define, hlookup, hnext]
  | wrap empty =>
    rw [Statement.run, Assembly.run_wrap, session_draft]
    exact if_pos (by omega)
  | @width width optional pindirs wide =>
    have hwide : ¬ SideSet.Fits ⟨width, optional, pindirs⟩ := Nat.not_le.mpr wide
    rw [Statement.run, Assembly.run_sideSet, SideSet.configure_eq, if_neg hwide]
    rfl
  | @again width optional pindirs fits earlier =>
    have hfits : SideSet.Fits ⟨width, optional, pindirs⟩ := fits
    have hisSome : source.draft.sideSet.isSome := by
      rw [hset, Statement.configured, List.findSome?_isSome_iff]
      exact earlier
    rw [Statement.run, Assembly.run_sideSet, SideSet.configure_eq, if_pos hfits, session_draft]
    exact if_pos hisSome
  | @late width optional pindirs fits first late =>
    have hfits : SideSet.Fits ⟨width, optional, pindirs⟩ := fits
    rw [Statement.run, Assembly.run_sideSet, SideSet.configure_eq, if_pos hfits, session_draft]
    dsimp only
    rw [hset, configured_accepted_eq_none_iff.mpr first, if_neg (by decide)]
    exact if_pos (by omega)
  | alone q value empty =>
    have hrun := run_qualify_of_empty empty q value
    cases q <;> exact hrun
  | twice q value last given position =>
    have hrun := run_qualify_of_given last given position value
    cases q <;> exact hrun
  | @delay cycles op last unused long =>
    refine run_qualify_of_error (q := .delay) last unused ?_
    show ((op.map fun _ => 0).word source.sideSet).withDelay cycles source.sideSet = _
    rw [Operation.withDelay_word hfit unused]
    exact if_neg (Nat.not_lt.mpr long)
  | @unconfigured value op last unused off =>
    have hvalid := valid_of_mem (List.mem_of_getLast? last)
    refine run_qualify_of_error (q := .side) last unused ?_
    show ((op.map fun _ => 0).word source.sideSet).withSide value source.sideSet = _
    rw [Operation.withSide_word hfit unused hvalid.delay]
    exact if_pos off
  | @value value op last unused on large =>
    have hvalid := valid_of_mem (List.mem_of_getLast? last)
    refine run_qualify_of_error (q := .side) last unused ?_
    show ((op.map fun _ => 0).word source.sideSet).withSide value source.sideSet = _
    rw [Operation.withSide_word hfit unused hvalid.delay, if_neg on]
    exact if_neg (Nat.not_lt.mpr large)

/-- The answer to a refused statement is the error that the rule gives. -/
theorem Refuses.attempt_eq {source : Source} {st : Statement} {e : Error} (h : source.Refuses st e) :
    (source.session.attempt st.run).1 = .error (.rejected e) := by
  rw [Session.attempt, h.run_eq]

theorem attempt_of_admits {source : Source} {st : Statement} (h : source.Admits st) :
    (source.session.attempt st.run).1 = .ok () :=
  Session.attempt_of_accepts (accepts_iff.mpr h)

/-! ### How many instructions there are -/

end Source

/-- Whether a statement is an instruction whose immediate is in range. -/
def Statement.isInRange : Statement → Bool
  | .instruction i => i.InRange
  | _ => false

namespace Source

/-- Of the instructions in range as many are accepted as the memory holds. -/
theorem count_eq_min (source : Source) :
    source.count = min capacity (source.countP Statement.isInRange) := by
  induction source using concat_induction with
  | nil => rfl
  | accepted source st ih hacc _ =>
    rw [count, accepted_of_accepts hacc, List.countP_append, List.countP_append, List.countP_singleton,
      List.countP_singleton]
    change source.count + _ = _
    cases st with
    | instruction i =>
      obtain ⟨hin, hfree⟩ := accepts_iff.mp hacc
      have hinstruction : (Statement.instruction i).isInstruction = true := rfl
      have hrange : (Statement.instruction i).isInRange = true := decide_eq_true hin
      rw [if_pos hinstruction, if_pos hrange]
      omega
    | _ => exact ih
  | refused source st ih hacc _ =>
    rw [count, accepted_of_refused hacc, List.countP_append, List.countP_singleton]
    change source.count = _
    by_cases hst : st.isInRange = true
    · -- an instruction in range is refused only by a full memory
      have hfull : capacity ≤ source.count := by
        cases st with
        | instruction i =>
          have hno : ¬ source.Admits (.instruction i) := by
            rw [← accepts_iff, hacc]
            decide
          exact Nat.le_of_not_lt fun hfree => hno ⟨of_decide_eq_true hst, hfree⟩
        | _ => cases hst
      rw [if_pos hst]
      omega
    · rw [if_neg hst]
      exact ih

/-- **The answer to every statement follows from the source before it**: it is refused exactly with the
error that the rules give, and accepted if they give none. So the number of instructions is that of the
instructions in range, up to the size of the memory. -/
theorem attempt_by_history (source : Source) (st : Statement) :
    (∀ e, (source.session.attempt st.run).1 = .error (.rejected e) ↔ source.Refuses st e) ∧
      ((source.session.attempt st.run).1 = .ok () ↔ ∀ e, ¬ source.Refuses st e) ∧
      source.draft.count = source.count ∧
      source.count = min capacity (source.countP Statement.isInRange) := by
  refine ⟨?_, ?_, source.count_eq, source.count_eq_min⟩
  · intro e
    refine ⟨fun h => ?_, Refuses.attempt_eq⟩
    rcases source.admits_or_refuses st with hadm | ⟨e', hrefused⟩
    · cases h.symm.trans (attempt_of_admits hadm)
    · cases h.symm.trans hrefused.attempt_eq
      exact hrefused
  · constructor
    · intro h e hrefused
      cases h.symm.trans hrefused.attempt_eq
    · intro hnone
      rcases source.admits_or_refuses st with hadm | ⟨e, hrefused⟩
      · exact attempt_of_admits hadm
      · exact absurd hrefused (hnone e)

-- a qualifier behind a refused instruction is meant for the one before
example :
    ((session [.instruction .nop, .delay 1, .instruction (.set .x 32)]).attempt
        (Statement.run (.delay 2))).1
      = .error (.rejected (.duplicateQualifier "delay" 0)) := by
  decide +kernel

end Source

end PioAssembler
