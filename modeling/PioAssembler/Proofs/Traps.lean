import Mathlib.Tactic.IntervalCases
import PioAssembler.Proofs.Invariant
import PioAssembler.Proofs.Replay

/-!
# Where arithmetic traps

A configuration that was never checked may have any width, and the arithmetic of the shared field then has
steps without a result. This file says for which widths, and at which step:

* `Word.trapText?_withDelay`: a delay traps in every configuration that the directive refuses,
* `Word.trapText?_withSide`: a side-set value traps for widths that leave no place to shift it to.

An assembly only ever holds a configuration that was checked, and the last instruction of its draft is
there. So none of its steps traps (`Session.trapText?_attempt`), none of a whole run
(`Session.trapText?_answers`), and neither does building (`Session.trapText?_build`).
-/

namespace PioAssembler

variable {trap : Trap}

/-- The text of the trap that a computation ends in, if it ends in one. -/
def trapText? {α : Type} : Except Failure α → Option String
  | .error (.trapped trap) => some trap.message
  | .error (.rejected _) | .ok _ => none

/-- To know for each trap when it occurs is to know the text. -/
theorem trapText?_eq_map {α : Type} {result : Except Failure α} {at? : Option Trap}
    (h : ∀ trap, result = .error (.trapped trap) ↔ at? = some trap) :
    trapText? result = at?.map Trap.message := by
  cases at? with
  | some trap => rw [(h trap).mpr rfl]; rfl
  | none =>
    rcases result with failure | value
    · cases failure with
      | rejected e => rfl
      | trapped trap => cases (h trap).mp rfl
    · rfl

/-! ### Single steps -/

namespace Exact

/-- A difference traps exactly if it is negative. -/
theorem sub_eq_error_iff {a b : Nat} : sub a b = .error trap ↔ a < b ∧ trap = .subtract := by
  unfold sub
  split
  · next hle => simp [Nat.not_lt.mpr hle]
  · next hgt => simp [Nat.not_le.mp hgt, eq_comm]

theorem le_of_sub_eq_ok {a b n : Nat} (h : sub a b = .ok n) : n ≤ a := by
  unfold sub at h
  split at h
  · cases h
    exact Nat.sub_le a b
  · cases h

end Exact

namespace SideSet

variable {ss : SideSet}

/-- A number has a largest value of that many bits, as long as its power of two fits a word. -/
theorem largest_eq_of_lt {bits : Nat} (h : bits < 16) : largest bits = .ok ((2 ^ bits - 1) % 256) := by
  have hpower : ((1 : BitVec 16) <<< bits).toNat = 2 ^ bits := by
    have hfits : 2 ^ bits < 2 ^ 16 := Nat.pow_lt_pow_right (by decide) h
    rw [BitVec.toNat_shiftLeft, Nat.shiftLeft_eq]
    show 1 * 2 ^ bits % 2 ^ 16 = _
    rw [Nat.one_mul, Nat.mod_eq_of_lt hfits]
  have hpos := Nat.two_pow_pos bits
  unfold largest Exact.shiftLeft
  rw [if_pos h]
  show (do return (← Exact.sub ((1 : BitVec 16) <<< bits).toNat 1) % 256) = _
  rw [hpower, Exact.sub, if_pos (by omega)]
  rfl

/-- There is no largest number of sixteen bits and more: the shift traps. -/
theorem largest_eq_error_iff {bits : Nat} : largest bits = .error trap ↔ 16 ≤ bits ∧ trap = .shiftLeft := by
  rcases Nat.lt_or_ge bits 16 with hlt | hge
  · rw [largest_eq_of_lt hlt]
    simp [Nat.not_le.mpr hlt]
  · have hshift : largest bits = .error .shiftLeft := by
      unfold largest Exact.shiftLeft
      rw [if_neg (Nat.not_lt.mpr hge)]
      rfl
    rw [hshift]
    simp [hge, eq_comm]

/-! ### Delays -/

/-- A configuration that does not fit takes more than the shared bits, the enable bit included. -/
theorem not_fits_iff : ¬ ss.Fits ↔ 5 < ss.width.toNat + ss.optional.toNat ∧ ss.width.toNat ≠ 0 := by
  unfold Fits widthLimit sharedBits
  cases ss.optional <;> simp <;> omega

/-- The step at which a delay cannot be added. -/
def delayTrap? (ss : SideSet) : Option Trap :=
  if ss.Fits then none
  else if ss.width = 255 ∧ ss.optional = true then some .add
  else some .subtract

/-- The enable bit is counted for every side-set but an empty one. -/
theorem bits_eq_of_ne_zero (h : ss.width.toNat ≠ 0) :
    ss.bits = Exact.add 8 ss.width.toNat ss.optional.toNat := by
  have hwidth : ss.width ≠ 0 := fun hzero => h (by rw [hzero]; rfl)
  rw [bits, if_neg hwidth]

/-- Only the largest width has no successor. -/
theorem width_eq_max_iff :
    2 ^ 8 ≤ ss.width.toNat + ss.optional.toNat ↔ ss.width = 255 ∧ ss.optional = true := by
  have hwidth := ss.width.toNat_lt
  have hmax : ss.width = 255 ↔ ss.width.toNat = 255 := by rw [← UInt8.toNat_inj]; rfl
  rw [hmax]
  cases ss.optional <;> simp <;> omega

/-- The bits for a delay cannot be counted exactly in the configurations that do not fit. -/
theorem delayBits_eq_error_iff : ss.delayBits = .error trap ↔ ss.delayTrap? = some trap := by
  unfold delayTrap?
  by_cases hfit : ss.Fits
  · rw [if_pos hfit, hfit.delayBits_eq]
    simp
  · obtain ⟨hwide, hzero⟩ := not_fits_iff.mp hfit
    rw [if_neg hfit, delayBits, bits_eq_of_ne_zero hzero, Exact.add, Nat.one_shiftLeft]
    by_cases hmax : ss.width = 255 ∧ ss.optional = true
    · have hover := width_eq_max_iff.mpr hmax
      rw [if_pos hmax, if_neg (Nat.not_lt.mpr hover)]
      simp [bind, Except.bind]
    · have hfits := Nat.not_le.mp (mt width_eq_max_iff.mp hmax)
      rw [if_neg hmax, if_pos hfits]
      show Exact.sub 5 (ss.width.toNat + ss.optional.toNat) = _ ↔ _
      rw [Exact.sub_eq_error_iff]
      simp [hwide, eq_comm]

/-- Where the bits for a delay can be counted, there is a longest delay. -/
theorem maxDelay_eq_error_iff : ss.maxDelay = .error trap ↔ ss.delayBits = .error trap := by
  unfold maxDelay
  cases hbits : ss.delayBits with
  | error other => simp [bind, Except.bind]
  | ok bits =>
    have hle : bits ≤ 5 := by
      unfold delayBits at hbits
      cases htaken : ss.bits with
      | error other =>
        rw [htaken] at hbits
        cases hbits
      | ok taken =>
        rw [htaken] at hbits
        exact Exact.le_of_sub_eq_ok hbits
    show largest bits = _ ↔ _
    rw [largest_eq hle]
    simp

end SideSet

/-- A value that is out of range is an error of the program, not a trap. -/
theorem checkRange_bind_ne_trapped (what : String) (value min max : Nat) (w : Word) (trap : Trap) :
    ((checkRange what value min max).mapError Failure.rejected >>= fun _ => .ok w)
      ≠ .error (.trapped trap) := by
  unfold checkRange
  split <;> simp [bind, Except.bind]

namespace Word

variable {ss : SideSet} {w : Word}

/-- A delay traps at the same step in every word, however long it is. -/
theorem withDelay_eq_trapped_iff {cycles : UInt8} :
    w.withDelay cycles ss = .error (.trapped trap) ↔ ss.delayTrap? = some trap := by
  rw [← SideSet.delayBits_eq_error_iff, ← SideSet.maxDelay_eq_error_iff]
  unfold withDelay
  cases ss.maxDelay with
  | error other => simp [bind, Except.bind]
  | ok max =>
    refine iff_of_false ?_ (by simp)
    exact checkRange_bind_ne_trapped "delay" cycles.toNat 0 max _ trap

/-- **A delay traps exactly in the configurations that the directive refuses.** -/
theorem trapText?_withDelay (w : Word) (cycles : UInt8) (ss : SideSet) :
    trapText? (w.withDelay cycles ss) =
      match SideSet.configure ss.width ss.optional ss.pindirs with
      | .ok _ => none
      | .error _ =>
          if ss.width = 255 ∧ ss.optional = true then some "attempt to add with overflow"
          else some "attempt to subtract with overflow" := by
  rw [trapText?_eq_map fun _ => withDelay_eq_trapped_iff, SideSet.configure_eq]
  unfold SideSet.delayTrap?
  by_cases hfit : ss.Fits
  · rw [if_pos hfit, if_pos hfit]
    rfl
  · rw [if_neg hfit, if_neg hfit]
    dsimp only
    split <;> rfl

end Word

/-! ### Side-set values -/

namespace SideSet

/-- The number of places below which a side-set value is moved. -/
def sidePlaces (ss : SideSet) : Nat := if ss.optional then 12 else 13

/-- The step at which a side-set value cannot be added. -/
def sideTrap? (ss : SideSet) : Option Trap :=
  if 16 ≤ ss.width.toNat then some .shiftLeft
  else if ss.sidePlaces < ss.width.toNat then some .subtract
  else none

/-- The widths that can be shifted but leave no place to shift a value to. -/
theorem sidePlaces_lt_iff {ss : SideSet} (h : ss.width.toNat < 16) :
    ss.sidePlaces < ss.width.toNat ↔
      ss.width = 14 ∨ ss.width = 15 ∨ ss.width = 13 ∧ ss.optional = true := by
  have hwidth : ∀ n : UInt8, ss.width = n ↔ ss.width.toNat = n.toNat := fun n => UInt8.toNat_inj.symm
  rw [hwidth, hwidth, hwidth]
  unfold sidePlaces
  cases ss.optional <;> simp <;> omega

end SideSet

namespace Word

variable {ss : SideSet} {w : Word} {value : UInt8}

/-- Adding a side-set value, with the two kinds of configuration taken together. -/
theorem withSide_eq (h : ss.enabled = true) :
    w.withSide value ss = (do
      let max ← ss.maxValue.mapError .trapped
      (checkRange "side-set value" value.toNat 0 max).mapError .rejected
      let places ← (Exact.sub ss.sidePlaces ss.width.toNat).mapError .trapped
      return (if ss.optional then w ||| sideEnable else w) ||| BitVec.ofNat 16 value.toNat <<< places) := by
  unfold withSide SideSet.sidePlaces
  rw [h]
  cases ss.optional <;> rfl

/-- Of eight bits and more only the low byte is kept, which every value fits. -/
theorem checkRange_of_wide {bits : Nat} (hlow : 8 ≤ bits) (hhigh : bits < 16) (what : String)
    (value : UInt8) : checkRange what value.toNat 0 ((2 ^ bits - 1) % 256) = .ok () := by
  have hmax : (2 ^ bits - 1) % 256 = 255 := by interval_cases bits <;> rfl
  have hvalue := value.toNat_lt
  rw [checkRange, hmax, if_pos (by omega)]

/-- A side-set value traps at the same step in every word, however large it is: the widths that leave no
place to shift it to are those for which it is not looked at before. -/
theorem withSide_eq_trapped_iff :
    w.withSide value ss = .error (.trapped trap) ↔ ss.sideTrap? = some trap := by
  have hplaces : 12 ≤ ss.sidePlaces := by
    unfold SideSet.sidePlaces
    split <;> omega
  unfold SideSet.sideTrap?
  cases hon : ss.enabled with
  | false =>
    have hzero : ¬ 0 < ss.width.toNat := by
      rw [← SideSet.enabled_iff, hon]
      decide
    rw [if_neg (by omega), if_neg (by omega)]
    simp [withSide, hon, bind, Except.bind, throw, throwThe, MonadExceptOf.throw]
  | true =>
    rw [withSide_eq hon]
    rcases Nat.lt_or_ge ss.width.toNat 16 with hlt | hge
    · have hmax : ss.maxValue = .ok ((2 ^ ss.width.toNat - 1) % 256) := SideSet.largest_eq_of_lt hlt
      rw [if_neg (Nat.not_le.mpr hlt), hmax]
      by_cases hlate : ss.sidePlaces < ss.width.toNat
      · have hsub : Exact.sub ss.sidePlaces ss.width.toNat = .error .subtract :=
          Exact.sub_eq_error_iff.mpr ⟨hlate, rfl⟩
        -- the value is checked first, but at such a width the check cannot fail
        simp [hlate, checkRange_of_wide (by omega) hlt, hsub, bind, Except.bind]
      · have hsub : Exact.sub ss.sidePlaces ss.width.toNat = .ok (ss.sidePlaces - ss.width.toNat) :=
          if_pos (Nat.le_of_not_lt hlate)
        rw [if_neg hlate, hsub]
        refine iff_of_false ?_ (by simp)
        exact checkRange_bind_ne_trapped "side-set value" value.toNat 0 _ _ trap
    · have hmax : ss.maxValue = .error .shiftLeft := SideSet.largest_eq_error_iff.mpr ⟨hge, rfl⟩
      rw [if_pos hge, hmax]
      simp [bind, Except.bind]

/-- **A side-set value traps exactly in configurations of these widths.** -/
theorem trapText?_withSide (w : Word) (value : UInt8) (ss : SideSet) :
    trapText? (w.withSide value ss) =
      if 16 ≤ ss.width then some "attempt to shift left with overflow"
      else if ss.width = 14 ∨ ss.width = 15 ∨ ss.width = 13 ∧ ss.optional = true then
        some "attempt to subtract with overflow"
      else none := by
  have hwide : 16 ≤ ss.width ↔ 16 ≤ ss.width.toNat := UInt8.le_iff_toNat_le
  rw [trapText?_eq_map fun _ => withSide_eq_trapped_iff]
  unfold SideSet.sideTrap?
  rcases Nat.lt_or_ge ss.width.toNat 16 with hlt | hge
  · simp only [hwide, Nat.not_le.mpr hlt, if_false, SideSet.sidePlaces_lt_iff hlt]
    split <;> rfl
  · rw [if_pos hge, if_pos (hwide.mpr hge)]
    rfl

end Word

/-! ### Assemblies -/

namespace SideSet.Fits

variable {ss : SideSet}

theorem delayTrap?_eq (h : ss.Fits) : ss.delayTrap? = none := if_pos h

theorem sideTrap?_eq (h : ss.Fits) : ss.sideTrap? = none := by
  have hwidth := h.width_le
  unfold sideTrap? sidePlaces
  rw [if_neg (by omega), if_neg]
  split <;> omega

end SideSet.Fits

/-- In a configuration that fits no qualifier traps. -/
theorem Qualifier.trapText?_apply {ss : SideSet} (h : ss.Fits) (q : Qualifier) (w : Word) (value : UInt8) :
    trapText? (q.apply w value ss) = none := by
  cases q with
  | delay =>
    rw [apply, trapText?_eq_map fun _ => Word.withDelay_eq_trapped_iff, h.delayTrap?_eq]
    rfl
  | side =>
    rw [apply, trapText?_eq_map fun _ => Word.withSide_eq_trapped_iff, h.sideTrap?_eq]
    rfl

namespace Session

variable {s : Session}

/-- Every statement keeps the invariant, accepted or refused. -/
theorem consistent_attempt (h : s.draft.Consistent) (st : Statement) :
    (s.attempt st.run).2.draft.Consistent := by
  unfold attempt
  rcases st.run_cases s with ⟨failure, hrun, -⟩ | ⟨s', hrun, hstep⟩
  · rw [hrun]
    exact h
  · rw [hrun]
    exact h.step hstep

/-- An attempt traps where the run of its step does. -/
theorem trapText?_attempt_eq_none_iff {α : Type} {step : Assembly α} :
    trapText? (s.attempt step).1 = none ↔ ∀ trap s', step.run s ≠ .error (.trapped trap) s' := by
  unfold attempt
  cases step.run s with
  | ok a s' => simp [trapText?]
  | error failure s' => cases failure <;> simp [trapText?]

/-- The instruction that a qualifier is added to is there, and its configuration was checked. -/
theorem trapText?_qualify (h : s.draft.Consistent) (q : Qualifier) (value : UInt8) :
    trapText? (s.attempt (Assembly.qualify q value)).1 = none := by
  rw [trapText?_attempt_eq_none_iff, Assembly.run_qualify]
  intro trap s'
  cases hlast : s.draft.last with
  | none => simp
  | some addr =>
    -- the address of the last instruction lies inside the draft, so the look-up finds it
    have hposition := h.toNat_last hlast
    rw [Draft.count] at hposition
    dsimp only
    rw [List.getElem?_eq_getElem (by omega)]
    dsimp only
    split
    · simp
    · have hword := q.trapText?_apply h.effectiveSideSet_fits s.draft.slots[addr.toNat].word value
      cases happly : q.apply s.draft.slots[addr.toNat].word value s.draft.effectiveSideSet with
      | ok word => simp
      | error failure =>
        rw [happly] at hword
        rintro ⟨rfl, rfl⟩
        cases hword

/-- **No step of an assembly traps**, whatever the statement. -/
theorem trapText?_attempt (h : s.draft.Consistent) (st : Statement) :
    trapText? (s.attempt st.run).1 = none := by
  -- only the qualifiers do arithmetic; every other statement can at most be rejected
  cases st with
  | instruction i =>
    rw [trapText?_attempt_eq_none_iff, Statement.run, Assembly.run_instruction]
    intro trap s'
    cases i.encode with
    | error e => simp
    | ok word =>
      dsimp only
      split <;> simp
  | label name =>
    rw [trapText?_attempt_eq_none_iff, Statement.run, Assembly.run_label]
    intro trap s'
    cases s.draft.labels.define name s.draft.nextAddr <;> simp
  | wrapTarget => rfl
  | wrap =>
    rw [trapText?_attempt_eq_none_iff, Statement.run, Assembly.run_wrap]
    intro trap s'
    split <;> simp
  | sideSet width optional pindirs =>
    rw [trapText?_attempt_eq_none_iff, Statement.run, Assembly.run_sideSet]
    intro trap s'
    cases SideSet.configure width optional pindirs with
    | error e => simp
    | ok ss =>
      dsimp only
      split
      · simp
      · split <;> simp
  | delay cycles => exact trapText?_qualify h .delay cycles
  | side value => exact trapText?_qualify h .side value

/-- **No statement of a run traps**, also behind statements that failed. -/
theorem trapText?_answers (h : s.draft.Consistent) (source : List Statement) :
    ∀ answer ∈ s.answers source, trapText? answer = none := by
  induction source generalizing s with
  | nil =>
    intro answer hanswer
    cases hanswer
  | cons st rest ih =>
    intro answer hanswer
    rcases List.mem_cons.mp hanswer with rfl | hrest
    · exact trapText?_attempt h st
    · exact ih (consistent_attempt h st) answer hrest

/-- **Building does not trap**: a draft without instructions is refused before its last one is looked for. -/
theorem trapText?_build (s : Session) : trapText? (s.attempt Assembly.build).1 = none := by
  rw [trapText?_attempt_eq_none_iff, Assembly.run_build]
  intro trap s'
  split
  · simp
  · cases s.draft.firstUnsided? with
    | some addr => simp
    | none =>
      dsimp only
      cases (s.draft.labels.resolve s.draft.words).check with
      | error e => simp
      | ok u =>
        dsimp only
        split <;> simp

end Session

/-- The group of a word is found in the table of all groups. -/
theorem Word.getElem?_all_opcodes (w : Word) : Opcode.all[w.toNat / 2 ^ 13]? = some w.opcode := by
  have htable : ∀ n : BitVec 3, Opcode.all[n.toNat]? = some (Opcode.ofNumber n) := by decide
  have hgroup := htable w.group
  rw [w.toNat_group] at hgroup
  exact hgroup

namespace Source

/-- **Only a configuration that was never checked can trap.** With one, a delay traps exactly if the
directive refuses it, and a side-set value exactly from a width of 13 or 14 on, whatever the word and the
number. No source leads there: its configuration is one that the directive has accepted, none of its
statements traps, and neither does building; the group of a word has its entry in the table. -/
theorem traps_only_unchecked (source : Source) (ss : SideSet) (w : Word) (cycles value : UInt8) :
    trapText? (w.withDelay cycles ss) =
        (match SideSet.configure ss.width ss.optional ss.pindirs with
        | .ok _ => none
        | .error _ =>
            if ss.width = 255 ∧ ss.optional = true then some "attempt to add with overflow"
            else some "attempt to subtract with overflow") ∧
      trapText? (w.withSide value ss) =
        (if 16 ≤ ss.width then some "attempt to shift left with overflow"
        else if ss.width = 14 ∨ ss.width = 15 ∨ ss.width = 13 ∧ ss.optional = true then
          some "attempt to subtract with overflow"
        else none) ∧
      (∀ held ∈ source.draft.sideSet,
        SideSet.configure held.width held.optional held.pindirs = .ok held) ∧
      (∀ answer ∈ source.answers, trapText? answer = none) ∧
      trapText? source.build = none ∧
      Opcode.all[w.toNat / 2 ^ 13]? = some w.opcode := by
  refine ⟨w.trapText?_withDelay cycles ss, w.trapText?_withSide value ss, ?_,
    Session.trapText?_answers .empty source, source.session.trapText?_build, w.getElem?_all_opcodes⟩
  intro held hheld
  have hfit := source.consistent_draft.sideSet_fits held hheld
  rw [SideSet.configure_eq, if_pos hfit]

-- the directive takes no width of 13; such a configuration, made without it, traps for both qualifiers
example :
    trapText? (Word.withDelay 0 0 ⟨13, true, false⟩) = some "attempt to subtract with overflow" ∧
      trapText? (Word.withSide 0 0 ⟨13, true, false⟩) = some "attempt to subtract with overflow" ∧
      trapText? (Word.withSide 0 0 ⟨13, false, false⟩) = none := by decide

end Source

end PioAssembler
