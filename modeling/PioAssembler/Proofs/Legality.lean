import PioAssembler.Proofs.Disassembly

/-!
# Legal words

`Word.Legal n ss w` says, in terms of the bits of the word, that it can stand in a program of `n` words
with the side-set configuration `ss`: no number in it is reserved, a jump stays inside the program, and
there is no side-set value under a clear enable bit.

The legal words are exactly those that can be read as an operation (`Word.legal_iff`).
-/

namespace PioAssembler

namespace Word

/-- No number of the word is reserved for its group, and a jump goes to one of `n` words. -/
def LegalFormat (n : Nat) (w : Word) : Prop :=
  match opcode w with
  | .jmp => (low w).toNat < n
  | .wait => (selector w).toNat % 4 ≠ 3
  | .shiftIn => (selector w).toNat ∉ [4, 5]
  | .shiftOut => True
  | .pushPull => (low w).toNat = 0
  | .mov => (selector w).toNat ≠ 3 ∧ (low w).toNat / 8 ≠ 3 ∧ (low w).toNat % 8 ≠ 4
  | .irq => (selector w).toNat ∈ [0, 1, 2]
  | .set => (selector w).toNat ∈ [0, 1, 2, 4]

/-- Where the side-set value is optional, the bits of the value are zero if bit 12 says that there is
none. -/
def LegalShared (ss : SideSet) (w : Word) : Prop :=
  ss.optional = true → 0 < ss.width.toNat → w.getLsbD 12 = false →
    w.extractLsb' (12 - ss.width.toNat) ss.width.toNat = 0

/-- The word can stand in a program of `n` words with the given side-set configuration. -/
structure Legal (n : Nat) (ss : SideSet) (w : Word) : Prop where
  format : LegalFormat n w
  shared : LegalShared ss w

/-! ### The format -/

theorem group_eq_number (w : Word) : group w = (opcode w).number := by
  rw [opcode, Opcode.number_ofNumber]

/-- An instruction without a target can be read as soon as its one operand can. -/
theorem exists_map_iff {α : Type} {operand : Option α} {make : α → Instruction Nat} {n : Nat}
    (hmake : ∀ a, (make a).target? = none) :
    (∃ i, operand.map make = some i ∧ ∀ t ∈ i.target?, t < n) ↔ operand.isSome := by
  cases operand with
  | none => simp
  | some a => simp [hmake a]

/-- No number is reserved exactly if an instruction can be read off the fields. -/
theorem legalFormat_iff {n : Nat} {w : Word} :
    LegalFormat n w ↔ ∃ i, w.fields.instruction? = some i ∧ ∀ t ∈ i.target?, t < n := by
  have hselector : (selector w).toNat < 8 := (selector w).isLt
  have hlow : (low w).toNat < 32 := (low w).isLt
  rw [Fields.instruction?, LegalFormat, fields, group_eq_number]
  -- the numbers are small, so which of them are reserved is decided by going through all of them
  generalize (selector w).toNat = selector at hselector
  generalize (low w).toNat = low at hlow
  cases opcode w with
  | jmp =>
    show low < n ↔ ∃ i : Instruction Nat,
      (Coded.ofNumber? Condition selector).map (fun c => .jmp c low) = some i ∧ ∀ t ∈ i.target?, t < n
    have hread : ∀ c < 8, (Coded.ofNumber? Condition c).isSome := by decide
    obtain ⟨condition, hcondition⟩ := Option.isSome_iff_exists.mp (hread selector hselector)
    simp [hcondition, Instruction.target?]
  | wait =>
    have hread : ∀ c < 4, (Coded.ofNumber? WaitSource c).isSome ↔ c ≠ 3 := by decide
    exact (hread _ (Nat.mod_lt _ (by decide))).symm.trans (exists_map_iff fun _ => rfl).symm
  | shiftIn =>
    have hread : ∀ c < 8, (Coded.ofNumber? InSource c).isSome ↔ c ∉ [4, 5] := by decide
    exact (hread _ hselector).symm.trans (exists_map_iff fun _ => rfl).symm
  | shiftOut =>
    have hread : ∀ c < 8, (Coded.ofNumber? OutDestination c).isSome ↔ True := by decide
    exact (hread _ hselector).symm.trans (exists_map_iff fun _ => rfl).symm
  | pushPull =>
    show low = 0 ↔ ∃ i : Instruction Nat, (if low ≠ 0 then none
      else if selector.testBit 2 then some (.pull (selector.testBit 1) (selector.testBit 0))
      else some (.push (selector.testBit 1) (selector.testBit 0))) = some i ∧ ∀ t ∈ i.target?, t < n
    by_cases hzero : low = 0
    · by_cases hpull : selector.testBit 2 <;> simp [hzero, hpull, Instruction.target?]
    · simp [hzero]
  | mov =>
    have hdestination : ∀ c < 8, (Coded.ofNumber? MovDestination c).isSome ↔ c ≠ 3 := by decide
    have hoperation : ∀ c < 4, (Coded.ofNumber? MovOperation c).isSome ↔ c ≠ 3 := by decide
    have hsource : ∀ c < 8, (Coded.ofNumber? MovSource c).isSome ↔ c ≠ 4 := by decide
    show selector ≠ 3 ∧ low / 8 ≠ 3 ∧ low % 8 ≠ 4 ↔ _
    rw [← hdestination _ hselector, ← hoperation _ (by omega), ← hsource _ (by omega)]
    simp only [Option.isSome_iff_exists]
    constructor
    · rintro ⟨⟨d, hd⟩, ⟨o, ho⟩, ⟨s, hs⟩⟩
      refine ⟨.mov d o s, ?_, by intro t ht; cases ht⟩
      show (Coded.ofNumber? _ selector).bind _ = _
      simp [hd, ho, hs]
    · rintro ⟨i, hi, -⟩
      obtain ⟨d, hd, hi⟩ := Option.bind_eq_some_iff.mp hi
      obtain ⟨o, ho, hi⟩ := Option.bind_eq_some_iff.mp hi
      obtain ⟨s, hs, -⟩ := Option.bind_eq_some_iff.mp hi
      exact ⟨⟨d, hd⟩, ⟨o, ho⟩, ⟨s, hs⟩⟩
  | irq =>
    have hread : ∀ c < 8, (Coded.ofNumber? IrqMode c).isSome ↔ c ∈ [0, 1, 2] := by decide
    exact (hread _ hselector).symm.trans (exists_map_iff fun _ => rfl).symm
  | set =>
    have hread : ∀ c < 8, (Coded.ofNumber? SetDestination c).isSome ↔ c ∈ [0, 1, 2, 4] := by decide
    exact (hread _ hselector).symm.trans (exists_map_iff fun _ => rfl).symm

/-! ### The shared field -/

/-- Bit 12 is the top bit of the shared field. -/
theorem getLsbD_twelve {w : Word} : w.getLsbD 12 = false ↔ (shared w).toNat < 16 := by
  rw [toNat_shared, BitVec.getLsbD, Nat.testBit_eq_decide_div_mod_eq, decide_eq_false_iff_not]
  omega

/-- The bits of the value are those of the shared field above the delay and below the enable bit. -/
theorem extractLsb'_value_eq_zero {w : Word} {width : Nat} (h : width ≤ 4) :
    w.extractLsb' (12 - width) width = 0 ↔ (shared w).toNat % 16 < 2 ^ (4 - width) := by
  rw [← BitVec.toNat_inj, BitVec.extractLsb'_toNat, Nat.shiftRight_eq_div_pow, toNat_shared]
  simp only [BitVec.ofNat_eq_ofNat, BitVec.toNat_ofNat, Nat.zero_mod]
  interval_cases width <;> omega

/-- The shared field is legal exactly if qualifiers can be read off it. -/
theorem legalShared_iff {ss : SideSet} (hfit : ss.Fits) {w : Word} :
    LegalShared ss w ↔ ∃ qualifiers, ss.unpack (shared w).toNat = some qualifiers := by
  rw [LegalShared, SideSet.unpack, getLsbD_twelve]
  by_cases h0 : ss.width.toNat = 0
  · simp [h0]
  · have hpos : 0 < ss.width.toNat := Nat.pos_of_ne_zero h0
    cases ho : ss.optional with
    | false => simp [h0]
    | true =>
      have h4 := hfit.width_le_of_optional ho
      have hroom : ss.room = 4 - ss.width.toNat := by rw [SideSet.room, if_neg h0, if_pos ho]
      rw [extractLsb'_value_eq_zero h4, hroom]
      -- from 16 on the enable bit is set
      by_cases h16 : 16 ≤ (shared w).toNat
      · simp [h0, h16]
      · have hlt : (shared w).toNat < 16 := by omega
        rw [Nat.mod_eq_of_lt hlt]
        by_cases hsmall : (shared w).toNat < 2 ^ (4 - ss.width.toNat)
        · simp [h0, h16, hsmall]
        · simp [h0, h16, hsmall, hpos, hlt]

/-- **A word is legal exactly if it can be read as an operation** whose target is inside the program. -/
theorem legal_iff {n : Nat} {ss : SideSet} (hfit : ss.Fits) {w : Word} :
    Legal n ss w ↔ ∃ op, Operation.ofWord? ss w = some op ∧ ∀ t ∈ op.instruction.target?, t < n := by
  constructor
  · rintro ⟨hformat, hshared⟩
    obtain ⟨i, hi, ht⟩ := legalFormat_iff.mp hformat
    obtain ⟨⟨delay, side⟩, hq⟩ := (legalShared_iff hfit).mp hshared
    refine ⟨⟨i, some (UInt8.ofNat delay), side.map UInt8.ofNat⟩, ?_, ht⟩
    rw [Operation.ofWord?, hi, hq]
    rfl
  · rintro ⟨op, hop, ht⟩
    obtain ⟨i, hi, hop⟩ := Option.bind_eq_some_iff.mp hop
    obtain ⟨qualifiers, hq, hop⟩ := Option.bind_eq_some_iff.mp hop
    obtain rfl := Option.some.inj hop
    exact ⟨legalFormat_iff.mpr ⟨i, hi, ht⟩, (legalShared_iff hfit).mpr ⟨qualifiers, hq⟩⟩

end Word

end PioAssembler
