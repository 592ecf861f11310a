import PioAssembler.Proofs.Format

/-!
# Reading words back

`Operation.ofWord?` takes a word apart: it reads the instruction off the three fields of its format
(`Fields.instruction?`), and delay and side-set value off the shared one. It gives nothing for a word
with a reserved number in it.

* `Fields.instruction?_eq_some_iff`: an instruction is read exactly off the fields it is written as.
* `Operation.ofWord?_eq_some_iff`: an operation is read exactly off its own word, so that no two of
  them share a word.
-/

namespace PioAssembler

/-! ### Operands -/

/-- The operand with the given number; nothing for a reserved one. -/
def Coded.ofNumber? (α : Type) [Coded α] (n : Nat) : Option α :=
  (Coded.all : List α).find? fun a => Coded.number a = n

/-- An operand is found by its own number, and by no other. -/
theorem Coded.ofNumber?_eq_some_iff {α : Type} [Coded α] {n : Nat} {a : α} :
    ofNumber? α n = some a ↔ number a = n := by
  constructor
  · intro h
    simpa using List.find?_some h
  · rintro rfl
    cases hfind : ofNumber? α (number a) with
    | none => exact absurd (List.find?_eq_none.mp hfind a (mem_all a)) (by simp)
    | some b =>
      have hb : number b = number a := by simpa using List.find?_some hfind
      rw [number_inj b a hb]

/-- Every operand is read off its own number. -/
@[simp] theorem Coded.ofNumber?_number {α : Type} [Coded α] (a : α) :
    ofNumber? α (number a) = some a :=
  ofNumber?_eq_some_iff.mpr rfl

/-! ### Instructions -/

/-- The number of bits to shift that a low field stands for. -/
def bitCountOf (low : Nat) : UInt8 := if low = 0 then 32 else UInt8.ofNat low

/-- The instruction with the given fields, unless a number among them is reserved. -/
def Fields.instruction? (f : Fields) : Option (Instruction Nat) :=
  match f.opcode with
  | 0 => (Coded.ofNumber? _ f.selector).map fun condition => .jmp condition f.low
  | 1 => (Coded.ofNumber? _ (f.selector % 4)).map fun source =>
      .wait (f.selector.testBit 2) source (UInt8.ofNat f.low)
  | 2 => (Coded.ofNumber? _ f.selector).map fun source => .shiftIn source (bitCountOf f.low)
  | 3 => (Coded.ofNumber? _ f.selector).map fun destination =>
      .shiftOut destination (bitCountOf f.low)
  | 4 =>
      if f.low ≠ 0 then none
      else if f.selector.testBit 2 then some (.pull (f.selector.testBit 1) (f.selector.testBit 0))
      else some (.push (f.selector.testBit 1) (f.selector.testBit 0))
  | 5 => do
      let destination ← Coded.ofNumber? _ f.selector
      let operation ← Coded.ofNumber? _ (f.low / 8)
      let source ← Coded.ofNumber? _ (f.low % 8)
      some (.mov destination operation source)
  | 6 => (Coded.ofNumber? _ f.selector).map fun mode => .irq mode (UInt8.ofNat f.low)
  | 7 => (Coded.ofNumber? _ f.selector).map fun destination => .set destination (UInt8.ofNat f.low)
  | _ => none

/-- A number of bits is read off the field it is written as, 32 included. -/
theorem bitCountOf_mod {n : UInt8} (h : 1 ≤ n.toNat ∧ n.toNat ≤ 32) :
    bitCountOf (n.toNat % 32) = n := by
  rw [bitCountOf, ← UInt8.toNat_inj]
  by_cases h32 : n.toNat = 32
  · rw [if_pos (by omega), h32]
    rfl
  · rw [if_neg (by omega), Nat.mod_eq_of_lt (by omega), UInt8.ofNat_toNat]

/-- What is read off a field is a number of bits in range that is written as this field. -/
theorem bitCountOf_spec {low : Nat} (h : low < 32) :
    (1 ≤ (bitCountOf low).toNat ∧ (bitCountOf low).toNat ≤ 32) ∧
      (bitCountOf low).toNat % 32 = low := by
  rw [bitCountOf]
  by_cases h0 : low = 0
  · subst h0
    decide
  · have hlow : (UInt8.ofNat low).toNat = low := UInt8.toNat_ofNat_of_lt (by change low < 256; omega)
    rw [if_neg h0, hlow]
    omega

/-- Every instruction is read off its own fields. -/
theorem Instruction.instruction?_fields {i : Instruction Nat} (h : i.InRange) :
    i.fields.instruction? = some i := by
  cases i with
  | jmp condition target => simp [fields, Fields.instruction?]
  | wait polarity source index =>
    have hmod : (4 * polarity.toNat + Coded.number source) % 4 = Coded.number source := by
      have : Coded.number source < 4 := by cases source <;> decide
      omega
    have hpolarity : (4 * polarity.toNat + Coded.number source).testBit 2 = polarity := by
      cases polarity <;> cases source <;> rfl
    simp [fields, Fields.instruction?, hmod, hpolarity]
  | shiftIn source bitCount =>
    simp [fields, Fields.instruction?, bitCountOf_mod h]
  | shiftOut destination bitCount =>
    simp [fields, Fields.instruction?, bitCountOf_mod h]
  -- two flags, so four words each
  | push ifFull block => cases ifFull <;> cases block <;> rfl
  | pull ifEmpty block => cases ifEmpty <;> cases block <;> rfl
  | mov destination operation source =>
    have hlt : Coded.number source < 8 := by cases source <;> decide
    have hdiv : (8 * Coded.number operation + Coded.number source) / 8 = Coded.number operation := by omega
    have hmod : (8 * Coded.number operation + Coded.number source) % 8 = Coded.number source := by omega
    simp [fields, Fields.instruction?, hdiv, hmod]
  | irq mode index => simp [fields, Fields.instruction?]
  | set destination data => simp [fields, Fields.instruction?]

/-- What is read off some fields is an instruction that is written as them. -/
theorem Fields.fields_of_instruction? {f : Fields} (hselector : f.selector < 8) (hlow : f.low < 32)
    {i : Instruction Nat} (h : f.instruction? = some i) : i.InRange ∧ i.fields = f := by
  obtain ⟨opcode, selector, low⟩ := f
  dsimp only at hselector hlow
  have hbyte : (UInt8.ofNat low).toNat = low := UInt8.toNat_ofNat_of_lt (by change low < 256; omega)
  obtain ⟨hcount, hmod⟩ := bitCountOf_spec hlow
  unfold instruction? at h
  dsimp only at h
  split at h
  · -- a jump
    obtain ⟨condition, hnum, rfl⟩ := Option.map_eq_some_iff.mp h
    obtain rfl := Coded.ofNumber?_eq_some_iff.mp hnum
    exact ⟨trivial, rfl⟩
  · -- the top bit of the selector of a `wait` is its polarity
    obtain ⟨source, hnum, rfl⟩ := Option.map_eq_some_iff.mp h
    have hsource : Coded.number source = selector % 4 := Coded.ofNumber?_eq_some_iff.mp hnum
    refine ⟨by rw [Instruction.InRange, hbyte]; omega, ?_⟩
    rw [Instruction.fields, hsource, hbyte]
    interval_cases selector <;> rfl
  · obtain ⟨source, hnum, rfl⟩ := Option.map_eq_some_iff.mp h
    obtain rfl := Coded.ofNumber?_eq_some_iff.mp hnum
    exact ⟨hcount, by rw [Instruction.fields, hmod]⟩
  · obtain ⟨destination, hnum, rfl⟩ := Option.map_eq_some_iff.mp h
    obtain rfl := Coded.ofNumber?_eq_some_iff.mp hnum
    exact ⟨hcount, by rw [Instruction.fields, hmod]⟩
  · -- `push` and `pull` differ in the top bit of the selector
    split at h
    · cases h
    · next hzero =>
      obtain rfl : low = 0 := not_not.mp hzero
      split at h
      · next hpull =>
        obtain rfl := Option.some.inj h
        refine ⟨trivial, ?_⟩
        rw [Instruction.fields]
        interval_cases selector <;> first | rfl | cases hpull
      · next hpush =>
        obtain rfl := Option.some.inj h
        refine ⟨trivial, ?_⟩
        rw [Instruction.fields]
        interval_cases selector <;> first | rfl | exact absurd rfl hpush
  · -- the low field of a `mov` holds two operands
    obtain ⟨destination, hnum₁, h⟩ := Option.bind_eq_some_iff.mp h
    obtain ⟨operation, hnum₂, h⟩ := Option.bind_eq_some_iff.mp h
    obtain ⟨source, hnum₃, h⟩ := Option.bind_eq_some_iff.mp h
    obtain rfl := Option.some.inj h
    obtain rfl := Coded.ofNumber?_eq_some_iff.mp hnum₁
    have hoperation : Coded.number operation = low / 8 := Coded.ofNumber?_eq_some_iff.mp hnum₂
    have hsource : Coded.number source = low % 8 := Coded.ofNumber?_eq_some_iff.mp hnum₃
    refine ⟨trivial, ?_⟩
    rw [Instruction.fields, hoperation, hsource, Nat.div_add_mod]
  · obtain ⟨mode, hnum, rfl⟩ := Option.map_eq_some_iff.mp h
    obtain rfl := Coded.ofNumber?_eq_some_iff.mp hnum
    refine ⟨by rw [Instruction.InRange, hbyte]; omega, ?_⟩
    rw [Instruction.fields, hbyte]
  · obtain ⟨destination, hnum, rfl⟩ := Option.map_eq_some_iff.mp h
    obtain rfl := Coded.ofNumber?_eq_some_iff.mp hnum
    refine ⟨by rw [Instruction.InRange, hbyte]; omega, ?_⟩
    rw [Instruction.fields, hbyte]
  · cases h

/-- **An instruction is read exactly off the fields it is written as.** -/
theorem Fields.instruction?_eq_some_iff {f : Fields} (hselector : f.selector < 8) (hlow : f.low < 32)
    {i : Instruction Nat} : f.instruction? = some i ↔ i.InRange ∧ i.fields = f := by
  constructor
  · exact fields_of_instruction? hselector hlow
  · rintro ⟨hin, rfl⟩
    exact Instruction.instruction?_fields hin

theorem Instruction.target_eq_low {i : Instruction Nat} {t : Nat} (h : t ∈ i.target?) :
    t = i.fields.low := by
  cases i with
  | jmp condition target => exact (Option.some.inj h).symm
  | _ => cases h

/-! ### Operations -/

/-- The fields of a word, the shared one apart. -/
def Word.fields (w : Word) : Fields := ⟨(group w).toNat, (selector w).toNat, (low w).toNat⟩

namespace Operation

/-- The operation of a word. The delay is always written out, since a missing one and a delay of zero
have the same word. -/
def ofWord? (ss : SideSet) (w : Word) : Option (Operation Nat) := do
  let instruction ← w.fields.instruction?
  let (delay, side) ← ss.unpack (Word.shared w).toNat
  some ⟨instruction, some (UInt8.ofNat delay), side.map UInt8.ofNat⟩

/-- The operation with its delay written out. -/
def explicit {τ : Type} (op : Operation τ) : Operation τ := { op with delay := some (op.delay.getD 0) }

theorem explicit_of_isSome {τ : Type} {op : Operation τ} (h : op.delay.isSome) : op.explicit = op := by
  obtain ⟨instruction, delay, side⟩ := op
  obtain ⟨cycles, rfl⟩ := Option.isSome_iff_exists.mp h
  rfl

/-- The operation can stand in a program: it is in range, its target is an address, and the side-set
value is there if it has to be. -/
structure Placeable (ss : SideSet) (op : Operation Nat) : Prop extends op.Valid ss where
  target : ∀ t ∈ op.instruction.target?, t < 32
  sided : op.side = none → ss.MayOmit

/-- The fields of the word of an operation are those of its instruction. -/
theorem fields_word {ss : SideSet} {op : Operation Nat} (h : op.Placeable ss) :
    Word.fields (op.word ss) = op.instruction.fields := by
  have hlow := Instruction.fields_low_lt h.inRange h.target
  rw [Word.fields, word, Word.group_ofFields, Word.selector_ofFields, Word.low_ofFields,
    BitVec.toNat_ofNat, Nat.mod_eq_of_lt hlow, ← Instruction.fields_opcode,
    ← Instruction.fields_selector]

/-- The shared field of the word of an operation holds its qualifiers. -/
theorem shared_word {ss : SideSet} (hfit : ss.Fits) {op : Operation Nat} (h : op.Valid ss) :
    (Word.shared (op.word ss)).toNat = ss.pack op.cycles op.value? := by
  rw [word, Word.shared_ofFields, BitVec.toNat_ofNat]
  exact Nat.mod_eq_of_lt (SideSet.pack_lt hfit h.delay h.side)

/-- The four numbers of an operation are those of its word only. -/
theorem word_eq_of_fields {ss : SideSet} {op : Operation Nat} {w : Word}
    (hfields : op.instruction.fields = Word.fields w)
    (hpack : ss.pack op.cycles op.value? = (Word.shared w).toNat) : op.word ss = w := by
  have hopcode : op.instruction.opcode.number = Word.group w := by
    rw [← BitVec.toNat_inj, ← Instruction.fields_opcode, hfields]
    rfl
  have hselector : op.instruction.selector = Word.selector w := by
    rw [← BitVec.toNat_inj, ← Instruction.fields_selector, hfields]
    rfl
  have hlow : BitVec.ofNat 5 op.instruction.fields.low = Word.low w := by
    rw [hfields]
    exact BitVec.ofNat_toNat _ _
  rw [word, hopcode, hselector, hlow, hpack, BitVec.ofNat_toNat]
  exact Word.ofFields_fields w

/-- Every operation is read off its own word. -/
theorem ofWord?_word {ss : SideSet} (hfit : ss.Fits) {op : Operation Nat} (h : op.Placeable ss) :
    ofWord? ss (op.word ss) = some op.explicit := by
  have hunpack : ss.unpack (Word.shared (op.word ss)).toNat = some (op.cycles, op.value?) := by
    rw [SideSet.unpack_eq_some_iff hfit (Word.shared (op.word ss)).isLt, shared_word hfit h.toValid]
    refine ⟨rfl, h.delay, h.side, ?_⟩
    intro hnone
    exact h.sided (Option.map_eq_none_iff.mp hnone)
  rw [ofWord?, fields_word h, Instruction.instruction?_fields h.inRange, hunpack]
  simp [explicit, cycles, value?, Function.comp_def]

/-- What is read off a word is an operation with that word. -/
theorem placeable_of_ofWord? {ss : SideSet} (hfit : ss.Fits) {w : Word} {op : Operation Nat}
    (h : ofWord? ss w = some op) : op.Placeable ss ∧ op.word ss = w := by
  obtain ⟨i, hi, h⟩ := Option.bind_eq_some_iff.mp h
  obtain ⟨⟨delay, side⟩, hunpack, h⟩ := Option.bind_eq_some_iff.mp h
  obtain rfl := Option.some.inj h
  have hsel : w.fields.selector < 8 := (Word.selector w).isLt
  have hlow : w.fields.low < 32 := (Word.low w).isLt
  obtain ⟨hin, hfields⟩ := Fields.fields_of_instruction? hsel hlow hi
  obtain ⟨hpack, hdelay, hside, hsided⟩ :=
    (SideSet.unpack_eq_some_iff hfit (Word.shared w).isLt).mp hunpack
  -- both qualifiers fit a byte, so nothing is cut off
  have hcycles : (UInt8.ofNat delay).toNat = delay := by
    have hroom : 2 ^ ss.room ≤ 2 ^ 5 := Nat.pow_le_pow_right (by decide) ss.room_le
    exact UInt8.toNat_ofNat_of_lt (by change delay < 256; omega)
  have hvalue : (side.map UInt8.ofNat).map UInt8.toNat = side := by
    cases side with
    | none => rfl
    | some value =>
      have hlt := (hside value rfl).2
      have hwidth : 2 ^ ss.width.toNat ≤ 2 ^ 5 := Nat.pow_le_pow_right (by decide) hfit.width_le
      exact congrArg some (UInt8.toNat_ofNat_of_lt (by change value < 256; omega))
  refine ⟨⟨⟨hin, ?_, ?_⟩, ?_, ?_⟩, word_eq_of_fields hfields ?_⟩
  · show (UInt8.ofNat delay).toNat < 2 ^ ss.room
    rw [hcycles]
    exact hdelay
  · rw [value?, hvalue]
    exact hside
  · intro t ht
    rw [Instruction.target_eq_low ht, hfields]
    exact hlow
  · intro hnone
    exact hsided (Option.map_eq_none_iff.mp hnone)
  · rw [← hpack, cycles, value?, hvalue, Option.getD_some, hcycles]

/-- **An operation with its delay written out is read exactly off its own word.** -/
theorem ofWord?_eq_some_iff {ss : SideSet} (hfit : ss.Fits) {w : Word} {op : Operation Nat} :
    ofWord? ss w = some op ↔ op.Placeable ss ∧ op.delay.isSome ∧ op.word ss = w := by
  constructor
  · intro h
    obtain ⟨hplace, hword⟩ := placeable_of_ofWord? hfit h
    refine ⟨hplace, ?_, hword⟩
    rw [← hword, ofWord?_word hfit hplace] at h
    rw [← Option.some.inj h]
    rfl
  · rintro ⟨hplace, hdelay, rfl⟩
    rw [ofWord?_word hfit hplace, explicit_of_isSome hdelay]

end Operation

end PioAssembler
