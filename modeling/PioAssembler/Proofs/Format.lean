import PioAssembler.Assembly.Draft
import PioAssembler.Proofs.SharedField

/-!
# The instruction format as numbers

The reference the assembler is measured against. `Coded.number` gives the numbers by which the format
selects operands, and `Instruction.fields` is its table: three numbers for each instruction, its jump
target being an address already. Neither mentions the encoder.
An `Operation` is an instruction with the qualifiers it was given, and `Operation.word` its word:

    opcode * 2 ^ 13 + pack * 2 ^ 8 + selector * 2 ^ 5 + low

(`Operation.toNat_word`). A word of a draft is made in steps. The lemmas below say that each step
keeps it the word of an operation:

* `Operation.encode_eq_ok_iff`: the word of an instruction without qualifiers, its target zero,
* `Operation.withDelay_word`, `Operation.withSide_word`: a qualifier is added,
* `Operation.withTarget_word`: the target is filled in at the end.
-/

namespace PioAssembler

/-! ### Numbers of operands -/

/-- Operands that are selected by number. -/
class Coded (α : Type) where
  number : α → Nat
  all : List α
  mem_all : ∀ a, a ∈ all := by intro a; cases a <;> decide
  number_inj : ∀ a b, number a = number b → a = b := by intro a b; cases a <;> cases b <;> decide

instance : Coded Condition where
  number
    | .always => 0 | .xZero => 1 | .xPostDecrement => 2 | .yZero => 3 | .yPostDecrement => 4
    | .xNotEqualY => 5 | .pin => 6 | .osrNotEmpty => 7
  all := [.always, .xZero, .xPostDecrement, .yZero, .yPostDecrement, .xNotEqualY, .pin, .osrNotEmpty]

instance : Coded WaitSource where
  number
    | .gpio => 0 | .pin => 1 | .irq => 2
  all := [.gpio, .pin, .irq]

instance : Coded InSource where
  number
    | .pins => 0 | .x => 1 | .y => 2 | .null => 3 | .isr => 6 | .osr => 7
  all := [.pins, .x, .y, .null, .isr, .osr]

instance : Coded OutDestination where
  number
    | .pins => 0 | .x => 1 | .y => 2 | .null => 3 | .pindirs => 4 | .pc => 5 | .isr => 6 | .exec => 7
  all := [.pins, .x, .y, .null, .pindirs, .pc, .isr, .exec]

instance : Coded MovDestination where
  number
    | .pins => 0 | .x => 1 | .y => 2 | .exec => 4 | .pc => 5 | .isr => 6 | .osr => 7
  all := [.pins, .x, .y, .exec, .pc, .isr, .osr]

instance : Coded MovSource where
  number
    | .pins => 0 | .x => 1 | .y => 2 | .null => 3 | .status => 5 | .isr => 6 | .osr => 7
  all := [.pins, .x, .y, .null, .status, .isr, .osr]

instance : Coded MovOperation where
  number
    | .none => 0 | .invert => 1 | .reverse => 2
  all := [.none, .invert, .reverse]

instance : Coded SetDestination where
  number
    | .pins => 0 | .x => 1 | .y => 2 | .pindirs => 4
  all := [.pins, .x, .y, .pindirs]

-- one bit says that the flag is cleared, the bit below that the state machine waits
instance : Coded IrqMode where
  number mode := 2 * (mode == .clear).toNat + (mode == .wait).toNat
  all := [.set, .wait, .clear]

/-! ### Instructions as numbers -/

/-- The fields of an instruction, the shared one apart. -/
structure Fields where
  opcode : Nat
  selector : Nat
  low : Nat
  deriving DecidableEq, Repr

namespace Instruction

variable {τ σ : Type}

/-- The instruction with another target for its jump. -/
def map (f : τ → σ) : Instruction τ → Instruction σ
  | .jmp condition target => .jmp condition (f target)
  | .wait polarity source index => .wait polarity source index
  | .shiftIn source bitCount => .shiftIn source bitCount
  | .shiftOut destination bitCount => .shiftOut destination bitCount
  | .push ifFull block => .push ifFull block
  | .pull ifEmpty block => .pull ifEmpty block
  | .mov destination operation source => .mov destination operation source
  | .irq mode index => .irq mode index
  | .set destination data => .set destination data

/-- The target of a jump. -/
def target? : Instruction τ → Option τ
  | .jmp _ target => some target
  | _ => none

/-- The numbers an instruction is written as. A bit count of 32 is written as zero. -/
def fields : Instruction Nat → Fields
  | .jmp condition target => ⟨0, Coded.number condition, target⟩
  | .wait polarity source index => ⟨1, 4 * polarity.toNat + Coded.number source, index.toNat⟩
  | .shiftIn source bitCount => ⟨2, Coded.number source, bitCount.toNat % 32⟩
  | .shiftOut destination bitCount => ⟨3, Coded.number destination, bitCount.toNat % 32⟩
  | .push ifFull block => ⟨4, 2 * ifFull.toNat + block.toNat, 0⟩
  | .pull ifEmpty block => ⟨4, 4 + 2 * ifEmpty.toNat + block.toNat, 0⟩
  | .mov destination operation source =>
      ⟨5, Coded.number destination, 8 * Coded.number operation + Coded.number source⟩
  | .irq mode index => ⟨6, Coded.number mode, index.toNat⟩
  | .set destination data => ⟨7, Coded.number destination, data.toNat⟩

/-- The immediate, if there is one, is inside its range. -/
def InRange : Instruction τ → Prop
  | .wait _ _ value | .irq _ value | .set _ value => value.toNat ≤ 31
  | .shiftIn _ bitCount | .shiftOut _ bitCount => 1 ≤ bitCount.toNat ∧ bitCount.toNat ≤ 32
  | .jmp .. | .push .. | .pull .. | .mov .. => True

instance : (i : Instruction τ) → Decidable i.InRange
  | .wait .. | .irq .. | .set .. => inferInstanceAs (Decidable (_ ≤ _))
  | .shiftIn .. | .shiftOut .. => inferInstanceAs (Decidable (_ ∧ _))
  | .jmp .. | .push .. | .pull .. | .mov .. => inferInstanceAs (Decidable True)

/-! ### Fields -/

@[simp] theorem inRange_map (f : τ → σ) (i : Instruction τ) : (i.map f).InRange ↔ i.InRange := by
  cases i <;> rfl

@[simp] theorem target?_map (f : τ → σ) (i : Instruction τ) :
    (i.map f).target? = i.target?.map f := by
  cases i <;> rfl

@[simp] theorem map_map {ρ : Type} (g : σ → ρ) (f : τ → σ) (i : Instruction τ) :
    (i.map f).map g = i.map (g ∘ f) := by
  cases i <;> rfl

@[simp] theorem map_id (i : Instruction τ) : i.map id = i := by
  cases i <;> rfl

/-- Only what becomes of its target matters to a jump, and to other instructions nothing does. -/
theorem map_congr {f g : τ → σ} {i : Instruction τ} (h : ∀ t ∈ i.target?, f t = g t) :
    i.map f = i.map g := by
  cases i with
  | jmp condition target => simp [map, h target rfl]
  | _ => rfl

@[simp] theorem opcode_map (f : τ → σ) (i : Instruction τ) : (i.map f).opcode = i.opcode := by
  cases i <;> rfl

@[simp] theorem selector_map (f : τ → σ) (i : Instruction τ) : (i.map f).selector = i.selector := by
  cases i <;> rfl

/-- The encoder writes every group by the number that the format gives it. -/
theorem fields_opcode (i : Instruction Nat) : i.fields.opcode = i.opcode.number.toNat := by
  cases i <;> rfl

/-- The encoder selects every operand by the number that the format gives it. -/
theorem fields_selector (i : Instruction Nat) : i.fields.selector = i.selector.toNat := by
  cases i with
  | jmp condition target => cases condition <;> rfl
  | wait polarity source index => cases polarity <;> cases source <;> rfl
  | shiftIn source bitCount => cases source <;> rfl
  | shiftOut destination bitCount => cases destination <;> rfl
  | push ifFull block => cases ifFull <;> cases block <;> rfl
  | pull ifEmpty block => cases ifEmpty <;> cases block <;> rfl
  | mov destination operation source => cases destination <;> rfl
  | irq mode index => cases mode <;> rfl
  | set destination data => cases destination <;> rfl

/-- The low field fits if the immediate does, or the target of the jump. -/
theorem fields_low_lt {i : Instruction Nat} (h : i.InRange) (ht : ∀ t ∈ i.target?, t < 32) :
    i.fields.low < 32 := by
  cases i with
  | jmp condition target => exact ht target rfl
  | wait polarity source index => exact Nat.lt_succ_of_le h
  | shiftIn source bitCount => exact Nat.mod_lt _ (by decide)
  | shiftOut destination bitCount => exact Nat.mod_lt _ (by decide)
  | push ifFull block => exact Nat.zero_lt_succ 31
  | pull ifEmpty block => exact Nat.zero_lt_succ 31
  | mov destination operation source =>
    have hop : Coded.number operation < 4 := by cases operation <;> decide
    have hsrc : Coded.number source < 8 := by cases source <;> decide
    simp only [fields]
    omega
  | irq mode index => exact Nat.lt_succ_of_le h
  | set destination data => exact Nat.lt_succ_of_le h

/-! ### Encoding -/

/-- An index is written as it is, if it has five bits. -/
theorem indexField_eq_ok_iff {what : String} {value : UInt8} {l : BitVec 5} :
    indexField what value = .ok l ↔ value.toNat ≤ 31 ∧ BitVec.ofNat 5 value.toNat = l := by
  by_cases h : value.toNat ≤ 31 <;>
    simp [indexField, checkRange, h, bind, Except.bind, pure, Except.pure]

/-- A number of bits is written modulo 32, if it is from 1 to 32. -/
theorem bitCountField_eq_ok_iff {value : UInt8} {l : BitVec 5} :
    bitCountField value = .ok l ↔
      (1 ≤ value.toNat ∧ value.toNat ≤ 32) ∧ BitVec.ofNat 5 (value.toNat % 32) = l := by
  have hmod : BitVec.ofNat 5 (value.toNat % 32) = BitVec.ofNat 5 value.toNat := by
    apply BitVec.eq_of_toNat_eq
    simp
  rw [hmod]
  by_cases h : 1 ≤ value.toNat ∧ value.toNat ≤ 32 <;>
    simp [bitCountField, checkRange, h, bind, Except.bind, pure, Except.pure]

/-- The low field of an instruction in range, a jump still without its target. -/
theorem low_eq_ok_iff {i : Instruction τ} {l : BitVec 5} :
    i.low = .ok l ↔ i.InRange ∧ BitVec.ofNat 5 (i.map fun _ => 0).fields.low = l := by
  cases i with
  | jmp condition target => simp [low, InRange, map, fields]
  | wait polarity source index => exact indexField_eq_ok_iff
  | shiftIn source bitCount => exact bitCountField_eq_ok_iff
  | shiftOut destination bitCount => exact bitCountField_eq_ok_iff
  | push ifFull block => simp [low, InRange, map, fields]
  | pull ifEmpty block => simp [low, InRange, map, fields]
  | mov destination operation source =>
    -- the operation is written above the source
    have happend : BitVec.ofNat 5 (8 * Coded.number operation + Coded.number source)
        = operation.code ++ source.code := by
      cases operation <;> cases source <;> rfl
    simp [low, InRange, map, fields, happend]
  | irq mode index => exact indexField_eq_ok_iff
  | set destination data => exact indexField_eq_ok_iff

/-- An instruction is encoded exactly if its immediate is in range, and then as its fields say. -/
theorem encode_eq_ok_iff {i : Instruction τ} {w : Word} :
    i.encode = .ok w ↔ i.InRange ∧
      .ofFields i.opcode.number 0 i.selector (BitVec.ofNat 5 (i.map fun _ => 0).fields.low) = w := by
  rw [encode]
  cases hl : i.low with
  | error e =>
    have hout : ¬ i.InRange := fun h => by
      rw [low_eq_ok_iff.mpr ⟨h, rfl⟩] at hl
      cases hl
    simp [hout, bind, Except.bind]
  | ok l =>
    obtain ⟨hin, rfl⟩ := low_eq_ok_iff.mp hl
    simp [hin, bind, Except.bind, pure, Except.pure]

end Instruction

/-! ### Operations -/

/-- An instruction with the qualifiers it was given. -/
structure Operation (τ : Type) where
  instruction : Instruction τ
  delay : Option UInt8 := none
  side : Option UInt8 := none
  deriving DecidableEq, Repr

namespace Operation

variable {τ σ : Type}

/-- The operation with another target for its jump. -/
def map (f : τ → σ) (op : Operation τ) : Operation σ := { op with instruction := op.instruction.map f }

/-- Number of idle cycles; none without a delay. -/
def cycles (op : Operation τ) : Nat := (op.delay.getD 0).toNat

/-- The side-set value, if there is one. -/
def value? (op : Operation τ) : Option Nat := op.side.map UInt8.toNat

/-- Immediate, delay and side-set value are in range. -/
structure Valid (ss : SideSet) (op : Operation τ) : Prop where
  inRange : op.instruction.InRange
  delay : ss.FitsDelay op.cycles
  side : ss.FitsSide op.value?

/-- The word of an operation whose jump knows its address. -/
def word (ss : SideSet) (op : Operation Nat) : Word :=
  .ofFields op.instruction.opcode.number (BitVec.ofNat 5 (ss.pack op.cycles op.value?))
    op.instruction.selector (BitVec.ofNat 5 op.instruction.fields.low)

/-- The slot of an operation in a draft: the target of a jump is zero until the end. -/
def slot (ss : SideSet) (op : Operation τ) : Slot where
  word := (op.map fun _ => 0).word ss
  delayed := op.delay.isSome
  sided := op.side.isSome

@[simp] theorem cycles_map (f : τ → σ) (op : Operation τ) : (op.map f).cycles = op.cycles := rfl

@[simp] theorem value?_map (f : τ → σ) (op : Operation τ) : (op.map f).value? = op.value? := rfl

theorem Valid.map {ss : SideSet} {op : Operation τ} (h : op.Valid ss) {f : τ → σ} :
    (op.map f).Valid ss :=
  ⟨(Instruction.inRange_map f _).mpr h.inRange, h.delay, h.side⟩

/-- **The word of an operation is the sum of its fields.** -/
theorem toNat_word {ss : SideSet} (hfit : ss.Fits) {op : Operation Nat} (hv : op.Valid ss)
    (ht : ∀ t ∈ op.instruction.target?, t < 32) :
    (op.word ss).toNat = op.instruction.fields.opcode * 2 ^ 13 + ss.pack op.cycles op.value? * 2 ^ 8
      + op.instruction.fields.selector * 2 ^ 5 + op.instruction.fields.low := by
  have hpack := SideSet.pack_lt hfit hv.delay hv.side
  have hlow := Instruction.fields_low_lt hv.inRange ht
  rw [word, Word.toNat_ofFields, BitVec.toNat_ofNat, BitVec.toNat_ofNat, Nat.mod_eq_of_lt hpack,
    Nat.mod_eq_of_lt hlow, Instruction.fields_opcode, Instruction.fields_selector]
  norm_num

theorem opcode_word (ss : SideSet) (op : Operation Nat) :
    Word.opcode (op.word ss) = op.instruction.opcode := Word.opcode_ofFields ..

/-- An instruction is encoded as the operation without qualifiers. -/
theorem encode_eq_ok_iff {i : Instruction τ} {w : Word} (ss : SideSet) :
    i.encode = .ok w ↔ i.InRange ∧ (Operation.map (fun _ => 0) ⟨i, none, none⟩).word ss = w := by
  rw [Instruction.encode_eq_ok_iff]
  simp [word, map, cycles, value?, SideSet.pack_none]

/-- Adding a delay gives the word of the operation with the delay, whether or not it has a side-set
value already. -/
theorem withDelay_word {ss : SideSet} (hfit : ss.Fits) {op : Operation Nat} (hnone : op.delay = none)
    (cycles : UInt8) :
    (op.word ss).withDelay cycles ss =
      if ss.FitsDelay cycles.toNat then .ok ({ op with delay := some cycles }.word ss)
      else .error (.rejected (.invalidOperand "delay" cycles.toNat 0 (2 ^ ss.room - 1))) := by
  rw [word, Word.withDelay_ofFields hfit]
  have hzero : op.cycles = 0 := by simp [Operation.cycles, hnone]
  split
  · next hd =>
    rw [hzero, SideSet.ofNat_pack_delay hfit hd]
    rfl
  · rfl

/-- Adding a side-set value gives the word of the operation with the value, whether or not it has a
delay already. -/
theorem withSide_word {ss : SideSet} (hfit : ss.Fits) {op : Operation Nat} (hnone : op.side = none)
    (hd : ss.FitsDelay op.cycles) (value : UInt8) :
    (op.word ss).withSide value ss =
      if ss.width.toNat = 0 then
        .error (.rejected (.misconfiguredSideSet "side value used without a side_set directive"))
      else if value.toNat < 2 ^ ss.width.toNat then .ok ({ op with side := some value }.word ss)
      else
        .error (.rejected
          (.invalidOperand "side-set value" value.toNat 0 (2 ^ ss.width.toNat - 1))) := by
  rw [word, Word.withSide_ofFields hfit]
  have hzero : op.value? = none := by simp [value?, hnone]
  split
  · rfl
  · next h0 =>
    split
    · rw [hzero, SideSet.ofNat_pack_side hfit (Nat.pos_of_ne_zero h0) hd]
      rfl
    · rfl

end Operation

/-- Filling in a target changes the low field alone. -/
theorem Word.withTarget_ofFields (g : BitVec 3) (s : BitVec 5) (c : BitVec 3) (l : BitVec 5)
    (target : Addr) :
    (ofFields g s c l).withTarget target = ofFields g s c (l ||| BitVec.ofNat 5 target.toNat) := by
  have hlow : BitVec.ofNat 16 (target.toNat % 32) = ofFields 0 0 0 (BitVec.ofNat 5 target.toNat) := by
    apply BitVec.eq_of_toNat_eq
    rw [toNat_ofFields, BitVec.toNat_ofNat, BitVec.toNat_ofNat]
    have hz3 : (0 : BitVec 3).toNat = 0 := rfl
    have hz5 : (0 : BitVec 5).toNat = 0 := rfl
    omega
  rw [withTarget, hlow, or_ofFields]
  simp

/-- Filling in the target of a jump gives the word of the jump to it. -/
theorem Operation.withTarget_word {τ : Type} (ss : SideSet) {op : Operation τ}
    (hjmp : op.instruction.target?.isSome) (target : Addr) :
    ((op.map fun _ => 0).word ss).withTarget target = (op.map fun _ => target.toNat).word ss := by
  obtain ⟨i, delay, side⟩ := op
  cases i with
  | jmp condition label =>
    rw [word, Word.withTarget_ofFields]
    simp [word, map, Instruction.map, Instruction.fields, cycles, value?, Instruction.opcode,
      Instruction.selector]
  | _ => cases hjmp

end PioAssembler
