/-!
# Instruction words

An instruction is one word of 16 bits, made of four fields:

    15..13    12..8               7..5        4..0
    opcode    side-set | delay    selector    immediate, index or address

`Word.ofFields` puts the fields together; `Word.group`, `Word.shared`, `Word.selector` and
`Word.low` read them. As a number a word is the sum of its fields, each times the weight of its
lowest bit (`toNat_ofFields`), and it is determined by them (`ofFields_fields`).
-/

namespace PioAssembler

/-- The instruction group, named by the top three bits of a word. -/
inductive Opcode where
  | jmp | wait | shiftIn | shiftOut | pushPull | mov | irq | set
  deriving DecidableEq, Repr

namespace Opcode

/-- All groups, in the order of their numbers. -/
def all : List Opcode := [.jmp, .wait, .shiftIn, .shiftOut, .pushPull, .mov, .irq, .set]

/-- The number of a group, as the top three bits of a word hold it. -/
def number : Opcode → BitVec 3
  | .jmp => 0
  | .wait => 1
  | .shiftIn => 2
  | .shiftOut => 3
  | .pushPull => 4
  | .mov => 5
  | .irq => 6
  | .set => 7

/-- The group with the given number; every number names one. -/
def ofNumber (n : BitVec 3) : Opcode :=
  match n.toNat with
  | 0 => .jmp
  | 1 => .wait
  | 2 => .shiftIn
  | 3 => .shiftOut
  | 4 => .pushPull
  | 5 => .mov
  | 6 => .irq
  | _ => .set

/-- The word as listings spell it; `push` and `pull` share a group. -/
def mnemonic : Opcode → String
  | .jmp => "jmp"
  | .wait => "wait"
  | .shiftIn => "in"
  | .shiftOut => "out"
  | .pushPull => "push/pull"
  | .mov => "mov"
  | .irq => "irq"
  | .set => "set"

theorem ofNumber_number (op : Opcode) : ofNumber op.number = op := by
  cases op <;> rfl

theorem number_ofNumber (n : BitVec 3) : (ofNumber n).number = n := by
  revert n; decide

end Opcode

/-- An instruction word. -/
abbrev Word := BitVec 16

namespace Word

/-- The word with the given fields, from the top bits down. -/
def ofFields (group : BitVec 3) (shared : BitVec 5) (selector : BitVec 3) (low : BitVec 5) : Word :=
  group ++ shared ++ selector ++ low

/-- Bits 15 to 13. -/
def group (w : Word) : BitVec 3 := w.extractLsb' 13 3

/-- Bits 12 to 8, which the delay and the side-set value share. -/
def shared (w : Word) : BitVec 5 := w.extractLsb' 8 5

/-- Bits 7 to 5. -/
def selector (w : Word) : BitVec 3 := w.extractLsb' 5 3

/-- Bits 4 to 0. -/
def low (w : Word) : BitVec 5 := w.extractLsb' 0 5

/-- The group of a word. -/
def opcode (w : Word) : Opcode := .ofNumber (group w)

/-- The word in which only the bits of the group are set. -/
def ofOpcode (op : Opcode) : Word := ofFields op.number 0 0 0

/-- Fills a jump's address field: the target, cut to five bits, is OR-ed into the low field. -/
def withTarget (w : Word) (target : UInt8) : Word := w ||| BitVec.ofNat 16 (target.toNat % 32)

/-! ### Fields as numbers -/

theorem toNat_group (w : Word) : (group w).toNat = w.toNat / 8192 := by
  have := w.isLt
  simp only [group, BitVec.extractLsb'_toNat, Nat.shiftRight_eq_div_pow]
  omega

theorem toNat_shared (w : Word) : (shared w).toNat = w.toNat / 256 % 32 := by
  simp only [shared, BitVec.extractLsb'_toNat, Nat.shiftRight_eq_div_pow]

theorem toNat_selector (w : Word) : (selector w).toNat = w.toNat / 32 % 8 := by
  simp only [selector, BitVec.extractLsb'_toNat, Nat.shiftRight_eq_div_pow]

theorem toNat_low (w : Word) : (low w).toNat = w.toNat % 32 := by
  simp only [low, BitVec.extractLsb'_toNat, Nat.shiftRight_eq_div_pow, Nat.pow_zero, Nat.div_one]

/-- A word is the sum of its fields, each times the weight of its lowest bit. -/
theorem toNat_ofFields (g : BitVec 3) (s : BitVec 5) (c : BitVec 3) (l : BitVec 5) :
    (ofFields g s c l).toNat = g.toNat * 8192 + s.toNat * 256 + c.toNat * 32 + l.toNat := by
  rw [ofFields, BitVec.toNat_append, BitVec.toNat_append, BitVec.toNat_append,
    ← Nat.shiftLeft_add_eq_or_of_lt s.isLt, ← Nat.shiftLeft_add_eq_or_of_lt c.isLt,
    ← Nat.shiftLeft_add_eq_or_of_lt l.isLt]
  simp only [Nat.shiftLeft_eq]
  omega

/-! ### Fields of a word made of fields -/

@[simp] theorem group_ofFields (g : BitVec 3) (s : BitVec 5) (c : BitVec 3) (l : BitVec 5) :
    group (ofFields g s c l) = g := by
  have hs := s.isLt
  have hc := c.isLt
  have hl := l.isLt
  apply BitVec.eq_of_toNat_eq
  rw [toNat_group, toNat_ofFields]
  omega

@[simp] theorem shared_ofFields (g : BitVec 3) (s : BitVec 5) (c : BitVec 3) (l : BitVec 5) :
    shared (ofFields g s c l) = s := by
  have hs := s.isLt
  have hc := c.isLt
  have hl := l.isLt
  apply BitVec.eq_of_toNat_eq
  rw [toNat_shared, toNat_ofFields]
  omega

@[simp] theorem selector_ofFields (g : BitVec 3) (s : BitVec 5) (c : BitVec 3) (l : BitVec 5) :
    selector (ofFields g s c l) = c := by
  have hc := c.isLt
  have hl := l.isLt
  apply BitVec.eq_of_toNat_eq
  rw [toNat_selector, toNat_ofFields]
  omega

@[simp] theorem low_ofFields (g : BitVec 3) (s : BitVec 5) (c : BitVec 3) (l : BitVec 5) :
    low (ofFields g s c l) = l := by
  have hl := l.isLt
  apply BitVec.eq_of_toNat_eq
  rw [toNat_low, toNat_ofFields]
  omega

/-- A word is made of its own fields. -/
theorem ofFields_fields (w : Word) : ofFields (group w) (shared w) (selector w) (low w) = w := by
  apply BitVec.eq_of_toNat_eq
  rw [toNat_ofFields, toNat_group, toNat_shared, toNat_selector, toNat_low]
  omega

@[simp] theorem opcode_ofFields (op : Opcode) (s : BitVec 5) (c : BitVec 3) (l : BitVec 5) :
    opcode (ofFields op.number s c l) = op := by
  rw [opcode, group_ofFields, Opcode.ofNumber_number]

end Word

end PioAssembler
