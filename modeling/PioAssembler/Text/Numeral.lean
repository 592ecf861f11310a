import PioAssembler.Isa.Word

/-!
# Numerals

Decimal and hexadecimal text, and columns of a fixed width.
-/

namespace PioAssembler

/-- The decimal digits of a number, without leading zeros. -/
def decimal (n : Nat) : String := String.ofList (Nat.toDigits 10 n)

/-- Different numbers have different numerals. -/
theorem decimal_inj {m n : Nat} : decimal m = decimal n ↔ m = n := by
  refine ⟨fun h => ?_, congrArg decimal⟩
  -- the number can be read off its digits
  have hread := congrArg (fun s : String => Nat.ofDigitChars 10 s.toList 0) h
  simpa [decimal] using hread

/-- The last `digits` hexadecimal digits of a number, in lower case and with leading zeros. -/
def hexDigits : (digits n : Nat) → List Char
  | 0, _ => []
  | digits + 1, n => hexDigits digits (n / 16) ++ [Nat.digitChar (n % 16)]

/-- The four hexadecimal digits of a word. -/
def Word.hex (w : Word) : String := String.ofList (hexDigits 4 w.toNat)

/-- Moves a text to the right end of a column; a text that is too long is not cut. -/
def alignRight (width : Nat) (s : String) : String := String.ofList (s.toList.leftpad width ' ')

/-- Moves a text to the left end of a column; a text that is too long is not cut. -/
def alignLeft (width : Nat) (s : String) : String := String.ofList (s.toList.rightpad width ' ')

theorem length_hexDigits (digits n : Nat) : (hexDigits digits n).length = digits := by
  induction digits generalizing n with
  | zero => rfl
  | succ k ih => simp [hexDigits, ih]

end PioAssembler
