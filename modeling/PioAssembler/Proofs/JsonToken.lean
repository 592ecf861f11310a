import Mathlib.Data.List.Basic
import Mathlib.Data.List.TakeWhile
import PioAssembler.Text.Json

/-!
# Tokens of JSON

A JSON text is a row of tokens with blanks between them. This file is about that half of the format:

* `Token.Spells`, `Spelled`: how a token, and how a row of tokens, may be written. A character of a
  string may stand for itself or be escaped, by a letter or by its code.
* `lex`: the tokens of a text.
* `lex_eq_some_iff`: a text is read as the tokens that it spells, so it spells at most one row of them.

Of JSON there is what `Value` has: `null`, signs, fractions and exponents are not read, nor is a
character written as two codes.
-/

namespace PioAssembler

namespace Json

/-- A token. -/
inductive Token where
  | openBracket | closeBracket | openBrace | closeBrace | colon | comma
  | number (n : Nat)
  | bool (b : Bool)
  | string (s : String)
  deriving DecidableEq, Repr

/-! ### How tokens are written -/

/-- A character that may stand between tokens. -/
def isBlank (c : Char) : Bool := c = ' ' || c = '\n' || c = '\t' || c = '\r'

/-- The letters that escape a character. -/
def letters : List (Char × Char) :=
  [('"', '"'), ('\\', '\\'), ('/', '/'), ('b', '\x08'), ('f', '\x0c'), ('n', '\n'), ('r', '\r'),
    ('t', '\t')]

/-- The value of a hexadecimal digit, in either case. -/
def hexDigit? (c : Char) : Option Nat := "0123456789abcdef".toList.idxOf? c.toLower

/-- The number that some hexadecimal digits write. -/
def hexNumber? (digits : List Char) : Option Nat :=
  digits.foldlM (fun n c => (hexDigit? c).map (16 * n + ·)) 0

/-- A character of a string, and a way to write it. -/
inductive SpellsChar : Char → List Char → Prop where
  | plain {c : Char} (quote : c ≠ '"') (backslash : c ≠ '\\') (control : 0x20 ≤ c.toNat) :
      SpellsChar c [c]
  | letter {l c : Char} (escapes : letters.lookup l = some c) : SpellsChar c ['\\', l]
  | code {c : Char} {digits : List Char} (four : digits.length = 4)
      (number : hexNumber? digits = some c.toNat) : SpellsChar c ('\\' :: 'u' :: digits)

/-- The characters of a string, each written in some way. -/
inductive SpellsChars : List Char → List Char → Prop where
  | nil : SpellsChars [] []
  | cons {c : Char} {cs piece text : List Char} (first : SpellsChar c piece)
      (rest : SpellsChars cs text) : SpellsChars (c :: cs) (piece ++ text)

/-- Digits of which the first is no zero, unless it is the only one. -/
structure IsNumeral (digits : List Char) : Prop where
  nonempty : digits ≠ []
  isDigit : ∀ c ∈ digits, c.isDigit = true
  no_zero : digits.head? = some '0' → digits = ['0']

instance (digits : List Char) : Decidable (IsNumeral digits) :=
  decidable_of_iff (digits ≠ [] ∧ digits.all Char.isDigit ∧ (digits.head? = some '0' → digits = ['0']))
    ⟨fun ⟨h₁, h₂, h₃⟩ => ⟨h₁, List.all_eq_true.mp h₂, h₃⟩,
      fun ⟨h₁, h₂, h₃⟩ => ⟨h₁, List.all_eq_true.mpr h₂, h₃⟩⟩

/-- The tokens of one character. -/
def marks : List (Char × Token) :=
  [('[', .openBracket), (']', .closeBracket), ('\x7b', .openBrace), ('\x7d', .closeBrace),
    (':', .colon), (',', .comma)]

/-- How truth values are written. -/
def literal : Bool → List Char
  | true => ['t', 'r', 'u', 'e']
  | false => ['f', 'a', 'l', 's', 'e']

/-- A token, and a way to write it. -/
inductive Token.Spells : Token → List Char → Prop where
  | mark {c : Char} {tok : Token} (is : marks.lookup c = some tok) : Spells tok [c]
  | number {digits : List Char} (numeral : IsNumeral digits) :
      Spells (.number (Nat.ofDigitChars 10 digits 0)) digits
  | bool (b : Bool) : Spells (.bool b) (literal b)
  | string {cs text : List Char} (chars : SpellsChars cs text) :
      Spells (.string (String.ofList cs)) ('"' :: (text ++ ['"']))

/-- Nothing that goes on with the digits of a number. -/
def NoDigit (text : List Char) : Prop := ∀ c, text.head? = some c → c.isDigit = false

/-- The token ends where the text begins: its digits do not go on. -/
def Token.Ends (tok : Token) (text : List Char) : Prop := ∀ n, tok = .number n → NoDigit text

/-- A row of tokens, and a way to write it. -/
inductive Spelled : List Token → List Char → Prop where
  | nil {blanks : List Char} (blank : ∀ c ∈ blanks, isBlank c = true) : Spelled [] blanks
  | cons {tok : Token} {toks : List Token} {blanks piece text : List Char}
      (blank : ∀ c ∈ blanks, isBlank c = true) (first : tok.Spells piece) (ends : tok.Ends text)
      (rest : Spelled toks text) : Spelled (tok :: toks) (blanks ++ piece ++ text)

/-! ### Characters of a string -/

/-- The character with the code that four digits write. -/
def readCode? : List Char → Option (Char × List Char)
  | a :: b :: c :: d :: rest =>
      match hexNumber? [a, b, c, d] with
      | none => none
      | some n => if (Char.ofNat n).toNat = n then some (Char.ofNat n, rest) else none
  | _ => none

/-- The character that an escape stands for, behind its backslash. -/
def readEscape? : List Char → Option (Char × List Char)
  | [] => none
  | l :: rest => if l = 'u' then readCode? rest else (letters.lookup l).map (·, rest)

/-- The first character of a string, and the text behind it. -/
def readChar? : List Char → Option (Char × List Char)
  | [] => none
  | c :: rest =>
      if c = '\\' then readEscape? rest
      else if c = '"' ∨ c.toNat < 0x20 then none
      else some (c, rest)

/-- A code is read off four digits that write the number of a character, and off nothing else. -/
theorem readCode?_eq_some_iff {text rest : List Char} {c : Char} :
    readCode? text = some (c, rest) ↔
      ∃ digits, digits.length = 4 ∧ hexNumber? digits = some c.toNat ∧ digits ++ rest = text := by
  constructor
  · intro h
    unfold readCode? at h
    split at h
    · next d₁ d₂ d₃ d₄ tail =>
      split at h
      · cases h
      · next n hn =>
        split at h
        · next hvalid =>
          cases h
          exact ⟨[d₁, d₂, d₃, d₄], rfl, by rw [hn, hvalid], rfl⟩
        · cases h
    · cases h
  · rintro ⟨digits, hfour, hnumber, rfl⟩
    match digits, hfour with
    | [d₁, d₂, d₃, d₄], _ => simp [readCode?, hnumber]

/-- A character is read off any of its spellings, and off nothing else. -/
theorem readChar?_eq_some_iff {text rest : List Char} {c : Char} :
    readChar? text = some (c, rest) ↔ ∃ piece, SpellsChar c piece ∧ piece ++ rest = text := by
  constructor
  · intro h
    unfold readChar? at h
    split at h
    · cases h
    · next first tail =>
      split at h
      · next hbackslash =>
        subst hbackslash
        unfold readEscape? at h
        split at h
        · cases h
        · next l tail' =>
          split at h
          · next hu =>
            subst hu
            obtain ⟨digits, hfour, hnumber, rfl⟩ := readCode?_eq_some_iff.mp h
            exact ⟨_, .code hfour hnumber, rfl⟩
          · obtain ⟨_, hl, heq⟩ := Option.map_eq_some_iff.mp h
            cases heq
            exact ⟨_, .letter hl, rfl⟩
      · next hbackslash =>
        split at h
        · cases h
        · next hplain =>
          cases h
          obtain ⟨hquote, hcontrol⟩ := not_or.mp hplain
          exact ⟨_, .plain hquote hbackslash (Nat.not_lt.mp hcontrol), rfl⟩
  · rintro ⟨piece, hpiece, rfl⟩
    cases hpiece with
    | plain quote backslash control =>
      show (if c = '\\' then _ else _) = _
      rw [if_neg backslash, if_neg (not_or.mpr ⟨quote, Nat.not_lt.mpr control⟩)]
      rfl
    | @letter l _ escapes =>
      -- the letters of the table do not include the one that announces a code
      have hu : l ≠ 'u' := by
        rintro rfl
        cases escapes
      show (if l = 'u' then _ else _) = _
      rw [if_neg hu, escapes]
      rfl
    | code four number => exact readCode?_eq_some_iff.mpr ⟨_, four, number, rfl⟩

theorem SpellsChar.ne_nil {c : Char} {piece : List Char} (h : SpellsChar c piece) : piece ≠ [] := by
  cases h <;> exact List.cons_ne_nil _ _

/-- A character that is read makes the text shorter. -/
theorem length_of_readChar? {text rest : List Char} {c : Char} (h : readChar? text = some (c, rest)) :
    rest.length < text.length := by
  obtain ⟨piece, hpiece, rfl⟩ := readChar?_eq_some_iff.mp h
  have hpos := List.length_pos_iff.mpr hpiece.ne_nil
  rw [List.length_append]
  omega

/-- The characters of a string up to the quote that ends it, and the text behind it. -/
def readChars? (text : List Char) : Option (List Char × List Char) :=
  if text.head? = some '"' then some ([], text.tail)
  else
    match _h : readChar? text with
    | none => none
    | some (c, rest) => (readChars? rest).map fun (cs, after) => (c :: cs, after)
termination_by text.length
decreasing_by exact length_of_readChar? _h

theorem readChars?_quote (rest : List Char) : readChars? ('"' :: rest) = some ([], rest) := by
  rw [readChars?]
  rfl

/-- In front of the quote that ends a string its characters are read one by one. -/
theorem readChars?_char {text rest : List Char} {c : Char} (h : readChar? text = some (c, rest)) :
    readChars? text = (readChars? rest).map fun (cs, after) => (c :: cs, after) := by
  have hquote : ¬ text.head? = some '"' := by
    intro hhead
    obtain ⟨tail, rfl⟩ := List.head?_eq_some_iff.mp hhead
    cases h
  rw [readChars?, if_neg hquote]
  split
  · next hnone =>
    rw [h] at hnone
    cases hnone
  · next hsome =>
    rw [h] at hsome
    cases hsome
    rfl

/-- The characters of a string are read off any of their spellings in front of a quote, and off nothing
else. -/
theorem readChars?_eq_some_iff {text rest cs : List Char} :
    readChars? text = some (cs, rest) ↔ ∃ piece, SpellsChars cs piece ∧ piece ++ '"' :: rest = text := by
  constructor
  · intro h
    -- along the reader: a quote ends the string, anything else has to begin with a character
    fun_induction readChars? text generalizing cs with
    | case1 text hquote =>
      obtain ⟨tail, rfl⟩ := List.head?_eq_some_iff.mp hquote
      cases h
      exact ⟨[], .nil, rfl⟩
    | case2 text hquote hnone => cases h
    | case3 text hquote c tail hread ih =>
      obtain ⟨⟨cs', after⟩, hcs', heq⟩ := Option.map_eq_some_iff.mp h
      cases heq
      obtain ⟨piece, hpiece, rfl⟩ := readChar?_eq_some_iff.mp hread
      obtain ⟨pieces, hpieces, rfl⟩ := ih hcs'
      exact ⟨piece ++ pieces, .cons hpiece hpieces, List.append_assoc ..⟩
  · rintro ⟨pieces, hpieces, rfl⟩
    induction hpieces with
    | nil => exact readChars?_quote rest
    | @cons c cs piece text hpiece _ ih =>
      have hread : readChar? (piece ++ text ++ '"' :: rest) = some (c, text ++ '"' :: rest) :=
        readChar?_eq_some_iff.mpr ⟨piece, hpiece, (List.append_assoc ..).symm⟩
      rw [readChars?_char hread, ih]
      rfl

/-! ### One token -/

/-- A number at the front of a text, with all its digits, and the text behind it. -/
def readNumber? (text : List Char) : Option (Token × List Char) :=
  if IsNumeral (text.takeWhile Char.isDigit) then
    some (.number (Nat.ofDigitChars 10 (text.takeWhile Char.isDigit) 0), text.dropWhile Char.isDigit)
  else none

/-- The token at the front of a text, and the text behind it. -/
def Token.read? : List Char → Option (Token × List Char)
  | [] => none
  | c :: rest =>
      if c.isDigit then readNumber? (c :: rest)
      else if c = '"' then (readChars? rest).map fun (cs, after) => (.string (String.ofList cs), after)
      else if c = 't' ∨ c = 'f' then
        ((literal (c = 't')).isPrefixOf? (c :: rest)).map (.bool (c = 't'), ·)
      else (marks.lookup c).map (·, rest)

theorem noDigit_dropWhile (text : List Char) : NoDigit (text.dropWhile Char.isDigit) := by
  intro c hc
  have hnot := List.head?_dropWhile_not Char.isDigit text
  rw [hc] at hnot
  simpa using hnot

theorem NoDigit.takeWhile {text : List Char} (h : NoDigit text) : text.takeWhile Char.isDigit = [] := by
  cases text with
  | nil => rfl
  | cons c rest => rw [List.takeWhile_cons_of_neg (by simpa using h c rfl)]

/-- A number is read off a numeral that is as long as it can be. -/
theorem readNumber?_eq_some_iff {text rest : List Char} {tok : Token} :
    readNumber? text = some (tok, rest) ↔
      ∃ digits, IsNumeral digits ∧ tok = .number (Nat.ofDigitChars 10 digits 0) ∧ NoDigit rest ∧
        digits ++ rest = text := by
  constructor
  · intro h
    unfold readNumber? at h
    split at h
    · next hnumeral =>
      cases h
      exact ⟨_, hnumeral, rfl, noDigit_dropWhile text, List.takeWhile_append_dropWhile⟩
    · cases h
  · rintro ⟨digits, hnumeral, rfl, hrest, rfl⟩
    -- the digits stop where the numeral does, since no digit follows it
    have htake : (digits ++ rest).takeWhile Char.isDigit = digits := by
      rw [List.takeWhile_append_of_pos hnumeral.isDigit, hrest.takeWhile, List.append_nil]
    have hdrop : (digits ++ rest).dropWhile Char.isDigit = rest := by
      have hall := (digits ++ rest).takeWhile_append_dropWhile (p := Char.isDigit)
      rw [htake] at hall
      exact List.append_cancel_left hall
    rw [readNumber?, htake, hdrop, if_pos hnumeral]

/-- The characters that are tokens begin nothing else. -/
theorem marks_first {c : Char} {tok : Token} (h : marks.lookup c = some tok) :
    c.isDigit = false ∧ c ≠ '"' ∧ c ≠ 't' ∧ c ≠ 'f' ∧ isBlank c = false ∧ ∀ n, tok ≠ .number n := by
  have hall : ∀ entry ∈ marks, entry.1.isDigit = false ∧ entry.1 ≠ '"' ∧ entry.1 ≠ 't' ∧
      entry.1 ≠ 'f' ∧ isBlank entry.1 = false ∧ ∀ n, entry.2 ≠ .number n := by
    simp [marks, isBlank]
  obtain ⟨before, behind, hmarks, -⟩ := List.lookup_eq_some_iff.mp h
  exact hall (c, tok) (by rw [hmarks]; simp)

/-- **A token is read off any of its spellings that ends where it should**, and off nothing else. -/
theorem Token.read?_eq_some_iff {text rest : List Char} {tok : Token} :
    Token.read? text = some (tok, rest) ↔
      ∃ piece, tok.Spells piece ∧ tok.Ends rest ∧ piece ++ rest = text := by
  constructor
  · intro h
    unfold Token.read? at h
    split at h
    · cases h
    · next c tail =>
      split at h
      · obtain ⟨digits, hnumeral, rfl, hrest, htext⟩ := readNumber?_eq_some_iff.mp h
        exact ⟨digits, .number hnumeral, fun _ _ => hrest, htext⟩
      · split at h
        · next hquote =>
          subst hquote
          obtain ⟨⟨cs, after⟩, hcs, heq⟩ := Option.map_eq_some_iff.mp h
          cases heq
          obtain ⟨piece, hpiece, rfl⟩ := readChars?_eq_some_iff.mp hcs
          exact ⟨_, .string hpiece, nofun, by simp⟩
        · split at h
          · obtain ⟨after, hafter, heq⟩ := Option.map_eq_some_iff.mp h
            cases heq
            exact ⟨_, .bool _, nofun, List.isPrefixOf?_eq_some_iff_append_eq.mp hafter⟩
          · obtain ⟨_, hmark, heq⟩ := Option.map_eq_some_iff.mp h
            cases heq
            obtain ⟨-, -, -, -, -, hnumber⟩ := marks_first hmark
            exact ⟨[c], .mark hmark, fun n hn => absurd hn (hnumber n), rfl⟩
  · rintro ⟨piece, hpiece, hends, rfl⟩
    -- the first character of a spelling leads to the branch that reads it
    cases hpiece with
    | @mark c _ is =>
      obtain ⟨hdigit, hquote, ht, hf, -⟩ := marks_first is
      show (if c.isDigit then _ else _) = _
      rw [if_neg (by simp [hdigit]), if_neg hquote, if_neg (not_or.mpr ⟨ht, hf⟩), is]
      rfl
    | number numeral =>
      have hread := readNumber?_eq_some_iff.mpr ⟨piece, numeral, rfl, hends _ rfl, rfl⟩
      cases piece with
      | nil => exact absurd rfl numeral.nonempty
      | cons c digits =>
        show (if c.isDigit then _ else _) = _
        rw [if_pos (numeral.isDigit c List.mem_cons_self)]
        exact hread
    | bool b => cases b <;> rfl
    | @string cs text chars =>
      have hread : readChars? (text ++ '"' :: rest) = some (cs, rest) :=
        readChars?_eq_some_iff.mpr ⟨text, chars, rfl⟩
      show (readChars? (text ++ ['"'] ++ rest)).map _ = _
      rw [List.append_assoc, List.singleton_append, hread]
      rfl

/-! ### Rows of tokens -/

/-- A token is not empty, and does not begin with a blank. -/
theorem Token.Spells.exists_cons {tok : Token} {piece : List Char} (h : tok.Spells piece) :
    ∃ c rest, piece = c :: rest ∧ isBlank c = false := by
  cases h with
  | @mark c _ is =>
    obtain ⟨-, -, -, -, hblank, -⟩ := marks_first is
    exact ⟨c, [], rfl, hblank⟩
  | number numeral =>
    cases piece with
    | nil => exact absurd rfl numeral.nonempty
    | cons c rest =>
      refine ⟨c, rest, rfl, ?_⟩
      have hdigit := numeral.isDigit c List.mem_cons_self
      rw [Bool.eq_false_iff]
      intro hblank
      simp only [isBlank, Bool.or_eq_true, decide_eq_true_eq] at hblank
      rcases hblank with ((rfl | rfl) | rfl) | rfl <;> cases hdigit
  | bool b => cases b <;> exact ⟨_, _, rfl, by decide⟩
  | string chars => exact ⟨_, _, rfl, by decide⟩

/-- A token that is read makes the text shorter. -/
theorem length_of_read? {text rest : List Char} {tok : Token}
    (h : Token.read? (text.dropWhile isBlank) = some (tok, rest)) : rest.length < text.length := by
  obtain ⟨piece, hpiece, -, htext⟩ := Token.read?_eq_some_iff.mp h
  obtain ⟨c, piece', rfl, -⟩ := hpiece.exists_cons
  have hlength := congrArg List.length htext
  have hdrop := (List.dropWhile_sublist isBlank (l := text)).length_le
  rw [List.length_append, List.length_cons] at hlength
  omega

/-- The tokens of a text: blanks are left out, and what is no token spoils the text. -/
def lex (text : List Char) : Option (List Token) :=
  if text.dropWhile isBlank = [] then some []
  else
    match _h : Token.read? (text.dropWhile isBlank) with
    | none => none
    | some (tok, rest) => (lex rest).map (tok :: ·)
termination_by text.length
decreasing_by exact length_of_read? _h

/-- Behind the blanks at the front of a text stands its first token. -/
theorem lex_token {text rest : List Char} {tok : Token}
    (h : Token.read? (text.dropWhile isBlank) = some (tok, rest)) :
    lex text = (lex rest).map (tok :: ·) := by
  have hne : ¬ text.dropWhile isBlank = [] := by
    intro hnil
    rw [hnil] at h
    cases h
  rw [lex, if_neg hne]
  split
  · next hnone =>
    rw [h] at hnone
    cases hnone
  · next hsome =>
    rw [h] at hsome
    cases hsome
    rfl

/-- **A text is read as the tokens that it spells**, and every other text is refused. -/
theorem lex_eq_some_iff {text : List Char} {toks : List Token} :
    lex text = some toks ↔ Spelled toks text := by
  constructor
  · intro h
    fun_induction lex text generalizing toks with
    | case1 text hnil =>
      cases h
      exact .nil (by simpa [List.dropWhile_eq_nil_iff] using hnil)
    | case2 text hnil hnone => cases h
    | case3 text hnil tok rest hread ih =>
      obtain ⟨toks', htoks', rfl⟩ := Option.map_eq_some_iff.mp h
      obtain ⟨piece, hpiece, hends, htext⟩ := Token.read?_eq_some_iff.mp hread
      have hblank : ∀ c ∈ text.takeWhile isBlank, isBlank c = true := fun _ => List.mem_takeWhile_imp
      have hspelled := Spelled.cons hblank hpiece hends (ih htoks')
      rwa [List.append_assoc, htext, List.takeWhile_append_dropWhile] at hspelled
  · intro h
    induction h with
    | nil blank =>
      rw [lex, if_pos (by simpa [List.dropWhile_eq_nil_iff] using blank)]
    | @cons tok toks blanks piece text blank first ends rest ih =>
      -- a token begins with no blank, so the blanks in front end where it begins
      obtain ⟨c, piece', rfl, hc⟩ := first.exists_cons
      have hdrop : (blanks ++ c :: piece' ++ text).dropWhile isBlank = c :: piece' ++ text := by
        rw [List.append_assoc, List.dropWhile_append_of_pos blank, List.cons_append,
          List.dropWhile_cons_of_neg (by simp [hc])]
      have hread :
          Token.read? ((blanks ++ c :: piece' ++ text).dropWhile isBlank) = some (tok, text) := by
        rw [hdrop]
        exact Token.read?_eq_some_iff.mpr ⟨_, first, ends, rfl⟩
      rw [lex_token hread, ih]
      rfl

end Json

end PioAssembler
