import Mathlib.Data.List.Forall2
import Mathlib.Tactic.SplitIfs
import PioAssembler.Program.Image
import PioAssembler.Proofs.Image
import PioAssembler.Proofs.JsonReader
import PioAssembler.Proofs.Symbols

/-!
# JSON loses nothing

* `Json.Value.document_pretty`: the text of a value is a JSON document of that value.
* `Program.named?_toNamedJson`: a program and its name can be read off the JSON value, provided that no
  two of its labels have the same name.
* `Source.renderJson_lossless`: both, for the bytes of a program that was built.
-/

namespace PioAssembler

namespace Json

/-! ### Strings and numbers -/

/-- Escaped or not, every character is written as one that reads as itself. -/
theorem spellsChar_escape (c : Char) : SpellsChar c (escape c) := by
  have hcode : ∀ n < 0x20, hexNumber? ['0', '0', Nat.digitChar (n / 16), Nat.digitChar (n % 16)]
      = some n := by decide
  unfold escape
  split_ifs with hquote hbackslash _ _ _ _ _ hcontrol
  -- seven characters have a letter
  iterate 7
    · subst_vars
      exact .letter rfl
  · exact .code rfl (hcode c.toNat hcontrol)
  · exact .plain hquote hbackslash (Nat.not_lt.mp hcontrol)

/-- A string is written character by character. -/
theorem spellsChars_flatMap (cs : List Char) : SpellsChars cs (cs.flatMap escape) := by
  induction cs with
  | nil => exact .nil
  | cons c cs ih =>
    rw [List.flatMap_cons]
    exact .cons (spellsChar_escape c) ih

theorem spells_quote (s : String) : (Token.string s).Spells (quote s) := by
  have hspells := Token.Spells.string (spellsChars_flatMap s.toList)
  rwa [String.ofList_toList] at hspells

/-- Numerals have no leading zeros. -/
theorem isNumeral_toDigits (n : Nat) : IsNumeral (Nat.toDigits 10 n) where
  nonempty := Nat.toDigits_ne_nil
  isDigit _ := Nat.isDigit_of_mem_toDigits (by decide) (by decide)
  no_zero := by
    induction n using Nat.strongRecOn with
    | ind n ih =>
      intro hhead
      rcases Nat.lt_or_ge n 10 with hlt | hge
      · rw [Nat.toDigits_of_lt_base hlt] at hhead ⊢
        rw [Option.some.inj hhead]
      · rw [Nat.toDigits_of_base_le (by decide) hge, List.head?_append_of_ne_nil _ Nat.toDigits_ne_nil]
          at hhead
        -- what stands before the last digit would be a numeral that begins with zero
        have hzero : n / 10 = 0 := calc
          n / 10 = Nat.ofDigitChars 10 (Nat.toDigits 10 (n / 10)) 0 := Nat.ofDigitChars_ten_toDigits.symm
          _ = Nat.ofDigitChars 10 ['0'] 0 := by rw [ih (n / 10) (by omega) hhead]
        omega

/-- A decimal numeral spells its token. -/
theorem spells_toDigits (n : Nat) : (Token.number n).Spells (Nat.toDigits 10 n) := by
  have hspells := Token.Spells.number (isNumeral_toDigits n)
  rwa [Nat.ofDigitChars_ten_toDigits] at hspells

/-! ### Pieces of a document -/

theorem NoDigit.nil : NoDigit [] := nofun

theorem NoDigit.cons {c : Char} (h : c.isDigit = false) (text : List Char) : NoDigit (c :: text) := by
  rintro _ ⟨⟩
  exact h

/-- Blanks in front of a text change nothing. -/
theorem Spelled.blanks {toks : List Token} {blanks text : List Char}
    (hblank : ∀ c ∈ blanks, isBlank c = true) (h : Spelled toks text) :
    Spelled toks (blanks ++ text) := by
  cases h with
  | nil blank =>
    exact .nil (List.forall_mem_append.mpr ⟨hblank, blank⟩)
  | cons blank first ends rest =>
    rw [← List.append_assoc, ← List.append_assoc]
    exact .cons (List.forall_mem_append.mpr ⟨hblank, blank⟩) first ends rest

theorem Spelled.newline {toks : List Token} {text : List Char} (depth : Nat) (h : Spelled toks text) :
    Spelled toks (newline depth ++ text) := by
  refine h.blanks ?_
  intro c hc
  rcases List.mem_cons.mp hc with rfl | hspace
  · rfl
  · rw [List.eq_of_mem_replicate hspace]
    rfl

/-- A token in front of a text, without blanks between them. -/
theorem Spelled.token {tok : Token} {toks : List Token} {piece text : List Char}
    (h : tok.Spells piece) (ends : tok.Ends text) (rest : Spelled toks text) :
    Spelled (tok :: toks) (piece ++ text) := by
  have hspelled : Spelled (tok :: toks) ([] ++ piece ++ text) := .cons nofun h ends rest
  exact hspelled

/-- A mark in front of a text ends where it stands. -/
theorem Spelled.mark {c : Char} {tok : Token} {toks : List Token} {text : List Char}
    (h : marks.lookup c = some tok) (rest : Spelled toks text) : Spelled (tok :: toks) (c :: text) := by
  obtain ⟨-, -, -, -, -, hnumber⟩ := marks_first h
  exact .token (.mark h) (fun n hn => absurd hn (hnumber n)) rest

/-- The text writes the tokens in front of anything that does not go on with a digit. -/
def Writes (toks : List Token) (text : List Char) : Prop :=
  ∀ ⦃toks' rest⦄, NoDigit rest → Spelled toks' rest → Spelled (toks ++ toks') (text ++ rest)

theorem writes_token {tok : Token} {piece : List Char} (h : tok.Spells piece) : Writes [tok] piece :=
  fun _ _ hrest => .token h fun _ _ => hrest

/-- A field is written as its key, a colon and its value. -/
theorem writes_field {key : String} {toks : List Token} {text : List Char} (h : Writes toks text) :
    Writes (.string key :: .colon :: toks) (quote key ++ [':', ' '] ++ text) := by
  intro toks' rest hrest hspelled
  rw [List.append_assoc, List.append_assoc]
  have hblank : ∀ c ∈ [' '], isBlank c = true := List.forall_mem_singleton.mpr rfl
  exact .token (spells_quote key) nofun (.mark rfl (.blanks hblank (h hrest hspelled)))

/-- What is written piece by piece is written with commas between the pieces, wherever the lines
end. -/
theorem writes_intercalate {rows : List (List Token)} {texts : List (List Char)}
    (h : List.Forall₂ Writes rows texts) (depth : Nat) :
    Writes ([.comma].intercalate rows) ((',' :: newline depth).intercalate texts) := by
  induction h with
  | nil => exact fun _ _ _ => id
  | @cons row text rows texts hfirst hrest ih =>
    cases hrest with
    | nil => simpa using hfirst
    | cons hsecond hrest =>
      intro toks' rest hnodigit hspelled
      rw [List.intercalate_cons_cons, List.intercalate_cons_cons, List.append_assoc, List.append_assoc,
        List.append_assoc, List.append_assoc]
      exact hfirst (.cons rfl _) (.mark rfl ((ih hnodigit hspelled).newline depth))

/-- What is written piece by piece is written between brackets, on one line if there is no piece. -/
theorem writes_enclose {opening closing : Char} {first last : Token} {rows : List (List Token)}
    {texts : List (List Char)} (hfirst : marks.lookup opening = some first)
    (hlast : marks.lookup closing = some last) (h : List.Forall₂ Writes rows texts) (depth : Nat) :
    Writes (first :: [.comma].intercalate rows ++ [last]) (enclose opening closing depth texts) := by
  intro toks' rest hrest hspelled
  have hclosed : Spelled (last :: toks') (closing :: rest) := .mark hlast hspelled
  cases h with
  | nil => exact .mark hfirst hclosed
  | cons hhead htail =>
    rw [enclose, if_neg (by simp), List.append_assoc, List.append_assoc, List.append_assoc,
      List.append_assoc, List.cons_append]
    have hrows := writes_intercalate (.cons hhead htail) (depth + 1)
    exact .mark hfirst (.newline _ (hrows (.cons rfl _) (hclosed.newline depth)))

theorem prettyItems_eq_map (depth : Nat) (items : List Value) :
    prettyItems depth items = items.map (Value.pretty depth) := by
  induction items with
  | nil => rfl
  | cons v rest ih => rw [prettyItems, ih, List.map_cons]

theorem prettyFields_eq_map (depth : Nat) (fields : List (String × Value)) :
    prettyFields depth fields = fields.map (prettyField depth) := by
  induction fields with
  | nil => rfl
  | cons field rest ih => rw [prettyFields, ih, List.map_cons]

/-- A value is written by its text, at any depth. -/
theorem Value.writes_pretty (v : Value) (depth : Nat) : Writes v.tokens (v.pretty depth) := by
  induction v generalizing depth with
  | number n =>
    rw [tokens, pretty]
    exact writes_token (spells_toDigits n)
  | bool b =>
    rw [tokens, pretty]
    exact writes_token (by cases b <;> exact .bool _)
  | string s =>
    rw [tokens, pretty]
    exact writes_token (spells_quote s)
  | array items ih =>
    -- what is inside is written one level deeper, so the depth is not fixed in the induction
    rw [tokens, pretty, itemTokens_eq_map, prettyItems_eq_map]
    refine writes_enclose rfl rfl ?_ depth
    rw [List.forall₂_map_left_iff, List.forall₂_map_right_iff, List.forall₂_same]
    exact fun item hitem => ih item hitem (depth + 1)
  | object fields ih =>
    rw [tokens, pretty, fieldTokens_eq_map, prettyFields_eq_map]
    refine writes_enclose rfl rfl ?_ depth
    rw [List.forall₂_map_left_iff, List.forall₂_map_right_iff, List.forall₂_same]
    intro field hfield
    rw [fieldToken, prettyField]
    exact writes_field (ih field hfield (depth + 1))

/-- **The text of a value is a JSON document of that value.** -/
theorem Value.document_pretty (v : Value) : Document v (v.pretty 0) := by
  have hend : Spelled [] [] := .nil nofun
  have hspelled := v.writes_pretty 0 .nil hend
  rwa [List.append_nil, List.append_nil] at hspelled

theorem read?_pretty (v : Value) : read? (v.pretty 0) = some v := read?_eq_some_iff.mpr v.document_pretty

/-- Different values have different texts. -/
theorem Value.pretty_inj {v v' : Value} : v.pretty 0 = v'.pretty 0 ↔ v = v' := by
  refine ⟨fun h => ?_, fun h => h ▸ rfl⟩
  have hread := read?_pretty v
  rw [h, read?_pretty] at hread
  exact (Option.some.inj hread).symm

/-! ### Parts of a value -/

namespace Value

/-- The fields of an object, if no key stands there twice. -/
def fields? : Value → Option (List (String × Value))
  | .object fields => if (fields.map Prod.fst).Nodup then some fields else none
  | _ => none

/-- The value of a key. -/
def field? (v : Value) (key : String) : Option Value := v.fields?.bind (·.lookup key)

theorem field?_object {fields : List (String × Value)} (h : (fields.map Prod.fst).Nodup) (key : String) :
    (object fields).field? key = fields.lookup key := by
  rw [field?, fields?, if_pos h]
  rfl

def items? : Value → Option (List Value)
  | .array items => some items
  | _ => none

def string? : Value → Option String
  | .string s => some s
  | _ => none

def bool? : Value → Option Bool
  | .bool b => some b
  | _ => none

/-- A number with so many bits. -/
def bits? (width : Nat) : Value → Option (BitVec width)
  | .number n => if n < 2 ^ width then some (BitVec.ofNat width n) else none
  | _ => none

def byte? (v : Value) : Option UInt8 := (v.bits? 8).map UInt8.ofBitVec

@[simp] theorem bits?_number {width : Nat} (b : BitVec width) :
    (number b.toNat).bits? width = some b := by
  simp [bits?, b.isLt]

@[simp] theorem byte?_number (b : UInt8) : (number b.toNat).byte? = some b := by
  have hbits : (number b.toNat).bits? 8 = some b.toBitVec := bits?_number b.toBitVec
  rw [byte?, hbits]
  rfl

end Value

end Json

/-! ### Programs -/

/-- The side-set configuration that a JSON value describes. -/
def SideSet.ofJson? (v : Json.Value) : Option SideSet := do
  let width ← (← v.field? "width").byte?
  let optional ← (← v.field? "optional").bool?
  let pindirs ← (← v.field? "pindirs").bool?
  return { width, optional, pindirs }

/-- A configuration is read off its own JSON value. -/
theorem SideSet.ofJson?_toJson (ss : SideSet) : SideSet.ofJson? ss.toJson = some ss := by
  have hfield (key : String) : ss.toJson.field? key = _ := Json.Value.field?_object (by simp) key
  simp only [ofJson?, hfield, List.lookup_cons, String.reduceBEq, Option.bind_eq_bind, Option.bind_some,
    Json.Value.byte?_number, Json.Value.bool?]
  rfl

namespace Program

/-- The program that a JSON value describes. -/
def ofJson? (v : Json.Value) : Option Program := do
  let words ← (← (← v.field? "code").items?).mapM (·.bits? 16)
  let wrapTarget ← (← v.field? "wrap_target").byte?
  let wrap ← (← v.field? "wrap").byte?
  let sideSet ← SideSet.ofJson? (← v.field? "side_set")
  let symbols ← (← (← v.field? "symbols").fields?).mapM fun entry => entry.2.byte?.map (entry.1, ·)
  return { words, wrapTarget, wrap, sideSet, symbols }

/-- The name and the program that a JSON value describes. -/
def named? (v : Json.Value) : Option (String × Program) := do
  return (← (← v.field? "name").string?, ← ofJson? (← v.field? "program"))

theorem mapM_map_eq_some {α β : Type} {f : α → β} {g : β → Option α} (h : ∀ a, g (f a) = some a)
    (as : List α) : (as.map f).mapM g = some as := by
  have hid : (fun a => g (f a)) = fun a => pure (id a) := funext h
  rw [List.mapM_map, Function.comp_def, hid, List.mapM_pure, List.map_id]
  rfl

/-- A program is read off its own JSON value, unless two of its labels have the same name. -/
theorem ofJson?_toJson (p : Program) :
    ofJson? p.toJson = if p.symbols.names.Nodup then some p else none := by
  have hwords : (p.words.map fun w => Json.Value.number w.toNat).mapM (·.bits? 16) = some p.words :=
    mapM_map_eq_some (fun w => Json.Value.bits?_number w) p.words
  have hsymbols : (p.symbols.map fun entry => (entry.1, Json.Value.number entry.2.toNat)).mapM
      (fun entry => entry.2.byte?.map (entry.1, ·)) = some p.symbols := by
    apply mapM_map_eq_some
    simp
  have hkeys : ((p.symbols.map fun entry => (entry.1, Json.Value.number entry.2.toNat)).map Prod.fst)
      = p.symbols.names := by
    simp [SymbolTable.names]
  have hfield (key : String) : p.toJson.field? key = _ := Json.Value.field?_object (by simp) key
  simp only [ofJson?, hfield, List.lookup_cons, String.reduceBEq, Option.bind_eq_bind, Option.bind_some,
    Json.Value.items?, Json.Value.fields?, Json.Value.byte?_number, SideSet.ofJson?_toJson, hwords,
    hkeys]
  split
  · rw [Option.bind_some, hsymbols]
    rfl
  · rfl

/-- A program under its name, as JSON. -/
def toNamedJson (name : String) (p : Program) : Json.Value :=
  .object [("name", .string name), ("program", p.toJson)]

/-- **A program and its name can be read off the JSON value**, provided that no two of its labels have
the same name. -/
theorem named?_toNamedJson (name : String) (p : Program) :
    named? (p.toNamedJson name) = if p.symbols.names.Nodup then some (name, p) else none := by
  have hfield (key : String) : (p.toNamedJson name).field? key = _ :=
    Json.Value.field?_object (by simp) key
  simp only [named?, hfield, List.lookup_cons, String.reduceBEq, Option.bind_eq_bind, Option.bind_some,
    Json.Value.string?, ofJson?_toJson]
  split <;> rfl

/-- Different programs, and programs under different names, have different JSON values. -/
theorem toNamedJson_inj {name name' : String} {p p' : Program} (hp : p.symbols.names.Nodup)
    (h : p'.toNamedJson name' = p.toNamedJson name) : name' = name ∧ p' = p := by
  have hread := named?_toNamedJson name' p'
  rw [h, named?_toNamedJson, if_pos hp] at hread
  split at hread
  · cases hread
    exact ⟨rfl, rfl⟩
  · cases hread

/-- A document ends with the brace of its outermost object. -/
theorem getLast?_pretty_toNamedJson (name : String) (p : Program) :
    ((p.toNamedJson name).pretty 0).getLast? = some '\x7d' := by
  rw [toNamedJson, Json.Value.pretty, Json.enclose, if_neg (by simp [Json.prettyFields]),
    List.getLast?_concat]

end Program

/-! ### What the bytes tell -/

namespace Source

open Program

/-- No two labels of a program that was built have the same name. -/
theorem nodup_names_of_build {source : Source} {p : Program} (h : source.build = .ok p) :
    p.symbols.names.Nodup := by
  obtain ⟨-, rfl⟩ := build_eq_ok_iff.mp h
  exact source.nodup_names_symbols

/-- **JSON loses nothing.** The bytes of a program are a JSON document and one line feed. Read as JSON,
the document gives back the name and the whole program, whatever the name and the labels are; so no
other name or program has the same bytes. -/
theorem renderJson_lossless (source : Source) (p : Program) (name : String)
    (h : source.build = .ok p) :
    ∃ (document : String) (v : Json.Value),
      p.render name .json = (document ++ "\n").toUTF8 ∧
      document.toList.getLast? = some '\x7d' ∧
      Json.Document v document.toList ∧
      Json.read? document.toList = some v ∧
      named? v = some (name, p) ∧
      ∀ (name' : String) (p' : Program),
        p'.render name' .json = p.render name .json → name' = name ∧ p' = p := by
  have hnodup := nodup_names_of_build h
  refine ⟨String.ofList ((p.toNamedJson name).pretty 0), p.toNamedJson name, rfl, ?_⟩
  rw [String.toList_ofList]
  refine ⟨getLast?_pretty_toNamedJson name p, Json.Value.document_pretty _, Json.read?_pretty _, ?_, ?_⟩
  · rw [named?_toNamedJson, if_pos hnodup]
  · -- equal bytes are equal texts, and the text determines the value
    intro name' p' hbytes
    have htext : p'.renderJson name' = p.renderJson name := String.toByteArray_inj.mp hbytes
    have hchars := congrArg String.toList htext
    rw [renderJson, renderJson, String.toList_append, String.toList_append, List.append_cancel_right_eq,
      String.toList_ofList, String.toList_ofList] at hchars
    exact toNamedJson_inj hnodup (Json.Value.pretty_inj.mp hchars)

/-- Quotes, backslashes and control characters are kept, and so is a label behind the last word. -/
theorem renderJson_lossless_escaped :
    let source : Source := [.label "\"\\\x00", .instruction (.jmp .always "\"\\\x00"), .label "\n"]
    let p : Program := ⟨[0#16], 0, 0, {}, [("\n", 1), ("\"\\\x00", 0)]⟩
    source.build = .ok p ∧ ∃ (document : String) (v : Json.Value),
      p.render "\x1f/é" .json = (document ++ "\n").toUTF8 ∧ Json.read? document.toList = some v ∧
        named? v = some ("\x1f/é", p) := by
  intro source p
  have hp : source.build = .ok p := by decide +kernel
  obtain ⟨document, v, hbytes, -, -, hread, hnamed, -⟩ := renderJson_lossless source p "\x1f/é" hp
  exact ⟨hp, document, v, hbytes, hread, hnamed⟩

end Source

end PioAssembler
