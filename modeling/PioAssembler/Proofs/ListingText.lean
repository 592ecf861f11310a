import Mathlib.Algebra.Group.Nat.Defs
import PioAssembler.Program.Listing

/-!
# The text of a listing

A listing is a text of lines, and a label can be spelled like anything, also like another kind of line.
Its own line still ends in a colon, and no other line does:

* `Listing.Line.text_inj`: the text of a line says which line it is,
* `Listing.rows_join`: as long as no label breaks its line, the rows of the text are the lines.
-/

namespace PioAssembler

/-! ### Numerals in a text -/

/-- Where a run of characters ends is seen from the first one that does not belong to it. -/
theorem append_inj_of_run {α : Type} {p : α → Bool} {run run' rest rest' : List α}
    (hrun : ∀ a ∈ run, p a = true) (hrun' : ∀ a ∈ run', p a = true)
    (hrest : rest.takeWhile p = []) (hrest' : rest'.takeWhile p = [])
    (h : run ++ rest = run' ++ rest') : run = run' ∧ rest = rest' := by
  have hsame : run = run' := by
    have htake := congrArg (List.takeWhile p) h
    rwa [List.takeWhile_append_of_pos hrun, List.takeWhile_append_of_pos hrun', hrest, hrest',
      List.append_nil, List.append_nil] at htake
  subst hsame
  exact ⟨rfl, List.append_cancel_left h⟩

theorem isDigit_of_mem_decimal {n : Nat} {c : Char} (h : c ∈ (decimal n).toList) :
    c.isDigit = true := by
  rw [decimal, String.toList_ofList] at h
  exact Nat.isDigit_of_mem_toDigits (by decide) (by decide) h

theorem ne_of_mem_decimal {n : Nat} {c d : Char} (h : c ∈ (decimal n).toList)
    (hd : d.isDigit = false) : c ≠ d := by
  rintro rfl
  rw [isDigit_of_mem_decimal h] at hd
  cases hd

theorem toList_alignRight (width n : Nat) :
    (alignRight width (decimal n)).toList
      = List.replicate (width - (decimal n).toList.length) ' ' ++ (decimal n).toList := by
  rw [alignRight, String.toList_ofList, List.leftpad]

/-- A column holds nothing but the numeral and blanks. -/
theorem ne_of_mem_alignRight {width n : Nat} {c d : Char}
    (h : c ∈ (alignRight width (decimal n)).toList) (hd : d.isDigit = false) (hblank : d ≠ ' ') :
    c ≠ d := by
  rw [toList_alignRight, List.mem_append] at h
  rcases h with hpad | hdigit
  · rw [List.eq_of_mem_replicate hpad]
    exact hblank.symm
  · exact ne_of_mem_decimal hdigit hd

/-- Different numbers look different in a column. -/
theorem alignRight_decimal_inj {width m n : Nat} :
    alignRight width (decimal m) = alignRight width (decimal n) ↔ m = n := by
  refine ⟨fun h => ?_, congrArg fun k => alignRight width (decimal k)⟩
  -- what is left without the blanks in front is the numeral
  have hdrop : ∀ k, (alignRight width (decimal k)).toList.dropWhile (· = ' ') = (decimal k).toList := by
    intro k
    have hdigits : ∀ c ∈ (decimal k).toList, ¬ c = ' ' := fun c hc => ne_of_mem_decimal hc (by decide)
    rw [toList_alignRight, List.dropWhile_append_of_pos (by simp)]
    cases hk : (decimal k).toList with
    | nil => rfl
    | cons c rest =>
      rw [hk] at hdigits
      rw [List.dropWhile_cons_of_neg (by simpa using hdigits c List.mem_cons_self)]
  have hsame := congrArg (fun s : String => s.toList.dropWhile (· = ' ')) h
  simp only [hdrop] at hsame
  exact decimal_inj.mp (String.toList_inj.mp hsame)

theorem exists_of_mem_hexDigits {digits n : Nat} {c : Char} (h : c ∈ hexDigits digits n) :
    ∃ d, c = Nat.digitChar d := by
  induction digits generalizing n with
  | zero => cases h
  | succ k ih =>
    rw [hexDigits, List.mem_append, List.mem_singleton] at h
    rcases h with hfront | rfl
    · exact ih hfront
    · exact ⟨n % 16, rfl⟩

/-- Numbers that fit the digits have different digits. -/
theorem hexDigits_inj {digits m n : Nat} (hm : m < 16 ^ digits) (hn : n < 16 ^ digits) :
    hexDigits digits m = hexDigits digits n ↔ m = n := by
  refine ⟨fun h => ?_, congrArg (hexDigits digits)⟩
  induction digits generalizing m n with
  | zero => omega
  | succ k ih =>
    rw [hexDigits, hexDigits] at h
    obtain ⟨hfront, hlast⟩ := List.append_inj' h rfl
    have hchar : ∀ a < 16, ∀ b < 16, Nat.digitChar a = Nat.digitChar b → a = b := by decide
    have hdiv : m / 16 = n / 16 := ih (by omega) (by omega) hfront
    have hmod : m % 16 = n % 16 :=
      hchar _ (Nat.mod_lt m (by decide)) _ (Nat.mod_lt n (by decide)) (List.cons.inj hlast).1
    omega

/-- Different words have different digits. -/
theorem Word.hex_inj {w w' : Word} : w.hex = w'.hex ↔ w = w' := by
  rw [Word.hex, Word.hex, String.ofList_inj, hexDigits_inj w.isLt w'.isLt, BitVec.toNat_inj]

theorem Word.newline_not_mem_hex (w : Word) : '\n' ∉ w.hex.toList := by
  rw [Word.hex, String.toList_ofList]
  intro hmem
  obtain ⟨d, hchar⟩ := exists_of_mem_hexDigits hmem
  exact absurd hchar.symm (Nat.digitChar_ne '\n' (by decide))

namespace Listing

/-! ### Kinds of lines -/

/-- The kinds of lines. -/
inductive Kind where
  | sideSet | wrapTarget | label | word | wrap
  deriving DecidableEq, Repr

/-- The kind of a line. -/
def Line.kind : Line → Kind
  | .sideSet _ => .sideSet
  | .wrapTarget => .wrapTarget
  | .label _ => .label
  | .word .. => .word
  | .wrap => .wrap

/-- The kind of a line, read off its text: a label ends in a colon, and a word is indented. -/
def Kind.ofText (text : List Char) : Kind :=
  if text.getLast? = some ':' then .label
  else if text.head? = some ' ' then .word
  else if text = ".wrap_target".toList then .wrapTarget
  else if text = ".wrap".toList then .wrap
  else .sideSet

/-- The line of a word ends with the name of its group, so not in a colon. -/
theorem Line.getLast?_text_word (addr : Addr) (w : Word) :
    (Line.word addr w).text.toList.getLast? ≠ some ':' := by
  rw [text, String.toList_append, List.getLast?_append]
  cases w.opcode <;> simp [Opcode.mnemonic]

/-- The line of a configuration ends in a numeral or a word, so not in a colon. -/
theorem Line.getLast?_text_sideSet (ss : SideSet) :
    (Line.sideSet ss).text.toList.getLast? ≠ some ':' := by
  have hdigits : (decimal ss.width.toNat).toList.getLast? ≠ some ':' := by
    intro hlast
    exact ne_of_mem_decimal (List.mem_of_getLast? hlast) (by decide) rfl
  have hsome : (decimal ss.width.toNat).toList.getLast?.isSome := by
    simp [decimal]
  obtain ⟨c, hc⟩ := Option.isSome_iff_exists.mp hsome
  rw [text, String.toList_append, String.toList_append, String.toList_append, List.getLast?_append,
    List.getLast?_append, List.getLast?_append]
  cases ss.optional <;> cases ss.pindirs <;> simp_all

/-- What kind a line is can be seen from its text, whatever its label is. -/
theorem Line.ofText_text (line : Line) : Kind.ofText line.text.toList = line.kind := by
  cases line with
  | sideSet ss =>
    rw [Kind.ofText, if_neg (getLast?_text_sideSet ss)]
    simp [text, kind]
  | wrapTarget => rfl
  | label name => simp [Kind.ofText, text, kind]
  | word addr w =>
    rw [Kind.ofText, if_neg (getLast?_text_word addr w)]
    simp [text, kind]
  | wrap => rfl

/-! ### A line from its text -/

/-- The line of a configuration says which one it is. -/
theorem Line.text_sideSet_inj {ss ss' : SideSet} (h : (Line.sideSet ss).text = (Line.sideSet ss').text) :
    ss = ss' := by
  obtain ⟨width, optional, pindirs⟩ := ss
  obtain ⟨width', optional', pindirs'⟩ := ss'
  have hchars := congrArg String.toList h
  simp only [text, String.toList_append, List.append_assoc, List.append_cancel_left_eq] at hchars
  -- the numeral ends where the first blank stands, or with the line
  have hflags : ∀ o p : Bool, List.takeWhile Char.isDigit
      ((if o then " opt" else "").toList ++ (if p then " pindirs" else "").toList) = [] := by decide
  obtain ⟨hwidth, hrest⟩ := append_inj_of_run (fun _ => isDigit_of_mem_decimal)
    (fun _ => isDigit_of_mem_decimal) (hflags _ _) (hflags _ _) hchars
  have hwidths : width = width' := UInt8.toNat_inj.mp (decimal_inj.mp (String.toList_inj.mp hwidth))
  have hboth : ∀ o p o' p' : Bool,
      (if o then " opt" else "").toList ++ (if p then " pindirs" else "").toList
        = (if o' then " opt" else "").toList ++ (if p' then " pindirs" else "").toList →
      o = o' ∧ p = p' := by decide
  obtain ⟨rfl, rfl⟩ := hboth _ _ _ _ hrest
  rw [hwidths]

/-- The line of a word says which word it is, and at which address. -/
theorem Line.text_word_inj {addr addr' : Addr} {w w' : Word}
    (h : (Line.word addr w).text = (Line.word addr' w').text) : addr = addr' ∧ w = w' := by
  have hchars := congrArg String.toList h
  simp only [text, String.toList_append, List.append_assoc, List.append_cancel_left_eq] at hchars
  -- the column of the address ends at the first colon
  have hcolumn : ∀ (a : Addr), ∀ c ∈ (alignRight 2 (decimal a.toNat)).toList, (c != ':') = true := by
    intro a c hc
    simpa using ne_of_mem_alignRight hc (by decide) (by decide)
  obtain ⟨haddr, hrest⟩ := append_inj_of_run (hcolumn addr) (hcolumn addr') (by simp) (by simp) hchars
  rw [List.append_cancel_left_eq] at hrest
  have hlength : ∀ v : Word, v.hex.toList.length = 4 := by
    intro v
    rw [Word.hex, String.toList_ofList, length_hexDigits]
  obtain ⟨hhex, -⟩ := List.append_inj hrest ((hlength w).trans (hlength w').symm)
  have haddrs : addr.toNat = addr'.toNat := alignRight_decimal_inj.mp (String.toList_inj.mp haddr)
  exact ⟨UInt8.toNat_inj.mp haddrs, Word.hex_inj.mp (String.toList_inj.mp hhex)⟩

/-- The line of a label says which label it is. -/
theorem Line.text_label_inj {name name' : String} (h : (Line.label name).text = (Line.label name').text) :
    name = name' := by
  have hchars := congrArg String.toList h
  simp only [text, String.toList_append, List.append_cancel_right_eq] at hchars
  exact String.toList_inj.mp hchars

/-- **The text of a line says which line it is**, whatever the labels are. -/
theorem Line.text_inj {line line' : Line} : line.text = line'.text ↔ line = line' := by
  refine ⟨fun h => ?_, congrArg text⟩
  have hkind : line.kind = line'.kind := by rw [← ofText_text, ← ofText_text, h]
  cases line <;> cases line' <;> try cases hkind
  case sideSet.sideSet => rw [text_sideSet_inj h]
  case wrapTarget.wrapTarget => rfl
  case label.label => rw [text_label_inj h]
  case word.word =>
    obtain ⟨haddr, hw⟩ := text_word_inj h
    rw [haddr, hw]
  case wrap.wrap => rfl

theorem Line.text_ne_empty (line : Line) : line.text ≠ "" := by
  cases line <;> simp [text]

/-! ### Rows -/

/-- The rows of a text: what stands between line feeds, before the first and after the last. -/
def rows (text : String) : List String := (text.toList.splitOn '\n').map String.ofList

/-- A line at the front of a text is its first row. -/
theorem rows_line_append {line : String} (h : '\n' ∉ line.toList) (text : String) :
    rows (line ++ "\n" ++ text) = line :: rows text := by
  have hchars : (line ++ "\n" ++ text).toList = line.toList ++ '\n' :: text.toList := by simp
  rw [rows, hchars, List.splitOn_append_cons_self_of_not_mem h, List.map_cons, String.ofList_toList]
  rfl

/-- The rows of a text that ends each of its lines are the lines, and an empty row at the end. -/
theorem rows_join {lines : List String} (h : ∀ line ∈ lines, '\n' ∉ line.toList) :
    rows (String.join (lines.map (· ++ "\n"))) = lines ++ [""] := by
  induction lines with
  | nil => rfl
  | cons line rest ih =>
    rw [List.map_cons, String.join_cons, rows_line_append (h line List.mem_cons_self),
      ih fun l hl => h l (List.mem_cons_of_mem _ hl)]
    rfl

/-- A line is broken only by a label that is. -/
theorem Line.newline_not_mem_text {line : Line} (h : ∀ name, line = .label name → '\n' ∉ name.toList) :
    '\n' ∉ line.text.toList := by
  have hdecimal : ∀ n, '\n' ∉ (decimal n).toList := fun n hmem => ne_of_mem_decimal hmem (by decide) rfl
  cases line with
  | sideSet ss =>
    cases ho : ss.optional <;> cases hp : ss.pindirs <;> simp [text, ho, hp, hdecimal]
  | wrapTarget => decide
  | label name => simp [text, h name rfl]
  | word addr w =>
    have hcolumn : '\n' ∉ (alignRight 2 (decimal addr.toNat)).toList :=
      fun hmem => ne_of_mem_alignRight hmem (by decide) (by decide) rfl
    cases hop : w.opcode <;> simp [text, hcolumn, w.newline_not_mem_hex, hop, Opcode.mnemonic]
  | wrap => decide

end Listing

end PioAssembler
