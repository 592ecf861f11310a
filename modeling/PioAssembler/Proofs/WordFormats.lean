import PioAssembler.Proofs.ListingLossless

/-!
# Words as bytes and as digits

The memory image and the hexadecimal text of a program hold its words and nothing else. Each has a reader
here, and a reader accepts exactly what can be written:

* `wordsOfBytes?_eq_some_iff`: bytes are taken two at a time, low byte first,
* `wordsOfHex?_eq_some_iff`: a text is taken line by line, each of four lower-case digits.

The lines of a listing that are about words show the same digits in the same order
(`Program.printedDigits_wordLines`, `Program.printedDigits_wordRows`), so that the three ways to write a
word agree: `Program.formats_agree`.
-/

namespace PioAssembler

open Listing

/-! ### Bytes -/

/-- The word of two bytes. -/
def Word.ofBytes (low high : UInt8) : Word := BitVec.ofNat 16 (low.toNat + 256 * high.toNat)

/-- The words of a memory image: two bytes at a time, low byte first. A byte that is left over spoils
the image. -/
def wordsOfBytes? : List UInt8 → Option (List Word)
  | [] => some []
  | [_] => none
  | low :: high :: rest => (wordsOfBytes? rest).map (Word.ofBytes low high :: ·)

theorem Word.toNat_ofBytes (low high : UInt8) :
    (Word.ofBytes low high).toNat = low.toNat + 256 * high.toNat := by
  have hlow := low.toNat_lt
  have hhigh := high.toNat_lt
  rw [ofBytes, BitVec.toNat_ofNat]
  exact Nat.mod_eq_of_lt (by omega)

/-- The image of a word made of two bytes are these bytes. -/
theorem Word.littleEndian_ofBytes (low high : UInt8) :
    (Word.ofBytes low high).littleEndian = [low, high] := by
  have hlow := low.toNat_lt
  have hmod : (low.toNat + 256 * high.toNat) % 256 = low.toNat := by omega
  have hdiv : (low.toNat + 256 * high.toNat) / 256 = high.toNat := by omega
  rw [littleEndian, toNat_ofBytes, hmod, hdiv, UInt8.ofNat_toNat, UInt8.ofNat_toNat]

/-- A word is made of its own bytes. -/
theorem Word.ofBytes_littleEndian (w : Word) :
    Word.ofBytes (UInt8.ofNat (w.toNat % 256)) (UInt8.ofNat (w.toNat / 256)) = w := by
  have hw : w.toNat < 65536 := w.isLt
  apply BitVec.eq_of_toNat_eq
  rw [toNat_ofBytes, UInt8.toNat_ofNat', UInt8.toNat_ofNat']
  omega

/-- **Bytes are read as the words that they are the image of**, and every other row of bytes is refused. -/
theorem wordsOfBytes?_eq_some_iff {bytes : List UInt8} {words : List Word} :
    wordsOfBytes? bytes = some words ↔ words.flatMap Word.littleEndian = bytes := by
  constructor
  · intro h
    fun_induction wordsOfBytes? bytes generalizing words with
    | case1 =>
      cases h
      rfl
    -- a single byte is left over
    | case2 => cases h
    | case3 low high rest ih =>
      obtain ⟨words', hrest, rfl⟩ := Option.map_eq_some_iff.mp h
      rw [List.flatMap_cons, ih hrest, Word.littleEndian_ofBytes]
      rfl
  · rintro rfl
    induction words with
    | nil => rfl
    | cons w words ih =>
      show (wordsOfBytes? (words.flatMap Word.littleEndian)).map (Word.ofBytes _ _ :: ·) = _
      rw [ih, Word.ofBytes_littleEndian]
      rfl

/-- Every word takes two bytes. -/
theorem length_flatMap_littleEndian (words : List Word) :
    (words.flatMap Word.littleEndian).length = 2 * words.length := by
  induction words with
  | nil => rfl
  | cons w words ih =>
    rw [List.flatMap_cons, List.length_append, ih, List.length_cons]
    show 2 + 2 * words.length = _
    omega

/-! ### Digits -/

/-- The value of a lower-case hexadecimal digit. -/
def hexValue? (c : Char) : Option Nat := "0123456789abcdef".toList.idxOf? c

/-- The number that some lower-case hexadecimal digits write. -/
def ofHexDigits? (digits : List Char) : Option Nat :=
  digits.foldlM (fun n c => (hexValue? c).map (16 * n + ·)) 0

/-- The word of a line of four lower-case hexadecimal digits. -/
def Word.ofHex? (line : String) : Option Word :=
  if line.length = 4 then (ofHexDigits? line.toList).map (BitVec.ofNat 16) else none

/-- The words of a text: each line is one word, and each line is ended. -/
def wordsOfHex? (text : String) : Option (List Word) :=
  if (rows text).getLast? = some "" then (rows text).dropLast.mapM Word.ofHex? else none

/-- The digits are the ten figures and the first six small letters. -/
theorem hexValue?_eq_some_iff {c : Char} {d : Nat} :
    hexValue? c = some d ↔ d < 16 ∧ Nat.digitChar d = c := by
  have htable : "0123456789abcdef".toList = (List.range 16).map Nat.digitChar := by decide
  have hinj : ∀ a < 16, ∀ b < 16, Nat.digitChar a = Nat.digitChar b → a = b := by decide
  rw [hexValue?, htable, List.idxOf?_eq_some_iff]
  simp only [List.length_map, List.length_range, List.getElem_map, List.getElem_range]
  constructor
  · rintro ⟨hd, rfl, -⟩
    exact ⟨hd, rfl⟩
  · rintro ⟨hd, rfl⟩
    refine ⟨hd, rfl, ?_⟩
    intro j hj hsame
    exact absurd (hinj j (by omega) d hd hsame) (Nat.ne_of_lt hj)

theorem ofHexDigits?_concat (digits : List Char) (c : Char) :
    ofHexDigits? (digits ++ [c])
      = (ofHexDigits? digits).bind fun n => (hexValue? c).map (16 * n + ·) := by
  rw [ofHexDigits?, List.foldlM_append]
  simp [ofHexDigits?]

/-- Digits are read as the number whose digits they are. -/
theorem ofHexDigits?_eq_some_iff {digits : List Char} {n : Nat} :
    ofHexDigits? digits = some n ↔ n < 16 ^ digits.length ∧ hexDigits digits.length n = digits := by
  induction digits using List.reverseRecOn generalizing n with
  | nil => simp [ofHexDigits?, hexDigits, eq_comm]
  | append_singleton digits c ih =>
    rw [ofHexDigits?_concat, List.length_append, List.length_singleton, hexDigits, Nat.pow_succ]
    simp only [Option.bind_eq_some_iff, Option.map_eq_some_iff, hexValue?_eq_some_iff, ih]
    constructor
    · rintro ⟨m, ⟨hm, hdigits⟩, d, ⟨hd, rfl⟩, rfl⟩
      have hdiv : (16 * m + d) / 16 = m := by omega
      have hmod : (16 * m + d) % 16 = d := by omega
      rw [hdiv, hmod, hdigits]
      exact ⟨by omega, rfl⟩
    · rintro ⟨hn, hdigits⟩
      obtain ⟨hfront, hlast⟩ := List.append_inj' hdigits rfl
      exact ⟨n / 16, ⟨by omega, hfront⟩, n % 16, ⟨by omega, (List.cons.inj hlast).1⟩, by omega⟩

/-- Every word has four digits, leading zeros included. -/
theorem Word.length_hex (w : Word) : w.hex.length = 4 := by
  rw [hex, String.length_ofList, length_hexDigits]

/-- A line is read as the word whose digits it holds. -/
theorem Word.ofHex?_eq_some_iff {line : String} {w : Word} : Word.ofHex? line = some w ↔ w.hex = line := by
  unfold ofHex?
  constructor
  · intro h
    split at h
    · next hfour =>
      obtain ⟨n, hread, rfl⟩ := Option.map_eq_some_iff.mp h
      obtain ⟨hn, hdigits⟩ := ofHexDigits?_eq_some_iff.mp hread
      rw [String.length_toList, hfour] at hn hdigits
      have hfits : n < 2 ^ 16 := hn
      rw [hex, BitVec.toNat_ofNat, Nat.mod_eq_of_lt hfits, hdigits, String.ofList_toList]
    · cases h
  · rintro rfl
    have hread : ofHexDigits? w.hex.toList = some w.toNat := by
      rw [ofHexDigits?_eq_some_iff, String.length_toList, w.length_hex]
      exact ⟨w.isLt, by rw [hex, String.toList_ofList]⟩
    rw [if_pos w.length_hex, hread, Option.map_some, BitVec.ofNat_toNat, BitVec.setWidth_eq]

/-! ### Lines of digits -/

/-- Lines are read as the words whose digits they hold. -/
theorem mapM_ofHex?_eq_some_iff {lines : List String} {words : List Word} :
    lines.mapM Word.ofHex? = some words ↔ words.map Word.hex = lines := by
  induction lines generalizing words with
  | nil =>
    show some [] = some words ↔ words.map Word.hex = []
    rw [Option.some_inj, List.map_eq_nil_iff, eq_comm]
  | cons line lines ih =>
    simp only [List.mapM_cons, Option.bind_eq_bind, Option.bind_eq_some_iff, Word.ofHex?_eq_some_iff, ih]
    constructor
    · rintro ⟨w, rfl, words', rfl, hwords⟩
      cases hwords
      rfl
    · intro h
      obtain ⟨w, words', rfl, hw, hwords'⟩ := List.map_eq_cons_iff.mp h
      exact ⟨w, hw, words', hwords', rfl⟩

/-- A text can be put together from its rows. -/
theorem rows_inj {text text' : String} : rows text = rows text' ↔ text = text' := by
  refine ⟨fun h => ?_, congrArg rows⟩
  have hsplit : text.toList.splitOn '\n' = text'.toList.splitOn '\n' :=
    List.map_injective_iff.mpr (fun _ _ => String.ofList_inj.mp) h
  have hchars := congrArg (List.intercalate ['\n']) hsplit
  rw [List.intercalate_splitOn, List.intercalate_splitOn] at hchars
  exact String.toList_inj.mp hchars

/-- The rows of a hexadecimal text are the digits of its words. -/
theorem rows_hexText (words : List Word) :
    rows (String.join (words.map fun w => w.hex ++ "\n")) = words.map Word.hex ++ [""] := by
  have hlines : ∀ line ∈ words.map Word.hex, '\n' ∉ line.toList := by
    intro line hline
    obtain ⟨w, -, rfl⟩ := List.mem_map.mp hline
    exact w.newline_not_mem_hex
  rw [← rows_join hlines, List.map_map]
  rfl

/-- **A text is read as the words whose digits its lines hold**, and every other text is refused. -/
theorem wordsOfHex?_eq_some_iff {text : String} {words : List Word} :
    wordsOfHex? text = some words ↔ String.join (words.map fun w => w.hex ++ "\n") = text := by
  unfold wordsOfHex?
  constructor
  · intro h
    split at h
    · next hended =>
      have hlines := mapM_ofHex?_eq_some_iff.mp h
      apply rows_inj.mp
      rw [rows_hexText, hlines]
      exact List.dropLast_append_getLast? "" hended
    · cases h
  · rintro rfl
    rw [rows_hexText, List.getLast?_concat, if_pos rfl, List.dropLast_concat, mapM_ofHex?_eq_some_iff]

/-- Every word takes four digits and a line feed. -/
theorem length_hexText (words : List Word) :
    (String.join (words.map fun w => w.hex ++ "\n")).length = 5 * words.length := by
  induction words with
  | nil => rfl
  | cons w words ih =>
    rw [List.map_cons, String.join_cons, String.length_append, ih, String.length_append, w.length_hex,
      List.length_cons]
    show 4 + 1 + 5 * words.length = _
    omega

/-! ### Digits on the lines of a listing -/

namespace Listing

/-- The four characters behind the `0x` of a row. -/
def printedDigits (row : String) : String :=
  String.ofList (((row.toList.dropWhile (· ≠ 'x')).drop 1).take 4)

/-- Whether a row is about a word. -/
def isWordRow (row : String) : Bool := Kind.ofText row.toList = .word

/-- The digits on the line of a word are those of the word: no `x` stands before theirs. -/
theorem Line.printedDigits_text_word (addr : Addr) (w : Word) :
    printedDigits (Line.word addr w).text = w.hex := by
  have hfront : ∀ c ∈ "    ".toList ++ (alignRight 2 (decimal addr.toNat)).toList ++ [':', ' ', '0'],
      decide (c ≠ 'x') = true := by
    intro c hc
    rw [decide_eq_true_eq]
    intro hx
    rw [hx] at hc
    simp only [List.mem_append] at hc
    -- blanks, the digits of the address, and the mark of a hexadecimal number up to its `x`
    rcases hc with (hblank | hcolumn) | hmark
    · exact absurd hblank (by decide)
    · exact ne_of_mem_alignRight hcolumn (by decide) (by decide) rfl
    · exact absurd hmark (by decide)
  have htext : (Line.word addr w).text.toList
      = ("    ".toList ++ (alignRight 2 (decimal addr.toNat)).toList ++ [':', ' ', '0'])
        ++ 'x' :: (w.hex.toList ++ (" ; " ++ w.opcode.mnemonic).toList) := by
    simp [Line.text]
  have hfour : w.hex.toList.length = 4 := by rw [String.length_toList, w.length_hex]
  rw [printedDigits, htext, List.dropWhile_append_of_pos hfront, List.dropWhile_cons_of_neg (by decide),
    List.drop_one, List.tail_cons, ← hfour, List.take_left, String.ofList_toList]

/-- The lines about words are told from the others by their text, whatever the labels are. -/
theorem Line.isWordRow_text (line : Line) : isWordRow line.text = line.isWord := by
  rw [isWordRow, Line.ofText_text]
  cases line <;> rfl

end Listing

namespace Program

/-- The lines of a listing that are about words. -/
def wordLines (p : Program) : List Line := p.lines.filter Line.isWord

/-- Of the lines about a word one is the line of the word. -/
theorem filter_linesAt (p : Program) (position : Nat) (w : Word) :
    (p.linesAt position w).filter Line.isWord = [.word (UInt8.ofNat position) w] := by
  have habove : (p.linesAbove (UInt8.ofNat position)).filter Line.isWord = [] := by
    rw [List.filter_eq_nil_iff, ← List.countP_eq_zero]
    exact p.countP_linesAbove _
  have hbelow : (p.linesBelow (UInt8.ofNat position)).filter Line.isWord = [] := by
    rw [List.filter_eq_nil_iff, ← List.countP_eq_zero]
    exact p.countP_linesBelow _
  rw [linesAt_eq, List.filter_append, habove, List.filter_cons_of_pos rfl, hbelow]
  rfl

/-- There is one line for each word, in the order of the words. -/
theorem wordLines_eq (p : Program) :
    p.wordLines = p.words.mapIdx fun position w => .word (UInt8.ofNat position) w := by
  have hhead : (if p.sideSet.enabled then [Line.sideSet p.sideSet] else []).filter Line.isWord = [] := by
    split <;> rfl
  rw [wordLines, lines, List.filter_append, hhead, List.nil_append]
  induction p.words using List.reverseRecOn with
  | nil => rfl
  | append_singleton words w ih =>
    rw [List.mapIdx_concat, List.mapIdx_concat, List.flatten_append, List.filter_append, ih,
      List.flatten_singleton, filter_linesAt]

/-- The lines about words show the digits of the words, in their order. -/
theorem printedDigits_wordLines (p : Program) :
    p.wordLines.map (fun line => printedDigits line.text) = p.words.map Word.hex := by
  rw [wordLines_eq]
  apply List.ext_getElem
  · simp
  · intro position _ _
    simp [Line.printedDigits_text_word]

/-- As long as no label breaks its line, the lines about words are found in the text. -/
theorem printedDigits_wordRows {p : Program} (h : p.LabelsFitLines) :
    ((rows p.listing).filter isWordRow).map printedDigits = p.words.map Word.hex := by
  have hlast : [""].filter isWordRow = [] := by decide
  rw [rows_listing h, List.filter_append, hlast, List.append_nil, List.filter_map, ← printedDigits_wordLines,
    wordLines, List.map_map]
  have hkind : isWordRow ∘ Line.text = Line.isWord := funext Line.isWordRow_text
  rw [hkind]
  rfl

/-! ### The formats together -/

theorem data_render_bin (p : Program) (name : String) :
    (p.render name .bin).data.toList = p.words.flatMap Word.littleEndian :=
  List.toList_toArray

/-- The memory image is read as the words of the program. -/
theorem read_render_bin (p : Program) (name : String) :
    wordsOfBytes? (p.render name .bin).data.toList = some p.words :=
  wordsOfBytes?_eq_some_iff.mpr (p.data_render_bin name).symm

/-- The hexadecimal text is read as the words of the program. -/
theorem read_renderHex (p : Program) : wordsOfHex? p.renderHex = some p.words :=
  wordsOfHex?_eq_some_iff.mpr rfl

theorem dropLast_rows_renderHex (p : Program) : (rows p.renderHex).dropLast = p.words.map Word.hex := by
  rw [renderHex, rows_hexText, List.dropLast_concat]

/-- Memory images are the same exactly if the words are. -/
theorem render_bin_eq_iff {p q : Program} {name name' : String} :
    p.render name .bin = q.render name' .bin ↔ p.words = q.words := by
  constructor
  · intro h
    have hread := p.read_render_bin name
    rw [h, read_render_bin] at hread
    exact (Option.some.inj hread).symm
  · intro h
    show ByteArray.mk p.littleEndian.toArray = ByteArray.mk q.littleEndian.toArray
    rw [littleEndian, littleEndian, h]

/-- Hexadecimal texts are the same exactly if the words are. -/
theorem render_hex_eq_iff {p q : Program} {name name' : String} :
    p.render name .hex = q.render name' .hex ↔ p.words = q.words := by
  constructor
  · intro h
    have htext : p.renderHex = q.renderHex := String.toByteArray_inj.mp h
    have hread := p.read_renderHex
    rw [htext, read_renderHex] at hread
    exact (Option.some.inj hread).symm
  · intro h
    show p.renderHex.toUTF8 = q.renderHex.toUTF8
    rw [renderHex, renderHex, h]

/-- **The formats agree about the words.** From the memory image they are read two bytes at a time, from the
hexadecimal text line by line, so that either tells two programs apart exactly if their words differ. Line
by line the text has the digits that the listing shows on its lines about words, and if no label breaks its
line, these can be found in the listing as it stands. -/
theorem formats_agree (p q : Program) (name name' : String) :
    ((p.render name .bin).size = 2 * p.words.length ∧
        wordsOfBytes? (p.render name .bin).data.toList = some p.words) ∧
      (∃ text : String, p.render name .hex = text.toUTF8 ∧
        text.length = 5 * p.words.length ∧
        wordsOfHex? text = some p.words ∧
        p.wordLines.map (fun line => printedDigits line.text) = (rows text).dropLast ∧
        (p.LabelsFitLines →
          ((rows p.listing).filter isWordRow).map printedDigits = (rows text).dropLast)) ∧
      (p.render name .hex = q.render name' .hex ↔ p.render name .bin = q.render name' .bin) ∧
      (p.render name .bin = q.render name' .bin ↔ p.words = q.words) := by
  refine ⟨⟨?_, p.read_render_bin name⟩, ⟨p.renderHex, rfl, length_hexText p.words, p.read_renderHex, ?_⟩,
    ?_, render_bin_eq_iff⟩
  · rw [← length_flatMap_littleEndian, ← data_render_bin p name, Array.length_toList]
    rfl
  · rw [dropLast_rows_renderHex]
    exact ⟨p.printedDigits_wordLines, printedDigits_wordRows⟩
  · rw [render_hex_eq_iff, render_bin_eq_iff]

/-- Leading zeros are written, the low byte comes first, and a label that looks like a word is none. -/
theorem formats_agree_leading_zeros :
    let p : Program := ⟨[0x00a1#16, 0xf00d#16], 0, 1, {}, [("0xbeef", 1)]⟩
    p.LabelsFitLines ∧ wordsOfBytes? [0xa1, 0x00, 0x0d, 0xf0] = some p.words ∧
      ∃ text : String, p.render "zeros" .hex = text.toUTF8 ∧
        ((rows p.listing).filter isWordRow).map printedDigits = ["00a1", "f00d"] ∧
        (rows text).dropLast = ["00a1", "f00d"] := by
  intro p
  have hlabels : p.LabelsFitLines := by decide
  obtain ⟨⟨-, hbytes⟩, ⟨text, htext, -, -, -, hrows⟩, -⟩ := formats_agree p p "zeros" "zeros"
  have hshown : ((rows p.listing).filter isWordRow).map printedDigits = ["00a1", "f00d"] := by
    decide +kernel
  exact ⟨hlabels, hbytes, text, htext, hshown, (hrows hlabels).symm.trans hshown⟩

end Program

end PioAssembler
