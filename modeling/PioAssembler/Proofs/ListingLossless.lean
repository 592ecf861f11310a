import PioAssembler.Proofs.FirstDefinition
import PioAssembler.Proofs.ListingText
import PioAssembler.Program.Image

/-!
# What a listing tells

A line of a listing says nothing about addresses, apart from those of the words; the rest follows from
where it stands. `Listing.numbered` gives each line the number of words above it, and
`Program.mem_numbered_lines` says which lines a program has and where.

* `Program.sameListed_of_lines_eq`: programs with the same lines differ in nothing that is listed,
* `Program.Regular.nodup_lines`: no line of a listing stands there twice,
* `Source.listing_lossless`: both, for the text of programs that were built.
-/

namespace PioAssembler

namespace Listing

/-! ### Lines and the words above them -/

/-- Whether a line shows a word. -/
def Line.isWord : Line → Bool
  | .word .. => true
  | _ => false

/-- The lines, each with the number of words above it. -/
def numbered (above : Nat) : List Line → List (Nat × Line)
  | [] => []
  | line :: rest => (above, line) :: numbered (if line.isWord then above + 1 else above) rest

/-- The words of some lines stand above the lines that follow. -/
theorem numbered_append (above : Nat) (lines rest : List Line) :
    numbered above (lines ++ rest)
      = numbered above lines ++ numbered (above + lines.countP Line.isWord) rest := by
  induction lines generalizing above with
  | nil => rfl
  | cons line lines ih =>
    rw [List.cons_append, numbered, numbered, ih, List.countP_cons, List.cons_append]
    split
    · next hword => rw [Nat.add_assoc, Nat.add_comm 1]
    · next hword => rfl

/-- Lines without a word all have the same words above them. -/
theorem numbered_of_countP_eq_zero {lines : List Line} (h : lines.countP Line.isWord = 0) (above : Nat) :
    numbered above lines = lines.map (above, ·) := by
  induction lines with
  | nil => rfl
  | cons line lines ih =>
    rw [List.countP_eq_zero] at h
    rw [numbered, if_neg (h line List.mem_cons_self), List.map_cons, ih]
    rw [List.countP_eq_zero]
    exact fun l hl => h l (List.mem_cons_of_mem _ hl)

theorem map_snd_numbered (above : Nat) (lines : List Line) :
    (numbered above lines).map Prod.snd = lines := by
  induction lines generalizing above with
  | nil => rfl
  | cons line lines ih => rw [numbered, List.map_cons, ih]

end Listing

namespace Program

open Listing

variable {p q : Program}

/-! ### The lines of a program -/

/-- The lines about the word at a position, each with the number of words above it. -/
inductive LineAt (p : Program) (position : Nat) (w : Word) : Nat → Line → Prop where
  | wrapTarget (here : UInt8.ofNat position = p.wrapTarget) : LineAt p position w position .wrapTarget
  | label {name : String} (here : (name, UInt8.ofNat position) ∈ p.symbols) :
      LineAt p position w position (.label name)
  | word : LineAt p position w position (.word (UInt8.ofNat position) w)
  | wrap (here : UInt8.ofNat position = p.wrap) : LineAt p position w (position + 1) .wrap

/-- The lines of a program, each with the number of words above it. -/
inductive Shows (p : Program) : Nat → Line → Prop where
  | sideSet (enabled : p.sideSet.enabled = true) : Shows p 0 (.sideSet p.sideSet)
  | about {position above : Nat} {w : Word} {line : Line} (word : p.words[position]? = some w)
      (here : p.LineAt position w above line) : Shows p above line

/-- The lines that stand between a word and the one before it, or at the top. -/
def linesAbove (p : Program) (addr : Addr) : List Line :=
  (if addr = p.wrapTarget then [.wrapTarget] else []) ++ (p.labelsAt addr).map .label

/-- The lines that belong to a word and stand under it. -/
def linesBelow (p : Program) (addr : Addr) : List Line := if addr = p.wrap then [.wrap] else []

theorem linesAt_eq (p : Program) (position : Nat) (w : Word) :
    p.linesAt position w = p.linesAbove (UInt8.ofNat position)
      ++ .word (UInt8.ofNat position) w :: p.linesBelow (UInt8.ofNat position) := by
  rw [linesAt, List.append_assoc]
  rfl

/-- Above a word stand the start of the wrap window and the labels of its address. -/
theorem mem_linesAbove {addr : Addr} {line : Line} :
    line ∈ p.linesAbove addr ↔
      (line = .wrapTarget ∧ addr = p.wrapTarget) ∨
        ∃ name, line = .label name ∧ (name, addr) ∈ p.symbols := by
  rw [linesAbove, List.mem_append]
  have hlabel : line ∈ (p.labelsAt addr).map Line.label ↔
      ∃ name, line = .label name ∧ (name, addr) ∈ p.symbols := by
    simp [labelsAt, eq_comm, and_comm]
  rw [hlabel]
  split
  · next here => simp [here]
  · next here => simp [here]

/-- Below a word stands the end of the wrap window. -/
theorem mem_linesBelow {addr : Addr} {line : Line} :
    line ∈ p.linesBelow addr ↔ line = .wrap ∧ addr = p.wrap := by
  rw [linesBelow]
  split
  · next here => simp [here]
  · next here => simp [here]

/-- No word stands between a word and the one before it. -/
theorem countP_linesAbove (p : Program) (addr : Addr) :
    (p.linesAbove addr).countP Line.isWord = 0 := by
  rw [List.countP_eq_zero]
  intro line hline
  rcases mem_linesAbove.mp hline with ⟨rfl, -⟩ | ⟨name, rfl, -⟩
  · decide
  · simp [Line.isWord]

theorem countP_linesBelow (p : Program) (addr : Addr) :
    (p.linesBelow addr).countP Line.isWord = 0 := by
  rw [List.countP_eq_zero]
  intro line hline
  obtain ⟨rfl, -⟩ := mem_linesBelow.mp hline
  decide

/-- The lines about a word hold one word. -/
theorem countP_linesAt (p : Program) (position : Nat) (w : Word) :
    (p.linesAt position w).countP Line.isWord = 1 := by
  rw [linesAt_eq, List.countP_append, countP_linesAbove, List.countP_cons, countP_linesBelow]
  rfl

/-- Of the lines about a word only those below it have the word above them. -/
theorem numbered_linesAt (p : Program) (position : Nat) (w : Word) :
    numbered position (p.linesAt position w)
      = (p.linesAbove (UInt8.ofNat position)).map (position, ·)
        ++ (position, .word (UInt8.ofNat position) w)
        :: (p.linesBelow (UInt8.ofNat position)).map (position + 1, ·) := by
  rw [linesAt_eq, numbered_append, numbered_of_countP_eq_zero (p.countP_linesAbove _),
    countP_linesAbove, numbered, numbered_of_countP_eq_zero (p.countP_linesBelow _)]
  rfl

/-- Which lines there are about a word, and how many words stand above them. -/
theorem mem_numbered_linesAt {position above : Nat} {w : Word} {line : Line} :
    (above, line) ∈ numbered position (p.linesAt position w) ↔ p.LineAt position w above line := by
  rw [numbered_linesAt, List.mem_append, List.mem_cons]
  simp only [List.mem_map, Prod.mk.injEq, mem_linesAbove, mem_linesBelow]
  constructor
  · rintro (⟨_, ⟨rfl, here⟩ | ⟨name, rfl, here⟩, rfl, rfl⟩ | ⟨rfl, rfl⟩ | ⟨_, ⟨rfl, here⟩, rfl, rfl⟩)
    · exact .wrapTarget here
    · exact .label here
    · exact .word
    · exact .wrap here
  · intro h
    cases h with
    | wrapTarget here => simp [here]
    | label here => simp [here]
    | word => simp
    | wrap here => simp [here]

/-- Before the lines about a word stand those about the words before it. -/
theorem numbered_flatten (p : Program) (words : List Word) :
    numbered 0 (words.mapIdx fun position w => p.linesAt position w).flatten
        = (words.mapIdx fun position w => numbered position (p.linesAt position w)).flatten ∧
      ((words.mapIdx fun position w => p.linesAt position w).flatten).countP Line.isWord
        = words.length := by
  induction words using List.reverseRecOn with
  | nil => exact ⟨rfl, rfl⟩
  | append_singleton words w ih =>
    obtain ⟨hnumbered, hcount⟩ := ih
    simp only [List.mapIdx_concat, List.flatten_append, List.flatten_singleton]
    rw [numbered_append, hnumbered, List.countP_append, hcount, Nat.zero_add, countP_linesAt,
      List.length_append, List.length_singleton]
    exact ⟨rfl, rfl⟩

/-- **Which lines a listing has, and where they stand.** -/
theorem mem_numbered_lines {above : Nat} {line : Line} :
    (above, line) ∈ numbered 0 p.lines ↔ p.Shows above line := by
  have hhead : ((if p.sideSet.enabled then [Line.sideSet p.sideSet] else []) : List Line).countP
      Line.isWord = 0 := by
    split <;> rfl
  -- the line in front shows no word, so the blocks are numbered from zero
  rw [lines, numbered_append, numbered_of_countP_eq_zero hhead, hhead, Nat.add_zero,
    (p.numbered_flatten p.words).1, List.mem_append]
  constructor
  · rintro (hside | hword)
    · split at hside
      · next enabled =>
        cases List.mem_singleton.mp hside
        exact .sideSet enabled
      · cases hside
    · obtain ⟨block, hblock, hmem⟩ := List.mem_flatten.mp hword
      obtain ⟨position, hlt, rfl⟩ := List.mem_mapIdx.mp hblock
      exact .about (List.getElem?_eq_getElem hlt) (mem_numbered_linesAt.mp hmem)
  · intro h
    cases h with
    | sideSet enabled => exact .inl (by simp [enabled])
    | about hword hline =>
      obtain ⟨hlt, rfl⟩ := List.getElem?_eq_some_iff.mp hword
      refine .inr (List.mem_flatten.mpr ⟨_, List.mem_mapIdx.mpr ⟨_, hlt, rfl⟩, ?_⟩)
      exact mem_numbered_linesAt.mpr hline

/-- A listing has the lines that the program shows somewhere. -/
theorem mem_lines {line : Line} : line ∈ p.lines ↔ ∃ above, p.Shows above line := by
  rw [← map_snd_numbered 0 p.lines, List.mem_map]
  simp only [Prod.exists, mem_numbered_lines, exists_eq_right]

/-! ### Programs that were built -/

/-- What building sees to: the words can be told apart by their addresses, the window is inside, and no
label has two addresses. -/
structure Regular (p : Program) : Prop where
  length_le : p.words.length ≤ 256
  wrapTarget_lt : p.wrapTarget.toNat < p.words.length
  wrap_lt : p.wrap.toNat < p.words.length
  ordered : p.symbols.Ordered

/-- Two programs differ in nothing that is listed: not in the labels of their words, and in their
configuration only if neither has side-set. -/
structure SameListed (p q : Program) : Prop where
  words : p.words = q.words
  wrapTarget : p.wrapTarget = q.wrapTarget
  wrap : p.wrap = q.wrap
  symbols : p.symbols.filter (fun entry => entry.2.toNat < p.words.length)
    = q.symbols.filter (fun entry => entry.2.toNat < q.words.length)
  enabled : p.sideSet.enabled = q.sideSet.enabled
  sideSet : p.sideSet.enabled = true → p.sideSet = q.sideSet

/-- The word at an address is shown by its line. -/
theorem shows_word_iff {position : Nat} {w : Word} :
    p.Shows position (.word (UInt8.ofNat position) w) ↔ p.words[position]? = some w := by
  constructor
  · rintro (_ | ⟨hword, hline⟩)
    cases hline
    exact hword
  · intro hword
    exact .about hword .word

/-- A configuration is shown at the top, if there is side-set. -/
theorem shows_sideSet_iff {above : Nat} {ss : SideSet} :
    p.Shows above (.sideSet ss) ↔ above = 0 ∧ p.sideSet.enabled = true ∧ ss = p.sideSet := by
  constructor
  · rintro (enabled | ⟨_, hline⟩)
    · exact ⟨rfl, enabled, rfl⟩
    · cases hline
  · rintro ⟨rfl, enabled, rfl⟩
    exact .sideSet enabled

/-- The start of the wrap window is shown above its word. -/
theorem shows_wrapTarget_iff {position : Nat} :
    p.Shows position .wrapTarget ↔
      position < p.words.length ∧ UInt8.ofNat position = p.wrapTarget := by
  constructor
  · rintro (_ | ⟨hword, hline⟩)
    cases hline with
    | wrapTarget here => exact ⟨(List.getElem?_eq_some_iff.mp hword).1, here⟩
  · rintro ⟨hlt, here⟩
    exact .about (List.getElem?_eq_getElem hlt) (.wrapTarget here)

/-- The end of the wrap window is shown below its word. -/
theorem shows_wrap_iff {position : Nat} :
    p.Shows (position + 1) .wrap ↔ position < p.words.length ∧ UInt8.ofNat position = p.wrap := by
  constructor
  · rintro (_ | ⟨hword, hline⟩)
    cases hline with
    | wrap here => exact ⟨(List.getElem?_eq_some_iff.mp hword).1, here⟩
  · rintro ⟨hlt, here⟩
    exact .about (List.getElem?_eq_getElem hlt) (.wrap here)

/-- A label is shown above the word at its address. -/
theorem shows_label_iff {position : Nat} {name : String} :
    p.Shows position (.label name) ↔
      position < p.words.length ∧ (name, UInt8.ofNat position) ∈ p.symbols := by
  constructor
  · rintro (_ | ⟨hword, hline⟩)
    cases hline with
    | label here => exact ⟨(List.getElem?_eq_some_iff.mp hword).1, here⟩
  · rintro ⟨hlt, here⟩
    exact .about (List.getElem?_eq_getElem hlt) (.label here)

/-- **Programs with the same lines differ in nothing that is listed.** -/
theorem sameListed_of_lines_eq (hp : p.Regular) (hq : q.Regular) (h : p.lines = q.lines) :
    p.SameListed q := by
  have hshows : ∀ {above line}, p.Shows above line ↔ q.Shows above line := by
    intro above line
    rw [← mem_numbered_lines, ← mem_numbered_lines, h]
  have hwords : p.words = q.words := by
    apply List.ext_getElem?
    intro position
    apply Option.ext
    intro w
    rw [← shows_word_iff, hshows, shows_word_iff]
  refine ⟨hwords, ?_, ?_, ?_, ?_, ?_⟩
  · have hhere : p.Shows p.wrapTarget.toNat .wrapTarget :=
      shows_wrapTarget_iff.mpr ⟨hp.wrapTarget_lt, UInt8.ofNat_toNat⟩
    rw [hshows, shows_wrapTarget_iff, UInt8.ofNat_toNat] at hhere
    exact hhere.2
  · have hhere : p.Shows (p.wrap.toNat + 1) .wrap :=
      shows_wrap_iff.mpr ⟨hp.wrap_lt, UInt8.ofNat_toNat⟩
    rw [hshows, shows_wrap_iff, UInt8.ofNat_toNat] at hhere
    exact hhere.2
  · -- both are in order, and they have the same entries
    have hp' := hp.ordered.filter fun entry => entry.2.toNat < p.words.length
    have hq' := hq.ordered.filter fun entry => entry.2.toNat < q.words.length
    refine SymbolTable.Ordered.eq_of_mem_iff hp' hq' ?_
    rintro ⟨name, addr⟩
    have hlabel : p.Shows addr.toNat (.label name) ↔ q.Shows addr.toNat (.label name) := hshows
    rw [shows_label_iff, shows_label_iff, UInt8.ofNat_toNat] at hlabel
    simp only [List.mem_filter, decide_eq_true_eq]
    rw [and_comm, hlabel, and_comm]
  · rw [Bool.eq_iff_iff]
    constructor
    · intro enabled
      exact (shows_sideSet_iff.mp (hshows.mp (.sideSet enabled))).2.1
    · intro enabled
      exact (shows_sideSet_iff.mp (hshows.mpr (.sideSet enabled))).2.1
  · intro enabled
    exact (shows_sideSet_iff.mp (hshows.mp (.sideSet enabled))).2.2

/-! ### No line twice -/

theorem mem_linesAt {position : Nat} {w : Word} {line : Line} :
    line ∈ p.linesAt position w ↔ ∃ above, p.LineAt position w above line := by
  rw [← map_snd_numbered position (p.linesAt position w), List.mem_map]
  simp only [Prod.exists, mem_numbered_linesAt, exists_eq_right]

/-- A line is about one word only. -/
theorem Regular.eq_of_mem_linesAt (h : p.Regular) {i j : Nat} {w w' : Word} {line : Line}
    (hi : i < p.words.length) (hj : j < p.words.length) (hline : line ∈ p.linesAt i w)
    (hline' : line ∈ p.linesAt j w') : i = j := by
  have hbound := h.length_le
  have hofNat : UInt8.ofNat i = UInt8.ofNat j → i = j := by
    intro heq
    rwa [← UInt8.toNat_inj, UInt8.toNat_ofNat', UInt8.toNat_ofNat', Nat.mod_eq_of_lt (by omega),
      Nat.mod_eq_of_lt (by omega)] at heq
  obtain ⟨above, hat⟩ := mem_linesAt.mp hline
  obtain ⟨above', hat'⟩ := mem_linesAt.mp hline'
  -- each kind of line tells the address that it stands at: by the window, the table or its own column
  cases hat with
  | wrapTarget here =>
    cases hat' with
    | wrapTarget here' => exact hofNat (here.trans here'.symm)
  | label here =>
    cases hat' with
    | label here' =>
      have hnames := h.ordered.nodup_names
      have hfound := (SymbolTable.find?_eq_some_iff hnames).mpr here
      rw [(SymbolTable.find?_eq_some_iff hnames).mpr here'] at hfound
      exact hofNat (Option.some.inj hfound).symm
  | word =>
    generalize haddr : UInt8.ofNat i = addr at hat'
    cases hat' with
    | word => exact hofNat haddr
  | wrap here =>
    cases hat' with
    | wrap here' => exact hofNat (here.trans here'.symm)

theorem Regular.nodup_labelsAt (h : p.Regular) (addr : Addr) : (p.labelsAt addr).Nodup :=
  h.ordered.nodup_names.sublist (List.Sublist.map Prod.fst List.filter_sublist)

/-- No line about a word stands there twice. -/
theorem Regular.nodup_linesAt (h : p.Regular) (position : Nat) (w : Word) :
    (p.linesAt position w).Nodup := by
  have hlabels : ((p.labelsAt (UInt8.ofNat position)).map Line.label).Nodup :=
    (h.nodup_labelsAt _).map fun _ _ heq => Line.label.inj heq
  rw [linesAt_eq, linesAbove, linesBelow]
  split <;> split <;> simp [List.nodup_append, List.nodup_cons, hlabels]

/-- **No line of a listing stands there twice.** -/
theorem Regular.nodup_lines (h : p.Regular) : p.lines.Nodup := by
  rw [lines, List.nodup_append]
  refine ⟨?_, ?_, ?_⟩
  · split <;> simp
  · rw [List.nodup_flatten]
    refine ⟨?_, ?_⟩
    · intro block hblock
      obtain ⟨position, hlt, rfl⟩ := List.mem_mapIdx.mp hblock
      exact h.nodup_linesAt position _
    · rw [List.pairwise_iff_getElem]
      intro i j hi hj hij line hline hline'
      rw [List.length_mapIdx] at hi hj
      rw [List.getElem_mapIdx] at hline hline'
      exact absurd (h.eq_of_mem_linesAt hi hj hline hline') (Nat.ne_of_lt hij)
  · -- the configuration is not about a word
    intro line hline line' hline' heq
    subst heq
    split at hline
    · cases List.mem_singleton.mp hline
      obtain ⟨block, hblock, hmem⟩ := List.mem_flatten.mp hline'
      obtain ⟨position, hlt, rfl⟩ := List.mem_mapIdx.mp hblock
      obtain ⟨above, hat⟩ := mem_linesAt.mp hmem
      cases hat
    · cases hline

/-! ### The text -/

/-- No label breaks its line. -/
abbrev LabelsFitLines (p : Program) : Prop := ∀ entry ∈ p.symbols, '\n' ∉ entry.1.toList

/-- As long as no label breaks its line, the rows of a listing are its lines. -/
theorem rows_listing (h : p.LabelsFitLines) : rows p.listing = p.lines.map Line.text ++ [""] := by
  have hlines : ∀ row ∈ p.lines.map Line.text, '\n' ∉ row.toList := by
    intro row hrow
    obtain ⟨line, hline, rfl⟩ := List.mem_map.mp hrow
    apply Line.newline_not_mem_text
    rintro name rfl
    obtain ⟨above, hshows⟩ := mem_lines.mp hline
    exact h _ (shows_label_iff.mp hshows).2
  rw [← rows_join hlines, List.map_map]
  rfl

/-- The rows of a listing say which lines it has. -/
theorem lines_eq_of_rows_eq (hp : p.LabelsFitLines) (hq : q.LabelsFitLines)
    (h : rows p.listing = rows q.listing) : p.lines = q.lines := by
  rw [rows_listing hp, rows_listing hq, List.append_cancel_right_eq] at h
  exact List.map_injective_iff.mpr (fun _ _ => Line.text_inj.mp) h

/-- The text of a program under its name: the name is the first row, and the listing the others. -/
theorem rows_renderText {name : String} (h : '\n' ∉ name.toList) (p : Program) :
    rows (p.renderText name) = ("; " ++ name) :: rows p.listing := by
  refine rows_line_append ?_ p.listing
  rw [String.toList_append, List.mem_append, not_or]
  exact ⟨by decide, h⟩

/-- The rows of the text of a program below the one with its name. -/
def rowsBelow (p : Program) (name : String) : List String := (rows (p.renderText name)).tail

/-- Each word, each label of a word and the two ends of the window have one row of the text below the
name. -/
structure ListedOnce (p : Program) (name : String) : Prop where
  wrapTarget : (p.rowsBelow name).count ".wrap_target" = 1
  wrap : (p.rowsBelow name).count ".wrap" = 1
  word : ∀ position w, p.words[position]? = some w →
    (p.rowsBelow name).count (Line.word (UInt8.ofNat position) w).text = 1
  label : ∀ label addr, (label, addr) ∈ p.symbols → addr.toNat < p.words.length →
    (p.rowsBelow name).count (label ++ ":") = 1

/-- Every line of a program has one row of the text below the name: lines that differ have different
texts, and the end of the text is no line. -/
theorem Regular.count_rows (h : p.Regular) (hlabels : p.LabelsFitLines) {name : String}
    (hname : '\n' ∉ name.toList) {line : Line} (hline : line ∈ p.lines) :
    (p.rowsBelow name).count line.text = 1 := by
  have hnodup : (p.lines.map Line.text).Nodup := h.nodup_lines.map fun _ _ => Line.text_inj.mp
  have hlast : [""].count line.text = 0 :=
    List.count_eq_zero.mpr fun hmem => line.text_ne_empty (List.mem_singleton.mp hmem)
  rw [rowsBelow, rows_renderText hname, List.tail_cons, rows_listing hlabels, List.count_append, hlast,
    List.count_eq_one_of_mem hnodup (List.mem_map_of_mem hline)]

/-- Words, labels and the ends of the window have lines, and each line has one row. -/
theorem Regular.listedOnce (h : p.Regular) (hlabels : p.LabelsFitLines) {name : String}
    (hname : '\n' ∉ name.toList) : p.ListedOnce name where
  wrapTarget := by
    have hshows : p.Shows p.wrapTarget.toNat .wrapTarget :=
      shows_wrapTarget_iff.mpr ⟨h.wrapTarget_lt, UInt8.ofNat_toNat⟩
    exact h.count_rows hlabels hname (mem_lines.mpr ⟨_, hshows⟩)
  wrap := by
    have hshows : p.Shows (p.wrap.toNat + 1) .wrap :=
      shows_wrap_iff.mpr ⟨h.wrap_lt, UInt8.ofNat_toNat⟩
    exact h.count_rows hlabels hname (mem_lines.mpr ⟨_, hshows⟩)
  word := by
    intro position w hword
    exact h.count_rows hlabels hname (mem_lines.mpr ⟨_, shows_word_iff.mpr hword⟩)
  label := by
    intro label addr hmem hlt
    have hshows : p.Shows addr.toNat (.label label) := by
      rw [shows_label_iff, UInt8.ofNat_toNat]
      exact ⟨hlt, hmem⟩
    exact h.count_rows hlabels hname (mem_lines.mpr ⟨_, hshows⟩)

end Program

/-! ### What a text tells -/

namespace Source

open Program

/-- Programs that were built are regular. -/
theorem regular_of_build {source : Source} {p : Program} (h : source.build = .ok p) : p.Regular := by
  obtain ⟨hb, rfl⟩ := build_eq_ok_iff.mp h
  have hcap : source.count ≤ 32 := source.count_le_capacity
  have hlength : source.image.words.length = source.count :=
    (List.length_map ..).trans source.length_operations
  have hwrap : source.wrap < source.count := wrap_lt_count hb.nonempty
  refine ⟨?_, ?_, ?_, source.ordered_symbols⟩
  · omega
  · show (UInt8.ofNat source.wrapTarget).toNat < _
    have hwindow := hb.window
    rw [source.wrapTarget_toNat]
    omega
  · show (UInt8.ofNat source.wrap).toNat < _
    rw [wrap_toNat hb.nonempty]
    omega

/-- **A listing loses nothing that it prints.** From the text one can tell the name, the words, the wrap
window, the labels of the words and the side-set configuration if there is one, however the labels are
spelled, as long as neither they nor the name contain a line feed. -/
theorem listing_lossless (source source' : Source) (p q : Program) (name name' : String)
    (hp : source.build = .ok p) (hq : source'.build = .ok q)
    (hname : '\n' ∉ name.toList) (hname' : '\n' ∉ name'.toList)
    (hlabels : ∀ entry ∈ p.symbols, '\n' ∉ entry.1.toList)
    (hlabels' : ∀ entry ∈ q.symbols, '\n' ∉ entry.1.toList) :
    (p.render name .text = q.render name' .text → name = name' ∧ p.SameListed q) ∧
      p.ListedOnce name := by
  have hregular := regular_of_build hp
  refine ⟨?_, hregular.listedOnce hlabels hname⟩
  intro hbytes
  have htext : p.renderText name = q.renderText name' := String.toByteArray_inj.mp hbytes
  have hrows := congrArg Listing.rows htext
  rw [rows_renderText hname, rows_renderText hname'] at hrows
  -- the first row has the name, the rows below it have the rest
  obtain ⟨hfirst, hlisting⟩ := List.cons.inj hrows
  refine ⟨?_, ?_⟩
  · have hchars := congrArg String.toList hfirst
    rw [String.toList_append, String.toList_append, List.append_cancel_left_eq] at hchars
    exact String.toList_inj.mp hchars
  · exact sameListed_of_lines_eq hregular (regular_of_build hq)
      (lines_eq_of_rows_eq hlabels hlabels' hlisting)

/-- A label behind the last word leaves no trace in the text, and one that is spelled like a directive
is not taken for it. -/
theorem listing_lossless_past_end :
    let source : Source := [.label ".wrap", .label "", .instruction (.jmp .always ".wrap")]
    let p : Program := ⟨[0#16], 0, 0, {}, [("", 0), (".wrap", 0)]⟩
    let q : Program := ⟨[0#16], 0, 0, {}, [("", 0), (".wrap", 0), ("end", 1)]⟩
    source.build = .ok p ∧ build (source ++ [.label "end"]) = .ok q ∧
      p.render "jump:" .text = q.render "jump:" .text ∧ p.SameListed q ∧ p.ListedOnce "jump:" := by
  intro source p q
  have hp : source.build = .ok p := by decide +kernel
  have hq : build (source ++ [.label "end"]) = .ok q := by decide +kernel
  have htext : p.render "jump:" .text = q.render "jump:" .text := by decide +kernel
  have htells := listing_lossless _ _ p q "jump:" "jump:" hp hq (by decide) (by decide) (by decide)
    (by decide)
  exact ⟨hp, hq, htext, (htells.1 htext).2, htells.2⟩

end Source

end PioAssembler
