import PioAssembler.Proofs.Correspondence

/-!
# The image of a source

`Source.image` is the program that a source describes: the words of its operations, every jump with
the address of its label, between the ends of the wrap window. `Source.Buildable` says when there is
such a program.

* `Source.build_eq_ok_iff`: building succeeds exactly if the source is buildable, and then gives its
  image.
* `Source.describes_of_build`: each word of a program that was built is the sum of its fields, a
  jump's low field being the address of its label.
-/

namespace PioAssembler

namespace Source

/-- The operation with the address of its label. -/
def locate (source : Source) (op : Operation String) : Operation Nat :=
  op.map fun name => (source.address name).getD 0

/-- The program that a source describes. -/
def image (source : Source) : Program where
  words := source.operations.map fun op => (source.locate op).word source.sideSet
  wrapTarget := UInt8.ofNat source.wrapTarget
  wrap := UInt8.ofNat source.wrap
  sideSet := source.sideSet
  symbols := source.draft.labels.symbols

/-- There is something to build, nothing mandatory is missing, every jump has a target inside the
program, and the wrap window is not inside out. -/
structure Buildable (source : Source) : Prop where
  nonempty : source.count ≠ 0
  sided : ¬ source.sideSet.MayOmit → ∀ op ∈ source.operations, op.side.isSome
  located : ∀ op ∈ source.operations, ∀ name ∈ op.instruction.target?,
    ∃ a, source.address name = some a ∧ a < source.count
  window : source.wrapTarget ≤ source.wrap

/-! ### Bounds -/

theorem count_le_append (before rest : Source) : count before ≤ count (before ++ rest) := by
  rw [count, count, accepted, accepted, Session.accepted_append, List.countP_append]
  exact Nat.le_add_right _ _

theorem count_le_of_prefix {before source : Source} (h : before <+: source) :
    before.count ≤ source.count := by
  obtain ⟨rest, rfl⟩ := h
  exact count_le_append before rest

theorem count_eq (source : Source) : source.draft.count = source.count :=
  source.reflects_draft.code.length_operations.symm.trans source.length_operations

/-- No more instructions are accepted than the memory holds. -/
theorem count_le_capacity (source : Source) : source.count ≤ capacity := by
  rw [← source.count_eq]
  exact source.consistent_draft.count_le

/-- There are few enough instructions for their positions to be addresses. -/
theorem toNat_ofNat_position {source : Source} {position : Nat} {op : Operation String}
    (h : source.operations[position]? = some op) : (UInt8.ofNat position).toNat = position := by
  have hlt : position < source.operations.length := (List.getElem?_eq_some_iff.mp h).1
  rw [source.length_operations] at hlt
  exact toNat_ofNat_of_le (hlt.le.trans source.count_le_capacity)

/-- A label stands at an instruction, or behind the last one. -/
theorem address_le_count {source : Source} {name : String} {a : Nat}
    (h : source.address name = some a) : a ≤ source.count := by
  rw [address] at h
  split at h
  · cases h
    exact count_le_of_prefix (List.takeWhile_prefix _)
  · cases h

theorem wrapTarget_le_count (source : Source) : source.wrapTarget ≤ source.count :=
  count_le_of_prefix (List.rdropWhile_prefix _ _)

theorem wrapEnd_le_count (source : Source) : source.wrapEnd ≤ source.count :=
  count_le_of_prefix (List.rdropWhile_prefix _ _)

/-- The wrap window ends at an instruction. -/
theorem wrap_lt_count {source : Source} (h : source.count ≠ 0) : source.wrap < source.count := by
  have hle := source.wrapEnd_le_count
  rw [wrap]
  split <;> omega

/-- The configuration of the draft is the one that was accepted. -/
theorem effectiveSideSet_eq (source : Source) : source.draft.effectiveSideSet = source.sideSet := by
  rw [Draft.effectiveSideSet, source.reflects_draft.code.sideSet]
  rfl

/-- The configuration that was accepted fits. -/
theorem sideSet_fits (source : Source) : source.sideSet.Fits := by
  rw [← source.effectiveSideSet_eq]
  exact source.consistent_draft.effectiveSideSet_fits

/-- What was accepted is in range, qualifiers included. -/
theorem valid_of_mem {source : Source} {op : Operation String} (h : op ∈ source.operations) :
    op.Valid source.sideSet := by
  rw [← source.effectiveSideSet_eq]
  exact source.reflects_draft.code.valid op h

/-- The words of the draft are those of the operations, jumps without their targets. -/
theorem words_draft (source : Source) :
    source.draft.words = source.operations.map fun op => (op.map fun _ => 0).word source.sideSet := by
  rw [Draft.words, source.reflects_draft.code.slots, List.map_map, source.effectiveSideSet_eq]
  rfl

theorem effectiveWrap_eq (source : Source) :
    source.draft.effectiveWrap = UInt8.ofNat source.wrap := by
  rw [Draft.effectiveWrap, source.reflects_draft.marks.wrap, wrap, source.count_eq]
  split <;> rfl

/-! ### Giving jumps their targets -/

end Source

namespace Labels

/-- What a resolution makes of a word depends on its fate alone. -/
theorem getElem?_words_resolve (labels : Labels) (words : List Word) (position : Nat) :
    (labels.resolve words).words[position]?
      = words[position]?.map fun w => (labels.fate words.length w position).apply w := by
  simp only [resolve, List.getElem?_map, List.getElem?_mapIdx, Option.map_map]
  rfl

/-- A resolution succeeds exactly if no fate is a complaint. -/
theorem check_resolve_eq_ok_iff {labels : Labels} {words : List Word} :
    (labels.resolve words).check = .ok () ↔
      ∀ position w, words[position]? = some w →
        (labels.fate words.length w position).badJump? = none := by
  have hcheck : (labels.resolve words).check = .ok () ↔ (labels.resolve words).badJumps = [] := by
    unfold Resolution.check
    split
    · next hnil => simpa using hnil
    · next hne => simpa using hne
  rw [hcheck]
  simp only [resolve, List.filterMap_eq_nil_iff, List.mem_mapIdx]
  constructor
  · intro h position w hw
    obtain ⟨hlt, rfl⟩ := List.getElem?_eq_some_iff.mp hw
    exact h _ ⟨position, hlt, rfl⟩
  · rintro h _ ⟨position, hlt, rfl⟩
    exact h position _ (List.getElem?_eq_getElem hlt)

end Labels

namespace Source

theorem opcode_eq_jmp_iff {τ : Type} {i : Instruction τ} : i.opcode = .jmp ↔ i.target?.isSome := by
  cases i <;> simp [Instruction.opcode, Instruction.target?]

/-- What becomes of a word depends on its operation and on the address of the label it names. -/
theorem fate_eq {source : Source} {position : Nat} {op : Operation String}
    (h : source.operations[position]? = some op) :
    source.draft.labels.fate source.count ((op.map fun _ => 0).word source.sideSet) position =
      match op.instruction.target? with
      | none => .kept
      | some name =>
          match source.address name with
          | none => .bad ⟨UInt8.ofNat position, name, .undefined⟩
          | some a =>
              if a < source.count then .bound (UInt8.ofNat position) name (UInt8.ofNat a)
              else .bad ⟨UInt8.ofNat position, name, .pastEnd (UInt8.ofNat a)⟩ := by
  have hcap := source.count_le_capacity
  have hop : Word.opcode ((op.map fun _ => 0).word source.sideSet) = op.instruction.opcode := by
    rw [Operation.opcode_word, Operation.map, Instruction.opcode_map]
  have hawaited : source.draft.labels.awaited (UInt8.ofNat position) = op.instruction.target? := by
    rw [source.reflects_draft.code.awaited, toNat_ofNat_position h]
    show source.operations[position]?.bind _ = _
    rw [h]
    rfl
  -- a jump always waits for its label, so the case of one that does not never arises
  simp only [Labels.fate, hop, hawaited]
  cases ht : op.instruction.target? with
  | none =>
    have hne : op.instruction.opcode ≠ .jmp := by
      rw [Ne, opcode_eq_jmp_iff, ht]
      decide
    rw [if_neg hne]
  | some name =>
    have heq : op.instruction.opcode = .jmp := by
      rw [opcode_eq_jmp_iff, ht]
      rfl
    rw [if_pos heq]
    simp only [source.reflects_draft.marks.lookup name]
    cases ha : source.address name with
    | none => rfl
    | some a =>
      have hle := address_le_count ha
      simp only [Option.map_some]
      rw [toNat_ofNat_of_le (by omega)]

/-- There is no complaint about an operation exactly if its label has an address inside the program. -/
theorem badJump?_fate_eq_none_iff {source : Source} {position : Nat} {op : Operation String}
    (h : source.operations[position]? = some op) :
    (source.draft.labels.fate source.count ((op.map fun _ => 0).word source.sideSet)
        position).badJump? = none ↔
      ∀ name ∈ op.instruction.target?, ∃ a, source.address name = some a ∧ a < source.count := by
  rw [fate_eq h]
  cases op.instruction.target? with
  | none => simp [Labels.Fate.badJump?]
  | some name =>
    cases ha : source.address name with
    | none => simp [Labels.Fate.badJump?, ha]
    | some a =>
      by_cases hlt : a < source.count
      · simp [Labels.Fate.badJump?, ha, hlt]
      · simp [Labels.Fate.badJump?, ha, hlt]

/-- A jump whose label has an address inside the program becomes the jump to that address. -/
theorem apply_fate {source : Source} {position : Nat} {op : Operation String}
    (h : source.operations[position]? = some op)
    (hloc : ∀ name ∈ op.instruction.target?, ∃ a, source.address name = some a ∧ a < source.count) :
    (source.draft.labels.fate source.count ((op.map fun _ => 0).word source.sideSet) position).apply
      ((op.map fun _ => 0).word source.sideSet) = (source.locate op).word source.sideSet := by
  rw [fate_eq h]
  cases ht : op.instruction.target? with
  | none =>
    -- without a target there is nothing to locate
    have hsame : op.map (fun _ => 0) = source.locate op := by
      rw [locate, Operation.map, Operation.map]
      rw [Instruction.map_congr]
      rw [ht]
      intro name hname
      cases hname
    show (op.map fun _ => 0).word source.sideSet = _
    rw [hsame]
  | some name =>
    obtain ⟨a, ha, hlt⟩ := hloc name ht
    have hcap := source.count_le_capacity
    have hsame : op.map (fun _ => a) = source.locate op := by
      rw [locate, Operation.map, Operation.map]
      rw [Instruction.map_congr]
      rw [ht]
      intro other hother
      cases hother
      rw [ha]
      rfl
    simp only [ha, if_pos hlt, Labels.Fate.apply]
    rw [Operation.withTarget_word _ (by rw [ht]; rfl), toNat_ofNat_of_le (by omega), hsame]

/-! ### Building -/

/-- A resolution succeeds exactly if every label that is jumped to has an address inside the program. -/
theorem check_resolve_iff {source : Source} :
    (source.draft.labels.resolve source.draft.words).check = .ok () ↔
      ∀ op ∈ source.operations, ∀ name ∈ op.instruction.target?,
        ∃ a, source.address name = some a ∧ a < source.count := by
  rw [Labels.check_resolve_eq_ok_iff, source.words_draft, List.length_map, source.length_operations]
  constructor
  · intro h op hop
    obtain ⟨position, hlt, rfl⟩ := List.getElem_of_mem hop
    have hget := List.getElem?_eq_getElem hlt
    refine (badJump?_fate_eq_none_iff hget).mp (h position _ ?_)
    rw [List.getElem?_map, hget]
    rfl
  · intro h position w hw
    rw [List.getElem?_map] at hw
    obtain ⟨op, hget, rfl⟩ := Option.map_eq_some_iff.mp hw
    exact (badJump?_fate_eq_none_iff hget).mpr (h op (List.mem_of_getElem? hget))

/-- A resolution that succeeds gives the words of the image. -/
theorem words_resolve {source : Source}
    (hloc : ∀ op ∈ source.operations, ∀ name ∈ op.instruction.target?,
      ∃ a, source.address name = some a ∧ a < source.count) :
    (source.draft.labels.resolve source.draft.words).words = source.image.words := by
  apply List.ext_getElem?
  intro position
  rw [Labels.getElem?_words_resolve, source.words_draft, List.length_map, source.length_operations,
    List.getElem?_map, image, List.getElem?_map, Option.map_map]
  cases hget : source.operations[position]? with
  | none => rfl
  | some op =>
    exact congrArg some (apply_fate hget (hloc op (List.mem_of_getElem? hget)))

/-- No side-set value is missing exactly if every operation has one, or none needs it. -/
theorem firstUnsided?_eq_none_iff {source : Source} :
    source.draft.firstUnsided? = none ↔
      (¬ source.sideSet.MayOmit → ∀ op ∈ source.operations, op.side.isSome) := by
  have hslots := source.reflects_draft.code.slots
  rw [source.effectiveSideSet_eq] at hslots
  have hmay : (source.sideSet.enabled && !source.sideSet.optional) = true ↔
      ¬ source.sideSet.MayOmit := by
    rw [Bool.and_eq_true, SideSet.enabled_iff, SideSet.MayOmit, Nat.pos_iff_ne_zero]
    simp
  rw [Draft.firstUnsided?, source.effectiveSideSet_eq, hslots]
  split
  · next hmand =>
    simp only [hmay.mp hmand, not_false_eq_true, true_implies]
    rw [Option.map_eq_none_iff, List.findIdx?_eq_none_iff]
    simp [Operation.slot, operations]
  · next hmand =>
    simp only [true_iff]
    intro hmust
    exact absurd (hmay.mpr hmust) hmand

theorem wrapTarget_toNat (source : Source) :
    (UInt8.ofNat source.wrapTarget).toNat = source.wrapTarget :=
  toNat_ofNat_of_le (source.wrapTarget_le_count.trans source.count_le_capacity)

theorem wrap_toNat {source : Source} (h : source.count ≠ 0) :
    (UInt8.ofNat source.wrap).toNat = source.wrap :=
  toNat_ofNat_of_le ((wrap_lt_count h).le.trans source.count_le_capacity)

/-- The window is refused exactly if it is inside out: it never reaches behind the program. -/
theorem window_iff {source : Source} (h : source.count ≠ 0) :
    (source.draft.effectiveWrapTarget > source.draft.effectiveWrap ∨
        source.draft.count ≤ source.draft.effectiveWrap.toNat) ↔
      ¬ source.wrapTarget ≤ source.wrap := by
  have hlt := wrap_lt_count h
  rw [source.reflects_draft.marks.wrapTarget, source.effectiveWrap_eq, source.count_eq, gt_iff_lt,
    UInt8.lt_iff_toNat_lt, source.wrapTarget_toNat, wrap_toNat h]
  omega

/-- What building does, check by check. -/
theorem build_eq (source : Source) :
    source.build =
      if source.count = 0 then .error (.rejected .emptyProgram)
      else
        match source.draft.firstUnsided? with
        | some addr => .error (.rejected (.missingSideSet addr))
        | none =>
            let resolution := source.draft.labels.resolve source.draft.words
            match resolution.check with
            | .error e => .error (.rejected e)
            | .ok () =>
                if source.wrapTarget ≤ source.wrap then
                  .ok { source.image with words := resolution.words }
                else
                  .error (.rejected (.invalidWrap (UInt8.ofNat source.wrapTarget)
                    (UInt8.ofNat source.wrap) source.count)) := by
  rw [build, Session.attempt, Assembly.run_build]
  rw [show source.session.draft = source.draft from rfl, source.count_eq]
  by_cases hzero : source.count = 0
  · rw [if_pos hzero, if_pos hzero]
  · rw [if_neg hzero, if_neg hzero]
    cases source.draft.firstUnsided? with
    | some addr => rfl
    | none =>
      dsimp only
      cases (source.draft.labels.resolve source.draft.words).check with
      | error e => rfl
      | ok u =>
        -- of the two halves of the last check only the first can fail
        have hwindow := window_iff hzero
        dsimp only
        by_cases hle : source.wrapTarget ≤ source.wrap
        · rw [if_neg (mt hwindow.mp (not_not.mpr hle)), if_pos hle,
            source.reflects_draft.marks.wrapTarget, source.effectiveWrap_eq,
            source.effectiveSideSet_eq]
          rfl
        · rw [if_pos (hwindow.mpr hle), if_neg hle, source.reflects_draft.marks.wrapTarget,
            source.effectiveWrap_eq, source.count_eq]

/-- **A source that can be built gives its image, and no other source gives anything.** -/
theorem build_eq_ok_iff {source : Source} {p : Program} :
    source.build = .ok p ↔ source.Buildable ∧ p = source.image := by
  rw [build_eq]
  constructor
  · intro h
    split at h
    · cases h
    · next hzero =>
      split at h
      · cases h
      · next hside =>
        dsimp only at h
        split at h
        · cases h
        · next hcheck =>
          split at h
          · next hle =>
            -- all four checks have passed
            have hloc := check_resolve_iff.mp hcheck
            refine ⟨⟨hzero, firstUnsided?_eq_none_iff.mp hside, hloc, hle⟩, ?_⟩
            rw [words_resolve hloc] at h
            exact (Except.ok.inj h).symm
          · cases h
  · rintro ⟨hb, rfl⟩
    rw [if_neg hb.nonempty, firstUnsided?_eq_none_iff.mpr hb.sided]
    dsimp only
    rw [check_resolve_iff.mpr hb.located]
    dsimp only
    rw [if_pos hb.window, words_resolve hb.located]

/-! ### Words as sums of fields -/

namespace Buildable

variable {source : Source} {op : Operation String}

/-- The targets of a program that can be built are inside it. -/
theorem target_lt (hb : source.Buildable) (hop : op ∈ source.operations) :
    ∀ t ∈ (source.locate op).instruction.target?, t < source.count := by
  intro t ht
  rw [locate, Operation.map, Instruction.target?_map] at ht
  obtain ⟨name, hname, rfl⟩ := Option.map_eq_some_iff.mp ht
  obtain ⟨a, ha, hlt⟩ := hb.located op hop name hname
  rw [ha]
  exact hlt

/-- In a program that can be built every label that is jumped to has an address. -/
theorem map_address (hb : source.Buildable) (hop : op ∈ source.operations) :
    op.instruction.map source.address = (source.locate op).instruction.map some := by
  rw [locate, Operation.map, Instruction.map_map]
  apply Instruction.map_congr
  intro name hname
  obtain ⟨a, ha, -⟩ := hb.located op hop name hname
  rw [Function.comp_apply, ha]
  rfl

/-- **Each word of an image is the sum of its fields.** -/
theorem toNat_word (hb : source.Buildable) (hop : op ∈ source.operations) :
    ((source.locate op).word source.sideSet).toNat
      = (source.locate op).instruction.fields.opcode * 2 ^ 13
        + source.sideSet.pack op.cycles op.value? * 2 ^ 8
        + (source.locate op).instruction.fields.selector * 2 ^ 5
        + (source.locate op).instruction.fields.low := by
  have hcap : source.count ≤ 32 := source.count_le_capacity
  refine Operation.toNat_word source.sideSet_fits (valid_of_mem hop).map ?_
  intro t ht
  exact Nat.lt_of_lt_of_le (hb.target_lt hop t ht) hcap

end Buildable

/-- The symbol table of an image gives a label the address it has in the source. -/
theorem find?_symbols_image (source : Source) (name : String) :
    (source.image.symbols.find? name).map UInt8.toNat = source.address name := by
  have hlookup := source.reflects_draft.marks.lookup name
  rw [Labels.lookup] at hlookup
  rw [image, hlookup]
  cases ha : source.address name with
  | none => rfl
  | some a =>
    have hle := (address_le_count ha).trans source.count_le_capacity
    simp only [Option.map_some, toNat_ofNat_of_le hle]

/-- The program is what the source says, number by number. -/
structure Describes (source : Source) (p : Program) : Prop where
  length : p.words.length = source.operations.length
  /-- Each word is the sum of its fields, once the label of a jump is replaced by its address. -/
  words : ∀ (i : Nat) (op : Operation String), source.operations[i]? = some op →
    ∃ (w : Word) (located : Instruction Nat), p.words[i]? = some w ∧
      op.instruction.map source.address = located.map some ∧
      w.toNat = located.fields.opcode * 2 ^ 13 + source.sideSet.pack op.cycles op.value? * 2 ^ 8
        + located.fields.selector * 2 ^ 5 + located.fields.low
  /-- The address of a label that is jumped to is one of the program. -/
  targets : ∀ op ∈ source.operations, ∀ name ∈ op.instruction.target?,
    ∃ a, source.address name = some a ∧ a < p.words.length
  /-- Where side-set is mandatory, no value is missing. -/
  sided : ¬ source.sideSet.MayOmit → ∀ op ∈ source.operations, op.side.isSome
  sideSet : p.sideSet = source.sideSet
  wrapTarget : p.wrapTarget.toNat = source.wrapTarget
  wrap : p.wrap.toNat = source.wrap
  symbols : ∀ name, (p.symbols.find? name).map UInt8.toNat = source.address name

/-- **Every program that is built is the one its source describes**, whatever was refused on the way,
and whether a label stands before or behind the jumps to it. -/
theorem describes_of_build (source : Source) (p : Program) (h : source.build = .ok p) :
    source.Describes p := by
  obtain ⟨hb, rfl⟩ := build_eq_ok_iff.mp h
  have hlen : source.image.words.length = source.operations.length := List.length_map ..
  refine ⟨hlen, ?_, ?_, hb.sided, rfl, source.wrapTarget_toNat, wrap_toNat hb.nonempty,
    source.find?_symbols_image⟩
  · intro i op hget
    have hop := List.mem_of_getElem? hget
    refine ⟨_, (source.locate op).instruction, ?_, hb.map_address hop, hb.toNat_word hop⟩
    rw [image, List.getElem?_map, hget]
    rfl
  · intro op hop name hname
    rw [hlen, source.length_operations]
    exact hb.located op hop name hname

/-- A jump forward and a jump back, with an optional side-set value on one of them; three statements
are refused. -/
theorem describes_jumps_both_ways :
    let source : Source := [.sideSet 2 true false, .label "top", .instruction (.jmp .always "end"),
      .delay 3, .delay 1, .instruction (.set .pins 40), .instruction (.shiftOut .x 32), .wrapTarget,
      .label "end", .instruction (.jmp .xPostDecrement "top"), .side 2, .delay 1, .label "top"]
    let p : Program :=
      ⟨[0x0302#16, 0x6020#16, 0x1940#16], 2, 2, ⟨2, true, false⟩, [("end", 2), ("top", 0)]⟩
    source.build = .ok p ∧ source.Describes p :=
  ⟨by decide +kernel, describes_of_build _ _ (by decide +kernel)⟩

end Source

end PioAssembler
