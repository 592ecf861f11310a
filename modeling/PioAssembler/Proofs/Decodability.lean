import PioAssembler.Proofs.Disassembly
import PioAssembler.Proofs.Image

/-!
# Programs can be read in one way only

Every word of a program that was built is the word of an operation that can be read off it again
(`Source.Buildable.ofWord?_word`). So the words and the side-set configuration determine what was
assembled, up to the names of the labels: `Source.operations_same_of_words_eq`.
-/

namespace PioAssembler

/-- Two operations are the same, each read with the symbols of its own program. A missing delay is a
delay of zero, but a missing side-set value is not a value of zero. -/
structure Operation.SameIn (symbols₁ symbols₂ : SymbolTable) (op₁ op₂ : Operation String) : Prop where
  instruction : op₁.instruction.map symbols₁.find? = op₂.instruction.map symbols₂.find?
  /-- The label of a jump is among the symbols, so that equal targets are equal addresses. -/
  defined : ∀ name ∈ op₁.instruction.target?, (symbols₁.find? name).isSome
  delay : op₁.delay.getD 0 = op₂.delay.getD 0
  side : op₁.side = op₂.side

namespace Source

variable {source : Source} {op : Operation String}

/-- The operations of a source that can be built can stand in a program. -/
theorem Buildable.placeable (hb : source.Buildable) (hop : op ∈ source.operations) :
    (source.locate op).Placeable source.sideSet := by
  have hcap : source.count ≤ 32 := source.count_le_capacity
  refine ⟨(valid_of_mem hop).map, ?_, ?_⟩
  · intro t ht
    exact Nat.lt_of_lt_of_le (hb.target_lt hop t ht) hcap
  · intro hnone
    -- a mandatory value that is missing stops the build
    by_contra hmust
    have hsome := hb.sided hmust op hop
    rw [show op.side = none from hnone] at hsome
    cases hsome

/-- Every word of a program that can be built is read as the operation it was assembled from. -/
theorem Buildable.ofWord?_word (hb : source.Buildable) (hop : op ∈ source.operations) :
    Operation.ofWord? source.sideSet ((source.locate op).word source.sideSet)
      = some (source.locate op).explicit :=
  Operation.ofWord?_word source.sideSet_fits (hb.placeable hop)

/-- The label of a jump is among the symbols, with the address that the word holds. -/
theorem Buildable.find?_target (hb : source.Buildable) (hop : op ∈ source.operations) {name : String}
    (hname : name ∈ op.instruction.target?) :
    source.image.symbols.find? name = some (UInt8.ofNat ((source.address name).getD 0)) := by
  obtain ⟨a, ha, -⟩ := hb.located op hop name hname
  show source.draft.labels.lookup name = _
  rw [source.reflects_draft.marks.lookup name, ha]
  rfl

/-- The symbol table of a program gives each jump the target that its word has. -/
theorem Buildable.map_symbols (hb : source.Buildable) (hop : op ∈ source.operations) :
    op.instruction.map source.image.symbols.find?
      = (source.locate op).instruction.map fun a => some (UInt8.ofNat a) := by
  rw [locate, Operation.map, Instruction.map_map]
  apply Instruction.map_congr
  intro name hname
  exact hb.find?_target hop hname

/-- **Two sources with the same words and the same configuration say the same**: instruction by
instruction, with the addresses of the labels in the place of their names, and with equal delays and
side-set values. -/
theorem operations_same_of_words_eq (source₁ source₂ : Source) (p₁ p₂ : Program)
    (h₁ : source₁.build = .ok p₁) (h₂ : source₂.build = .ok p₂) (hwords : p₁.words = p₂.words)
    (hsideSet : p₁.sideSet = p₂.sideSet) :
    source₁.operations.length = source₂.operations.length ∧
      ∀ (i : Nat) (op₁ op₂ : Operation String), source₁.operations[i]? = some op₁ →
        source₂.operations[i]? = some op₂ → Operation.SameIn p₁.symbols p₂.symbols op₁ op₂ := by
  obtain ⟨hb₁, rfl⟩ := build_eq_ok_iff.mp h₁
  obtain ⟨hb₂, rfl⟩ := build_eq_ok_iff.mp h₂
  replace hsideSet : source₁.sideSet = source₂.sideSet := hsideSet
  refine ⟨?_, ?_⟩
  · simpa [image] using congrArg List.length hwords
  · intro i op₁ op₂ hget₁ hget₂
    have hop₁ := List.mem_of_getElem? hget₁
    have hop₂ := List.mem_of_getElem? hget₂
    have hword : (source₁.locate op₁).word source₁.sideSet
        = (source₂.locate op₂).word source₂.sideSet := by
      have hi := congrArg (·[i]?) hwords
      simpa [image, hget₁, hget₂] using hi
    -- one word is read in one way
    have hread := hb₁.ofWord?_word hop₁
    rw [hword, hsideSet, hb₂.ofWord?_word hop₂] at hread
    obtain ⟨hinstruction, hdelay, hside⟩ := Operation.mk.inj (Option.some.inj hread)
    refine ⟨?_, ?_, (Option.some.inj hdelay).symm, hside.symm⟩
    · rw [hb₁.map_symbols hop₁, hb₂.map_symbols hop₂, hinstruction]
    · intro name hname
      rw [hb₁.find?_target hop₁ hname]
      rfl

/-- Two ways to write one program: with other labels, one of them defined twice, with the qualifiers in
another order, and with a delay of zero that is written out or left away. -/
theorem operations_same_of_words_eq_renamed :
    let source₁ : Source := [.sideSet 1 true false, .label "a", .instruction .nop, .side 0, .delay 2,
      .instruction (.jmp .always "b"), .label "b", .instruction (.jmp .pin "a"), .delay 0]
    let source₂ : Source := [.sideSet 1 true false, .label "start", .label "start",
      .instruction (.mov .y .none .y), .delay 2, .side 0, .instruction (.jmp .always "end"),
      .label "end", .instruction (.jmp .pin "start"), .label "rest"]
    let words : List Word := [0xb242#16, 0x0002#16, 0x00c0#16]
    let p₁ : Program := ⟨words, 0, 2, ⟨1, true, false⟩, [("a", 0), ("b", 2)]⟩
    let p₂ : Program := ⟨words, 0, 2, ⟨1, true, false⟩, [("end", 2), ("rest", 3), ("start", 0)]⟩
    (source₁.build = .ok p₁ ∧ source₂.build = .ok p₂) ∧
      source₁.operations.length = source₂.operations.length ∧
      ∀ (i : Nat) (op₁ op₂ : Operation String), source₁.operations[i]? = some op₁ →
        source₂.operations[i]? = some op₂ → Operation.SameIn p₁.symbols p₂.symbols op₁ op₂ :=
  ⟨⟨by decide +kernel, by decide +kernel⟩,
    operations_same_of_words_eq _ _ _ _ (by decide +kernel) (by decide +kernel) rfl rfl⟩

end Source

end PioAssembler
