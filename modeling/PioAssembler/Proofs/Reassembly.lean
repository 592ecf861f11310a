import PioAssembler.Proofs.Admission
import PioAssembler.Proofs.Decodability
import PioAssembler.Proofs.Legality
import PioAssembler.Text.Numeral

/-!
# Every legal image can be assembled

`Source.relist` writes operations down as a source again: each under a label that is the numeral of its
address, with the ends of the wrap window around the instructions they belong to. Nothing in such a
source is refused (`Source.reads_relist`), and building it gives the words of the operations.

Together with the disassembly this shows which programs there are: `Source.exists_build_iff`.
-/

namespace PioAssembler

/-! ### Writing operations down -/

/-- The statements for the operation at an address. -/
def Operation.relist (wrapTarget wrap : Nat) (op : Operation Nat) (addr : Nat) : Source :=
  (if addr = wrapTarget then [.wrapTarget] else []) ++
    [.label (decimal addr)] ++ [.instruction (op.instruction.map decimal)] ++
    (op.delay.map Statement.delay).toList ++ (op.side.map Statement.side).toList ++
    (if addr = wrap then [.wrap] else [])

namespace Source

/-- A source for some operations, with a side-set configuration and a wrap window. -/
def relist (ss : SideSet) (wrapTarget wrap : Nat) (ops : List (Operation Nat)) : Source :=
  [.sideSet ss.width ss.optional ss.pindirs] ++
    ops.zipIdx.flatMap fun (op, addr) => op.relist wrapTarget wrap addr

/-- One more operation is written down behind the others, under the next address. -/
theorem relist_concat (ss : SideSet) (wrapTarget wrap : Nat) (ops : List (Operation Nat))
    (op : Operation Nat) :
    relist ss wrapTarget wrap (ops ++ [op])
      = relist ss wrapTarget wrap ops ++ op.relist wrapTarget wrap ops.length := by
  simp [relist, List.zipIdx_append]

/-- What a source says while it is being written: `labels` addresses have their label, and the last
`wrapTarget` and the last `wrap` stand behind `t` and `e` instructions. -/
structure Reads (ss : SideSet) (ops : List (Operation String)) (labels t e : Nat) (source : Source) :
    Prop where
  configured : Statement.configured source.accepted = some ss
  operations : source.operations = ops
  address : ∀ k, source.address (decimal k) = if k < labels then some k else none
  wrapTarget : source.wrapTarget = t
  wrapEnd : source.wrapEnd = e

namespace Reads

variable {ss : SideSet} {ops : List (Operation String)} {labels t e : Nat} {source : Source}

theorem count (h : Reads ss ops labels t e source) : source.count = ops.length := by
  rw [← source.length_operations, h.operations]

theorem sideSet (h : Reads ss ops labels t e source) : source.sideSet = ss := by
  rw [Source.sideSet, h.configured]
  rfl

/-- One more statement that is admitted. -/
theorem extend (h : Reads ss ops labels t e source) {st : Statement} (hadm : source.Admits st)
    {ops' : List (Operation String)} {labels' : Nat}
    (hops : Source.operations (source ++ [st]) = ops')
    (haddr : ∀ k, Source.address (source ++ [st]) (decimal k) = if k < labels' then some k else none) :
    Reads ss ops' labels' (if st = .wrapTarget then ops.length else t)
      (if st = .wrap then ops.length else e) (source ++ [st]) := by
  refine ⟨?_, hops, haddr, ?_, ?_⟩
  · rw [configured_of_admits hadm, h.configured]
    rfl
  · rw [wrapTarget_concat, h.count, h.wrapTarget]
  · rw [wrapEnd_concat, h.count, h.wrapEnd]

/-- The addresses stay as they are unless a label is defined. -/
theorem address_of_ne (h : Reads ss ops labels t e source) {st : Statement}
    (hst : ∀ name, st ≠ .label name) (k : Nat) :
    Source.address (source ++ [st]) (decimal k) = if k < labels then some k else none := by
  rw [address_concat_of_ne _ (hst _), h.address]

/-- The numeral of the next address is a new label. -/
theorem label (h : Reads ss ops ops.length t e source) :
    Reads ss ops (ops.length + 1) t e (source ++ [.label (decimal ops.length)]) := by
  have hadm : source.Admits (.label (decimal ops.length)) := by
    show source.address _ = none
    rw [h.address, if_neg (Nat.lt_irrefl _)]
  refine h.extend hadm ?_ ?_
  · rw [operations_directive _ rfl rfl rfl, h.operations]
  · intro k
    rw [address_concat, h.address, h.count]
    -- the new label is that of the next address
    by_cases hk : k = ops.length
    · subst hk
      simp
    · have hne : Statement.label (decimal ops.length) ≠ .label (decimal k) := by
        intro hst
        exact hk (decimal_inj.mp (Statement.label.inj hst)).symm
      have hiff : k < ops.length ↔ k < ops.length + 1 := by omega
      rw [if_neg hne, Option.or_none]
      simp only [hiff]

/-- An instruction in range is written down as long as there is room. -/
theorem instruction (h : Reads ss ops labels t e source) {i : Instruction String} (hin : i.InRange)
    (hfree : ops.length < capacity) :
    Reads ss (ops ++ [⟨i, none, none⟩]) labels t e (source ++ [.instruction i]) := by
  have hadm : source.Admits (.instruction i) := ⟨hin, by rw [h.count]; exact hfree⟩
  refine h.extend hadm ?_ (h.address_of_ne (by simp))
  rw [operations_instruction hadm, h.operations]

/-- The delay of the last operation is written down, if it has one. -/
theorem delay {i : Instruction String} {side : Option UInt8}
    (h : Reads ss (ops ++ [⟨i, none, side⟩]) labels t e source) {delay : Option UInt8}
    (hd : ∀ c ∈ delay, ss.FitsDelay c.toNat) :
    Reads ss (ops ++ [⟨i, delay, side⟩]) labels t e
      (source ++ (delay.map Statement.delay).toList) := by
  cases delay with
  | none => simpa using h
  | some cycles =>
    have hadm : source.Admits (.delay cycles) := by
      refine ⟨⟨i, none, side⟩, ?_, rfl, ?_⟩
      · rw [h.operations, List.getLast?_concat]
      · rw [h.sideSet]
        exact hd cycles rfl
    refine h.extend hadm ?_ (h.address_of_ne (by simp))
    rw [operations_qualify rfl hadm h.operations]
    simp [Operation.qualify, Statement.delay?, Statement.side?]

/-- The side-set value of the last operation is written down, if it has one. -/
theorem side {i : Instruction String} {delay : Option UInt8}
    (h : Reads ss (ops ++ [⟨i, delay, none⟩]) labels t e source) {side : Option UInt8}
    (hs : ss.FitsSide (side.map UInt8.toNat)) :
    Reads ss (ops ++ [⟨i, delay, side⟩]) labels t e (source ++ (side.map Statement.side).toList) := by
  cases side with
  | none => simpa using h
  | some value =>
    have hadm : source.Admits (.side value) := by
      refine ⟨⟨i, delay, none⟩, ?_, rfl, ?_⟩
      · rw [h.operations, List.getLast?_concat]
      · rw [h.sideSet]
        exact hs value.toNat rfl
    refine h.extend hadm ?_ (h.address_of_ne (by simp))
    rw [operations_qualify rfl hadm h.operations]
    simp [Operation.qualify, Statement.delay?, Statement.side?]

/-- The wrap window starts at the next operation, if it is the one that was asked for. -/
theorem wrapTargetIf (h : Reads ss ops labels t e source) (p : Prop) [Decidable p] :
    Reads ss ops labels (if p then ops.length else t) e
      (source ++ if p then [.wrapTarget] else []) := by
  by_cases hp : p
  · rw [if_pos hp, if_pos hp]
    have hadm : source.Admits .wrapTarget := trivial
    refine h.extend hadm ?_ (h.address_of_ne (by simp))
    rw [operations_directive _ rfl rfl rfl, h.operations]
  · rw [if_neg hp, if_neg hp]
    simpa using h

/-- The wrap window ends at the last operation, if it is the one that was asked for. -/
theorem wrapIf (h : Reads ss ops labels t e source) (hne : ops ≠ []) (p : Prop) [Decidable p] :
    Reads ss ops labels t (if p then ops.length else e) (source ++ if p then [.wrap] else []) := by
  by_cases hp : p
  · have hadm : source.Admits .wrap := by
      show source.count ≠ 0
      rw [h.count]
      exact mt List.length_eq_zero_iff.mp hne
    rw [if_pos hp, if_pos hp]
    refine h.extend hadm ?_ (h.address_of_ne (by simp))
    rw [operations_directive _ rfl rfl rfl, h.operations]
  · rw [if_neg hp, if_neg hp]
    simpa using h

/-- Writing down one operation that can stand in a program. -/
theorem operation {n : Nat} (h : Reads ss ops n t e source) (hn : ops.length = n)
    (hfree : n < capacity) {op : Operation Nat} (hop : op.Placeable ss) (wrapTarget wrap : Nat) :
    Reads ss (ops ++ [op.map decimal]) (n + 1) (if n = wrapTarget then n else t)
      (if n = wrap then n + 1 else e) (source ++ op.relist wrapTarget wrap n) := by
  subst hn
  have hin : (op.instruction.map decimal).InRange := (Instruction.inRange_map _ _).mpr hop.inRange
  have hd : ∀ c ∈ op.delay, ss.FitsDelay c.toNat := by
    intro c hc
    have hcycles := hop.delay
    rw [Operation.cycles, hc] at hcycles
    exact hcycles
  -- in the order of the statements: mark, label, instruction, qualifiers, mark
  have hlabel := (h.wrapTargetIf (ops.length = wrapTarget)).label
  have hqualified := ((hlabel.instruction hin hfree).delay hd).side hop.side
  have hend := hqualified.wrapIf (by simp) (ops.length = wrap)
  rw [List.length_append, List.length_singleton] at hend
  simp only [Operation.relist, ← List.append_assoc]
  exact hend

end Reads

/-- The configuration is the first statement. -/
theorem reads_sideSet {ss : SideSet} (hfit : ss.Fits) :
    Reads ss [] 0 0 0 [.sideSet ss.width ss.optional ss.pindirs] := by
  have hadm : Admits [] (.sideSet ss.width ss.optional ss.pindirs) := ⟨hfit, rfl, rfl⟩
  refine ⟨configured_of_admits hadm, operations_directive [] rfl rfl rfl, ?_, ?_, ?_⟩
  · intro k
    exact address_concat_of_ne [] (by simp)
  · exact wrapTarget_concat_of_ne [] (by simp)
  · exact wrapEnd_concat_of_ne [] (by simp)

/-- **A source that was written down from operations says these operations.** -/
theorem reads_relist {ss : SideSet} (hfit : ss.Fits) (wrapTarget wrap : Nat)
    {ops : List (Operation Nat)} (hcap : ops.length ≤ capacity)
    (hops : ∀ op ∈ ops, op.Placeable ss) :
    Reads ss (ops.map (Operation.map decimal)) ops.length
      (if wrapTarget < ops.length then wrapTarget else 0) (if wrap < ops.length then wrap + 1 else 0)
      (relist ss wrapTarget wrap ops) := by
  induction ops using List.reverseRecOn with
  | nil => exact reads_sideSet hfit
  | append_singleton ops op ih =>
    rw [List.length_append, List.length_singleton] at hcap
    have hbefore := ih (by omega) fun op' hop' => hops op' (List.mem_append_left _ hop')
    have hop := hops op (List.mem_append_right _ (List.mem_singleton_self op))
    -- the marks are set while their own instruction is written, and kept from then on
    have hafter := hbefore.operation (List.length_map _) (by omega) hop wrapTarget wrap
    have htarget : (if ops.length = wrapTarget then ops.length
        else if wrapTarget < ops.length then wrapTarget else 0)
        = if wrapTarget < ops.length + 1 then wrapTarget else 0 := by
      split_ifs <;> omega
    have hwrap : (if ops.length = wrap then ops.length + 1
        else if wrap < ops.length then wrap + 1 else 0)
        = if wrap < ops.length + 1 then wrap + 1 else 0 := by
      split_ifs <;> omega
    rw [htarget, hwrap] at hafter
    rw [relist_concat, List.map_append, List.length_append, List.length_singleton]
    exact hafter

/-! ### Building -/

section Build

variable {ss : SideSet} {ops : List (Operation Nat)} {t e : Nat} {source : Source}

/-- The numeral of an address leads back to it. -/
theorem Reads.locate (h : Reads ss (ops.map (Operation.map decimal)) ops.length t e source)
    {op : Operation Nat} (hop : ∀ a ∈ op.instruction.target?, a < ops.length) :
    source.locate (op.map decimal) = op := by
  have hback : (op.instruction.map decimal).map (fun name => (source.address name).getD 0)
      = op.instruction := by
    rw [Instruction.map_map]
    conv_rhs => rw [← Instruction.map_id op.instruction]
    apply Instruction.map_congr
    intro a ha
    rw [Function.comp_apply, h.address, if_pos (hop a ha)]
    rfl
  rw [Source.locate, Operation.map, Operation.map, hback]

/-- Every target has a label that was written down. -/
theorem Reads.located (h : Reads ss (ops.map (Operation.map decimal)) ops.length t e source)
    (hops : ∀ op ∈ ops, ∀ a ∈ op.instruction.target?, a < ops.length) :
    ∀ op ∈ source.operations, ∀ name ∈ op.instruction.target?,
      ∃ a, source.address name = some a ∧ a < source.count := by
  rw [h.operations, h.count, List.length_map]
  intro op' hop' name hname
  obtain ⟨op, hop, rfl⟩ := List.mem_map.mp hop'
  rw [Operation.map, Instruction.target?_map] at hname
  obtain ⟨a, ha, rfl⟩ := Option.map_eq_some_iff.mp hname
  have hlt := hops op hop a ha
  exact ⟨a, by rw [h.address, if_pos hlt], hlt⟩

/-- What was written down can be built. -/
theorem Reads.buildable (h : Reads ss (ops.map (Operation.map decimal)) ops.length t e source)
    (hplace : ∀ op ∈ ops, op.Placeable ss)
    (hops : ∀ op ∈ ops, ∀ a ∈ op.instruction.target?, a < ops.length) (hle : t < e)
    (hlt : e ≤ ops.length) : source.Buildable := by
  refine ⟨?_, ?_, h.located hops, ?_⟩
  · rw [h.count, List.length_map]
    omega
  · rw [h.sideSet, h.operations]
    intro hmust op' hop'
    obtain ⟨op, hop, rfl⟩ := List.mem_map.mp hop'
    rw [Option.isSome_iff_ne_none]
    exact mt (hplace op hop).sided hmust
  · rw [wrap, h.wrapTarget, h.wrapEnd, if_neg (by omega)]
    omega

/-- What is built from it has the words of the operations. -/
theorem Reads.words_image (h : Reads ss (ops.map (Operation.map decimal)) ops.length t e source)
    (hops : ∀ op ∈ ops, ∀ a ∈ op.instruction.target?, a < ops.length) :
    source.image.words = ops.map (Operation.word ss) := by
  rw [image, h.operations, h.sideSet, List.map_map]
  apply List.map_congr_left
  intro op hop
  rw [Function.comp_apply, h.locate (hops op hop)]

end Build

end Source

/-! ### The images that can be assembled -/

/-- What it takes for words, wrap window and side-set configuration to be those of a program. -/
structure LegalImage (ws : List Word) (wrapTarget wrap : Addr) (ss : SideSet) : Prop where
  nonempty : 1 ≤ ws.length
  length_le : ws.length ≤ 32
  window : wrapTarget ≤ wrap
  wrap_lt : wrap.toNat < ws.length
  width_le : ss.width.toNat ≤ 5
  width_le_of_optional : ss.optional = true → ss.width.toNat ≤ 4
  legal : ∀ w ∈ ws, Word.Legal ws.length ss w

namespace LegalImage

variable {ws : List Word} {wrapTarget wrap : Addr} {ss : SideSet}

theorem fits (h : LegalImage ws wrapTarget wrap ss) : ss.Fits := by
  unfold SideSet.Fits SideSet.widthLimit
  split
  · next ho => exact h.width_le_of_optional ho
  · exact h.width_le

/-- Words that are all legal are those of operations. -/
theorem exists_operations (h : LegalImage ws wrapTarget wrap ss) :
    ∃ ops : List (Operation Nat), ops.map (Operation.word ss) = ws ∧
      (∀ op ∈ ops, op.Placeable ss) ∧ ∀ op ∈ ops, ∀ a ∈ op.instruction.target?, a < ws.length := by
  refine ⟨ws.filterMap (Operation.ofWord? ss), ?_, ?_, ?_⟩
  · rw [List.map_filterMap]
    conv_rhs => rw [← List.filterMap_some (l := ws)]
    apply List.filterMap_congr
    intro w hw
    obtain ⟨op, hread, -⟩ := (Word.legal_iff h.fits).mp (h.legal w hw)
    rw [hread, Option.map_some, (Operation.placeable_of_ofWord? h.fits hread).2]
  · intro op hop
    obtain ⟨w, -, hread⟩ := List.mem_filterMap.mp hop
    exact (Operation.placeable_of_ofWord? h.fits hread).1
  · intro op hop
    obtain ⟨w, hw, hread⟩ := List.mem_filterMap.mp hop
    obtain ⟨op', hread', htarget⟩ := (Word.legal_iff h.fits).mp (h.legal w hw)
    rw [hread] at hread'
    obtain rfl := Option.some.inj hread'
    exact htarget

end LegalImage

namespace Source

/-- A source that can be built gives a legal image. -/
theorem Buildable.legalImage {source : Source} (hb : source.Buildable) :
    LegalImage source.image.words source.image.wrapTarget source.image.wrap source.image.sideSet := by
  have hlen : source.image.words.length = source.count :=
    (List.length_map _).trans source.length_operations
  have hfit := source.sideSet_fits
  refine ⟨?_, ?_, ?_, ?_, hfit.width_le, hfit.width_le_of_optional, ?_⟩
  · rw [hlen]
    exact Nat.pos_of_ne_zero hb.nonempty
  · rw [hlen]
    exact source.count_le_capacity
  · rw [image, UInt8.le_iff_toNat_le, source.wrapTarget_toNat, wrap_toNat hb.nonempty]
    exact hb.window
  · rw [hlen, image, wrap_toNat hb.nonempty]
    exact wrap_lt_count hb.nonempty
  · rw [hlen]
    intro w hw
    obtain ⟨op, hop, rfl⟩ := List.mem_map.mp hw
    exact (Word.legal_iff hfit).mpr ⟨_, hb.ofWord?_word hop, hb.target_lt hop⟩

/-- **The programs that can be built are exactly those with a legal image.** -/
theorem exists_build_iff (ws : List Word) (wrapTarget wrap : Addr) (ss : SideSet) :
    (∃ (source : Source) (p : Program), source.build = .ok p ∧ p.words = ws ∧
        p.wrapTarget = wrapTarget ∧ p.wrap = wrap ∧ p.sideSet = ss) ↔
      LegalImage ws wrapTarget wrap ss := by
  constructor
  · rintro ⟨source, p, hbuild, rfl, rfl, rfl, rfl⟩
    obtain ⟨hb, rfl⟩ := build_eq_ok_iff.mp hbuild
    exact hb.legalImage
  · intro h
    -- read the words, write them down as a source, and build it
    obtain ⟨ops, hwords, hplace, hops⟩ := h.exists_operations
    have hlen : ops.length = ws.length := by rw [← hwords, List.length_map]
    rw [← hlen] at hops
    have hlt := h.wrap_lt
    have hle := UInt8.le_iff_toNat_le.mp h.window
    have hread := reads_relist h.fits wrapTarget.toNat wrap.toNat (hlen.le.trans h.length_le) hplace
    rw [hlen, if_pos hlt, if_pos (Nat.lt_of_le_of_lt hle hlt), ← hlen] at hread
    have hb := hread.buildable hplace hops (by omega) (by omega)
    refine ⟨_, _, build_eq_ok_iff.mpr ⟨hb, rfl⟩, ?_, ?_, ?_, hread.sideSet⟩
    · rw [hread.words_image hops, hwords]
    · rw [image, hread.wrapTarget, UInt8.ofNat_toNat]
    · rw [image, Source.wrap, hread.wrapEnd, if_neg (Nat.succ_ne_zero _), Nat.add_sub_cancel,
        UInt8.ofNat_toNat]

end Source

end PioAssembler
