import PioAssembler.Proofs.Admission
import PioAssembler.Proofs.Replay
import PioAssembler.Proofs.Symbols

/-!
# Going on after a program could be built

A source whose program can be built may go on. What follows adds instructions, labels and qualifiers of
its own, but changes nothing that was built before, as long as its qualifiers belong to its own
instructions (`Source.QualifiesOwn`): `Source.build_append`.

The operations before stay as they are (`Source.operations_append`), and so do their labels
(`Source.address_append`) and, once there is an instruction, the side-set configuration
(`Source.sideSet_append`).
-/

namespace PioAssembler

namespace Statement

/-- Whether a statement is added to the instruction before. -/
def isQualifier : Statement → Bool
  | .delay _ | .side _ => true
  | _ => false

/-- What is no qualifier gives neither a delay nor a side-set value. -/
theorem isQualifier_eq_false_iff {st : Statement} :
    st.isQualifier = false ↔ st.delay? = none ∧ st.side? = none := by
  cases st <;> simp [isQualifier, delay?, side?]

/-- Statements that start without a qualifier of what is before them add operations of their own. -/
theorem operations_append {rest : List Statement}
    (h : ∀ st ∈ untilInstruction rest, st.isQualifier = false) (before : List Statement) :
    operations (before ++ rest) = operations before ++ operations rest := by
  have hdelay : (untilInstruction rest).findSome? delay? = none :=
    List.findSome?_eq_none_iff.mpr fun st hst => (isQualifier_eq_false_iff.mp (h st hst)).1
  have hside : (untilInstruction rest).findSome? side? = none :=
    List.findSome?_eq_none_iff.mpr fun st hst => (isQualifier_eq_false_iff.mp (h st hst)).2
  induction before with
  | nil => rfl
  | cons st before ih =>
    cases st with
    | instruction i =>
      rw [List.cons_append, operations, operations, ih, List.cons_append]
      by_cases hnil : operations before = []
      · rw [untilInstruction_append_of_nil hnil, untilInstruction_of_nil hnil,
          List.findSome?_append, List.findSome?_append, hdelay, hside, Option.or_none, Option.or_none]
      · rw [untilInstruction_append hnil]
    | _ => exact ih

end Statement

/-- An accepted statement was accepted after those before it. -/
theorem Session.exists_of_accepted {s : Session} {source before after : List Statement} {st : Statement}
    (h : s.accepted source = before ++ st :: after) :
    ∃ earlier later, source = earlier ++ st :: later ∧ s.accepted earlier = before := by
  induction source generalizing s before with
  | nil => simp [Session.accepted] at h
  | cons first rest ih =>
    -- an accepted statement is the one in question or stands before it; a refused one is stepped over
    cases hacc : s.accepts first with
    | true =>
      rw [accepted_cons_of_accepts hacc] at h
      cases before with
      | nil =>
        obtain ⟨rfl, -⟩ := List.cons.inj h
        exact ⟨[], rest, rfl, rfl⟩
      | cons head before =>
        obtain ⟨rfl, htail⟩ := List.cons.inj h
        obtain ⟨earlier, later, rfl, hearlier⟩ := ih htail
        refine ⟨first :: earlier, later, rfl, ?_⟩
        rw [accepted_cons_of_accepts hacc, hearlier]
    | false =>
      rw [accepted_cons_of_refused hacc] at h
      obtain ⟨earlier, later, rfl, hearlier⟩ := ih h
      refine ⟨first :: earlier, later, rfl, ?_⟩
      rw [accepted_cons_of_refused hacc, hearlier]

namespace Source

/-- Each qualifier of what follows a source stands behind an instruction that was accepted after the
source. -/
def QualifiesOwn (source : Source) (rest : List Statement) : Prop :=
  ∀ (k : Nat) (hk : k < rest.length), rest[k].isQualifier = true →
    ∃ st ∈ source.session.accepted (rest.take k), st.isInstruction = true

instance (source : Source) (rest : List Statement) : Decidable (source.QualifiesOwn rest) :=
  inferInstanceAs (Decidable (∀ (k : Nat) (_ : k < rest.length), _))

/-- What follows a source is accepted or refused in the session that the source leads to. -/
theorem accepted_append (source : Source) (rest : List Statement) :
    accepted (source ++ rest) = source.accepted ++ source.session.accepted rest :=
  Session.accepted_append {} source rest

/-- No qualifier reaches back to an instruction of the source. -/
theorem QualifiesOwn.untilInstruction {source : Source} {rest : List Statement}
    (h : source.QualifiesOwn rest) :
    ∀ st ∈ Statement.untilInstruction (source.session.accepted rest), st.isQualifier = false := by
  intro st hst
  obtain ⟨before, after, hsplit⟩ := List.append_of_mem hst
  have hsource : source.session.accepted rest = before ++ st :: (after ++
      (source.session.accepted rest).dropWhile fun st => !st.isInstruction) := by
    rw [← List.cons_append, ← List.append_assoc, ← hsplit]
    exact List.takeWhile_append_dropWhile.symm
  obtain ⟨earlier, later, rfl, hearlier⟩ := Session.exists_of_accepted hsource
  -- the instruction that a qualifier needs would stand before it
  by_contra hqualifier
  rw [Bool.not_eq_false] at hqualifier
  obtain ⟨i, hi, hinstruction⟩ := h earlier.length (by simp) (by simpa using hqualifier)
  rw [List.take_left, hearlier] at hi
  have huntil : i ∈ Statement.untilInstruction (source.session.accepted (earlier ++ st :: later)) := by
    rw [hsplit]
    exact List.mem_append_left _ hi
  simpa [hinstruction] using List.mem_takeWhile_imp huntil

/-- The operations of a source stay, and those of what follows come behind them. -/
theorem operations_append {source : Source} {rest : List Statement} (h : source.QualifiesOwn rest) :
    operations (source ++ rest)
      = source.operations ++ Statement.operations (source.session.accepted rest) := by
  rw [operations, accepted_append]
  exact Statement.operations_append h.untilInstruction _

/-- The first definition of a label counts. -/
theorem address_append {source : Source} {name : String} {a : Nat}
    (h : source.address name = some a) (rest : List Statement) :
    address (source ++ rest) name = some a := by
  induction rest using List.reverseRecOn with
  | nil => rw [List.append_nil, h]
  | append_singleton rest st ih => rw [← List.append_assoc, address_concat, ih, Option.some_or]

/-- Behind an instruction no configuration is accepted. -/
theorem sideSet_append {source : Source} (h : source.count ≠ 0) (rest : List Statement) :
    sideSet (source ++ rest) = source.sideSet := by
  induction rest using List.reverseRecOn with
  | nil => rw [List.append_nil]
  | append_singleton rest st ih =>
    rw [← List.append_assoc, ← ih, sideSet, sideSet]
    cases hacc : (session (source ++ rest)).accepts st with
    | false => rw [accepted_of_refused hacc]
    | true =>
      have hnone : st.sideSet? = none := by
        cases st with
        | sideSet width optional pindirs =>
          obtain ⟨-, -, hzero⟩ := accepts_iff.mp hacc
          have hle := count_le_append source rest
          omega
        | _ => rfl
      rw [accepted_of_accepts hacc, Statement.configured_concat, hnone, Option.or_none]

/-- A jump that has its target keeps it. -/
theorem locate_append {source : Source} {op : Operation String}
    (h : ∀ name ∈ op.instruction.target?, ∃ a, source.address name = some a ∧ a < source.count)
    (rest : List Statement) : locate (source ++ rest) op = source.locate op := by
  have hsame : op.instruction.map (fun name => (address (source ++ rest) name).getD 0)
      = op.instruction.map fun name => (source.address name).getD 0 := by
    apply Instruction.map_congr
    intro name hname
    obtain ⟨a, ha, -⟩ := h name hname
    rw [ha, address_append ha]
  rw [locate, Operation.map, hsame]
  rfl

/-- The words that were built stay, with the targets they have. -/
theorem Buildable.words_image_append {source : Source} (hb : source.Buildable)
    {rest : List Statement} (hown : source.QualifiesOwn rest) :
    source.image.words <+: (image (source ++ rest)).words := by
  have hwords : source.image.words = source.operations.map fun op =>
      (locate (source ++ rest) op).word (sideSet (source ++ rest)) := by
    rw [sideSet_append hb.nonempty]
    apply List.map_congr_left
    intro op hop
    rw [locate_append (hb.located op hop)]
  rw [hwords, image, operations_append hown, List.map_append]
  exact List.prefix_append _ _

/-- **What was built is not changed by what follows**: neither the words nor the configuration, and no
label that had an address. -/
theorem build_append (source rest : Source) (p p' : Program) (h : source.build = .ok p)
    (h' : build (source ++ rest) = .ok p') (hown : source.QualifiesOwn rest) :
    p'.words.take p.words.length = p.words ∧ p'.sideSet = p.sideSet ∧
      ∀ name addr, (name, addr) ∈ p.symbols →
        (name, addr) ∈ p'.symbols ∧ p'.symbols.find? name = some addr := by
  obtain ⟨hb, rfl⟩ := build_eq_ok_iff.mp h
  obtain ⟨-, rfl⟩ := build_eq_ok_iff.mp h'
  refine ⟨?_, sideSet_append hb.nonempty rest, ?_⟩
  · exact (List.prefix_iff_eq_take.mp (hb.words_image_append hown)).symm
  · intro name addr hmem
    have hlater := source.symbols_append rest hmem
    exact ⟨hlater, find?_symbols_eq_some_iff.mpr hlater⟩

/-- A program with a jump to its own start goes on with a jump back into it and one to a new label; a
second definition of the old label, a late configuration and a second delay are refused. -/
theorem build_append_loop :
    let source : Source := [.sideSet 1 true false, .label "top", .instruction (.set .pins 1), .side 1,
      .instruction (.jmp .always "top"), .delay 2]
    let rest : Source := [.label "top", .sideSet 2 false false, .label "tail",
      .instruction (.jmp .pin "top"), .delay 3, .delay 1, .instruction (.jmp .always "tail"), .side 0]
    let p : Program := ⟨[0xf801#16, 0x0200#16], 0, 1, ⟨1, true, false⟩, [("top", 0)]⟩
    let p' : Program := ⟨[0xf801#16, 0x0200#16, 0x03c0#16, 0x1002#16], 0, 3, ⟨1, true, false⟩,
      [("tail", 2), ("top", 0)]⟩
    (source.build = .ok p ∧ build (source ++ rest) = .ok p' ∧ source.QualifiesOwn rest) ∧
      p'.words.take p.words.length = p.words ∧ p'.sideSet = p.sideSet ∧
      ∀ name addr, (name, addr) ∈ p.symbols →
        (name, addr) ∈ p'.symbols ∧ p'.symbols.find? name = some addr := by
  intro source rest p p'
  have h : source.build = .ok p := by decide +kernel +zetaReduce
  have h' : build (source ++ rest) = .ok p' := by decide +kernel +zetaReduce
  have hown : source.QualifiesOwn rest := by decide +kernel +zetaReduce
  exact ⟨⟨h, h', hown⟩, build_append source rest p p' h h' hown⟩

end Source

end PioAssembler
