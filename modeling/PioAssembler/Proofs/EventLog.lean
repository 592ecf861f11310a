import PioAssembler.Program.Listing
import PioAssembler.Proofs.Outcome
import PioAssembler.Proofs.Resolution

/-!
# The log and the program

The log is a second account of an assembly, and `Source.LogAgrees` says how it compares with what was
said and what was built. It has three parts:

* one event for each accepted instruction, label and side-set configuration, in their order
  (`Source.log_session`),
* one event for each jump that has a target, in the order of the addresses, also if other jumps have none
  (`Source.mem_locatedJumps_iff`, `Source.pairwise_locatedJumps`),
* an event about the program, if there is one.

`Source.logAgrees_build` is the main statement. A word in the log differs from the word in the program by
the qualifiers, and for a jump by the target, which the log gives as well.
-/

namespace PioAssembler

/-! ### Words without qualifiers -/

namespace Word

theorem and_ofFields (g g' : BitVec 3) (s s' : BitVec 5) (c c' : BitVec 3) (l l' : BitVec 5) :
    ofFields g s c l &&& ofFields g' s' c' l'
      = ofFields (g &&& g') (s &&& s') (c &&& c') (l &&& l') := by
  show (g ++ s ++ c ++ l &&& g' ++ s' ++ c' ++ l' : BitVec (3 + 5 + 3 + 5)) = _
  rw [BitVec.and_append, BitVec.and_append, BitVec.and_append, ofFields]

/-- The word with bits 12 to 8 cleared. -/
def unqualified (w : Word) : Word := w &&& 0xe0ff#16

/-- To clear the qualifiers is to clear the shared field. -/
theorem unqualified_ofFields (g : BitVec 3) (s : BitVec 5) (c : BitVec 3) (l : BitVec 5) :
    (ofFields g s c l).unqualified = ofFields g 0 c l := by
  have hmask : 0xe0ff#16 = ofFields (.allOnes 3) 0#5 (.allOnes 3) (.allOnes 5) := rfl
  rw [unqualified, hmask, and_ofFields, BitVec.and_allOnes, BitVec.and_allOnes, BitVec.and_allOnes,
    BitVec.and_zero]
  rfl

end Word

/-- The word of an instruction without qualifiers, its target zero. -/
def Instruction.bareWord {τ : Type} (i : Instruction τ) : Word :=
  .ofFields i.opcode.number 0 i.selector (BitVec.ofNat 5 (i.map fun _ => 0).fields.low)

/-- An instruction is encoded as its bare word. -/
theorem Instruction.bareWord_of_encode {τ : Type} {i : Instruction τ} {w : Word}
    (h : i.encode = .ok w) : i.bareWord = w := (encode_eq_ok_iff.mp h).2

theorem Instruction.opcode_bareWord {τ : Type} (i : Instruction τ) : i.bareWord.opcode = i.opcode :=
  Word.opcode_ofFields ..

theorem Operation.unqualified_word (ss : SideSet) (op : Operation Nat) :
    (op.word ss).unqualified = .ofFields op.instruction.opcode.number 0 op.instruction.selector
      (BitVec.ofNat 5 op.instruction.fields.low) := Word.unqualified_ofFields ..

/-! ### What is logged while statements are carried out -/

namespace Statement

/-- The event that a statement leaves when it is accepted and the next instruction has the given
address. -/
def event? (addr : Addr) : Statement → Option Event
  | .instruction i => some (.emitted addr i.bareWord)
  | .label name => some (.labelled name addr)
  | .sideSet width optional pindirs => some (.configured ⟨width, optional, pindirs⟩)
  | .wrapTarget | .wrap | .delay _ | .side _ => none

/-- The events of some accepted statements, of which the first instruction has the address `count`. -/
def events (count : Nat) : List Statement → List Event
  | [] => []
  | st :: rest =>
      (st.event? (UInt8.ofNat count)).toList
        ++ events (if st.isInstruction then count + 1 else count) rest

/-- One more statement leaves its event behind the others, with the address it was carried out at. -/
theorem events_concat (count : Nat) (statements : List Statement) (st : Statement) :
    events count (statements ++ [st]) = events count statements
      ++ (st.event? (UInt8.ofNat (count + statements.countP isInstruction))).toList := by
  induction statements generalizing count with
  | nil => simp [events]
  | cons first rest ih =>
    rw [List.cons_append, events, events, ih, List.append_assoc]
    cases h : first.isInstruction with
    | true =>
      rw [if_pos rfl, List.countP_cons_of_pos h, Nat.add_right_comm, Nat.add_assoc]
    | false =>
      rw [if_neg (by decide), List.countP_cons_of_neg (by rw [h]; decide)]

end Statement

namespace Session

/-- An accepted statement adds its event to the log. -/
theorem log_attempt {s : Session} {st : Statement} (h : s.accepts st = true) :
    (s.attempt st.run).2.log = s.log ++ (st.event? s.draft.nextAddr).toList := by
  -- the guards of the step choose the branch of each `run`; marks and qualifiers log nothing
  obtain ⟨d', hstep⟩ := accepts_iff.mp h
  rw [attempt]
  cases hstep with
  | instruction encoded free =>
    rw [Statement.run, Assembly.run_instruction, encoded]
    dsimp only
    rw [if_neg (Nat.not_le.mpr free), Statement.event?, Instruction.bareWord_of_encode encoded]
    rfl
  | label fresh =>
    rw [Statement.run, Assembly.run_label, Labels.define, fresh]
    rfl
  | wrapTarget => exact (List.append_nil _).symm
  | wrap nonempty =>
    rw [Statement.run, Assembly.run_wrap, if_neg nonempty]
    exact (List.append_nil _).symm
  | sideSet fits first early =>
    rw [Statement.run, Assembly.run_sideSet, SideSet.configure_eq, if_pos fits, first]
    dsimp only
    rw [if_neg (by decide), if_neg (not_not.mpr early)]
    rfl
  | @delay cycles addr slot word last found unused added =>
    rcases Assembly.run_qualify_cases .delay cycles s with ⟨failure, hrun, hnot⟩ | ⟨_, _, _, -, hrun⟩
    · exact absurd ⟨last, found, unused, added⟩ (hnot addr slot word)
    · rw [Statement.run, hrun]
      exact (List.append_nil _).symm
  | @side value addr slot word last found unused added =>
    rcases Assembly.run_qualify_cases .side value s with ⟨failure, hrun, hnot⟩ | ⟨_, _, _, -, hrun⟩
    · exact absurd ⟨last, found, unused, added⟩ (hnot addr slot word)
    · rw [Statement.run, hrun]
      exact (List.append_nil _).symm

end Session

/-- **The log of a run is that of its accepted statements.** -/
theorem Source.log_session (source : Source) :
    source.session.log = Statement.events 0 source.accepted := by
  induction source using concat_induction with
  | nil => rfl
  | accepted source st ih hacc _ =>
    rw [session_concat, Session.log_attempt hacc, ih, accepted_of_accepts hacc, Statement.events_concat,
      Nat.zero_add]
    show _ ++ (st.event? (UInt8.ofNat source.draft.count)).toList = _
    rw [source.count_eq]
    rfl
  | refused source st ih hacc _ =>
    rw [session_concat, Session.attempt_of_refused hacc, ih, accepted_of_refused hacc]

/-! ### What is logged about jumps -/

/-- A jump that is given its target. -/
structure LocatedJump where
  addr : Addr
  label : String
  target : Addr
  deriving DecidableEq, Repr

/-- The event that is logged for the jump. -/
def LocatedJump.event (jump : LocatedJump) : Event := .resolved jump.addr jump.label jump.target

namespace Labels

/-- The jump that is given its target. -/
def Fate.located? : Fate → Option LocatedJump
  | .bound addr label target => some ⟨addr, label, target⟩
  | .kept | .bad _ => none

/-- An event is logged for the jumps that are given their targets, and for no other word. -/
theorem Fate.event?_eq_map (fate : Fate) : fate.event? = fate.located?.map LocatedJump.event := by
  cases fate <;> rfl

/-- A jump is logged with the address of its position. -/
theorem addr_of_located? {labels : Labels} {count position : Nat} {w : Word} {jump : LocatedJump}
    (h : (labels.fate count w position).located? = some jump) : jump.addr = UInt8.ofNat position := by
  revert h
  fun_cases labels.fate count w position with
  | case3 addr hjmp name hname target htarget hlt => intro h; cases h; rfl
  | case1 | case2 | case4 | case5 => intro h; cases h

end Labels

namespace Source

/-- An accepted jump has a target: its label is defined, and inside the program. -/
structure Locates (source : Source) (jump : LocatedJump) : Prop where
  jumps : source.JumpsTo jump.addr jump.label
  address : source.address jump.label = some jump.target.toNat
  inside : jump.target.toNat < source.draft.count

/-- The jumps that have a target when the jumps of a source are resolved. -/
def locatedJumps (source : Source) : List LocatedJump :=
  (source.draft.labels.fates source.draft.words).filterMap Labels.Fate.located?

/-- A jump is given its target exactly if its label has an address inside the program. -/
theorem located?_fate_eq {source : Source} {position : Nat} {op : Operation String}
    (h : source.operations[position]? = some op) :
    (source.draft.labels.fate source.count ((op.map fun _ => 0).word source.sideSet)
        position).located? =
      op.instruction.target?.bind fun name =>
        ((source.address name).filter (· < source.count)).map fun a =>
          ⟨UInt8.ofNat position, name, UInt8.ofNat a⟩ := by
  rw [fate_eq h]
  cases op.instruction.target? with
  | none => rfl
  | some name =>
    simp only [Option.bind_some]
    cases source.address name with
    | none => rfl
    | some a => by_cases hlt : a < source.count <;> simp [hlt, Labels.Fate.located?, Option.filter]

/-- The jumps that have a target are those whose label is defined inside the program. -/
theorem mem_locatedJumps_iff {source : Source} {jump : LocatedJump} :
    jump ∈ source.locatedJumps ↔ source.Locates jump := by
  obtain ⟨addr, label, target⟩ := jump
  rw [locatedJumps, mem_filterMap_fates]
  constructor
  · rintro ⟨addr', op, hget, hjump⟩
    rw [located?_fate_eq hget, UInt8.ofNat_toNat] at hjump
    obtain ⟨name, hname, hjump⟩ := Option.bind_eq_some_iff.mp hjump
    obtain ⟨a, ha, hjump⟩ := Option.map_eq_some_iff.mp hjump
    obtain ⟨ha, hlt⟩ := Option.filter_eq_some_iff.mp ha
    cases hjump
    -- the label stands inside the memory, so its address fits a byte
    have htarget : (UInt8.ofNat a).toNat = a :=
      toNat_ofNat_of_le ((address_le_count ha).trans source.count_le_capacity)
    refine ⟨⟨op, hget, hname⟩, by rw [htarget]; exact ha, ?_⟩
    rw [htarget, source.count_eq]
    exact of_decide_eq_true hlt
  · rintro ⟨⟨op, hget, hname⟩, haddress, hinside⟩
    rw [source.count_eq] at hinside
    refine ⟨addr, op, hget, ?_⟩
    rw [located?_fate_eq hget, hname, Option.bind_some, haddress]
    simp [Option.filter, hinside]

/-- The jumps that have a target stand in the order of their addresses. -/
theorem pairwise_locatedJumps (source : Source) :
    source.locatedJumps.Pairwise fun a b => a.addr < b.addr := by
  have hcount : source.draft.count ≤ 32 := source.consistent_draft.count_le
  refine Labels.pairwise_filterMap_fates ?_ fun _ _ _ => Labels.addr_of_located?
  rw [Draft.words, List.length_map]
  exact hcount.trans (by decide)

/-- The jumps of a source are resolved: there is something to build, and no side-set value is missing. -/
structure Resolves (source : Source) : Prop where
  nonempty : source.draft.count ≠ 0
  sided : ∀ addr, ¬ source.LacksSide addr

/-- The jumps that are given their targets when the source is built. -/
def resolvedJumps (source : Source) : List LocatedJump :=
  if source.draft.count = 0 ∨ source.draft.firstUnsided?.isSome then [] else source.locatedJumps

theorem Buildable.resolves {source : Source} (hb : source.Buildable) : source.Resolves := by
  refine ⟨?_, firstUnsided?_eq_none_iff_forall.mp (firstUnsided?_eq_none_iff.mpr hb.sided)⟩
  rw [source.count_eq]
  exact hb.nonempty

/-- Jumps are given their targets once neither an instruction nor a side-set value is missing. -/
theorem mem_resolvedJumps_iff {source : Source} {jump : LocatedJump} :
    jump ∈ source.resolvedJumps ↔ source.Resolves ∧ source.Locates jump := by
  have hresolves : source.Resolves ↔
      ¬ (source.draft.count = 0 ∨ source.draft.firstUnsided?.isSome) := by
    rw [not_or, Option.not_isSome_iff_eq_none, firstUnsided?_eq_none_iff_forall]
    exact ⟨fun h => ⟨h.nonempty, h.sided⟩, fun h => ⟨h.1, h.2⟩⟩
  rw [resolvedJumps, hresolves]
  split
  · next hnot => simp [hnot]
  · next hyes => rw [mem_locatedJumps_iff, and_iff_right hyes]

/-- Where building succeeds, all jumps are resolved. -/
theorem Buildable.exists_resolvedJump {source : Source} (hb : source.Buildable) {position : Nat}
    {op : Operation String} (h : source.operations[position]? = some op) {name : String}
    (hname : op.instruction.target? = some name) :
    ∃ target : Addr, source.address name = some target.toNat ∧ target.toNat < source.count ∧
      ⟨UInt8.ofNat position, name, target⟩ ∈ source.resolvedJumps := by
  obtain ⟨a, ha, hinside⟩ := hb.located op (List.mem_of_getElem? h) name hname
  have htarget : (UInt8.ofNat a).toNat = a :=
    toNat_ofNat_of_le (hinside.le.trans source.count_le_capacity)
  refine ⟨UInt8.ofNat a, by rw [htarget]; exact ha, by rw [htarget]; exact hinside, ?_⟩
  rw [mem_resolvedJumps_iff]
  refine ⟨hb.resolves, ⟨op, ?_, hname⟩, ?_, ?_⟩
  · rw [toNat_ofNat_position h]
    exact h
  · rw [htarget]
    exact ha
  · rw [htarget, source.count_eq]
    exact hinside

theorem pairwise_resolvedJumps (source : Source) :
    source.resolvedJumps.Pairwise fun a b => a.addr < b.addr := by
  rw [resolvedJumps]
  split
  · exact List.Pairwise.nil
  · exact source.pairwise_locatedJumps

/-! ### What is logged about the program -/

/-- The events about the outcome of building. -/
def closing : Except Failure Program → List Event
  | .ok p => [.built p.words.length p.wrapTarget p.wrap]
  | .error _ => []

/-- The log at the end of building. -/
def log (source : Source) : List Event := (source.session.attempt Assembly.build).2.log

/-- **The log has three parts**: what the statements left, the jumps that were resolved, and the
outcome. -/
theorem log_eq (source : Source) :
    source.log = Statement.events 0 source.accepted ++ source.resolvedJumps.map LocatedJump.event
      ++ closing source.build := by
  have hevents : (source.draft.labels.resolve source.draft.words).events
      = source.locatedJumps.map LocatedJump.event := by
    rw [Labels.events_resolve, locatedJumps, List.map_filterMap]
    exact congrArg (List.filterMap · _) (funext Labels.Fate.event?_eq_map)
  have hlength : (source.draft.labels.resolve source.draft.words).words.length = source.draft.count := by
    simp [Labels.resolve, Draft.words, Draft.count]
  rw [← source.log_session, resolvedJumps, log, build, Session.attempt, Assembly.run_build,
    show source.session.draft = source.draft from rfl]
  -- the first two checks come before any jump is resolved, the other two after all of them
  by_cases hzero : source.draft.count = 0
  · simp [hzero, closing]
  · cases source.draft.firstUnsided? with
    | some addr => simp [hzero, closing]
    | none =>
      cases hcheck : (source.draft.labels.resolve source.draft.words).check with
      | error e => simp [hzero, hcheck, hevents, closing]
      | ok u =>
        by_cases hwrap : source.draft.effectiveWrapTarget > source.draft.effectiveWrap ∨
            source.draft.count ≤ source.draft.effectiveWrap.toNat
        · simp [hzero, hcheck, hwrap, hevents, closing]
        · simp [hzero, hcheck, hwrap, hevents, hlength, closing]

end Source

/-! ### Reading the log -/

namespace Event

/-- Address and word of an instruction. -/
def emitted? : Event → Option (Addr × Word)
  | .emitted addr word => some (addr, word)
  | _ => none

/-- The jump that was given its target. -/
def resolved? : Event → Option LocatedJump
  | .resolved addr label target => some ⟨addr, label, target⟩
  | _ => none

end Event

/-- Of the events of some statements exactly those of the instructions name words. -/
theorem Statement.filterMap_emitted?_events (count : Nat) (statements : List Statement) :
    (events count statements).filterMap Event.emitted? =
      (operations statements).mapIdx fun position op =>
        (UInt8.ofNat (count + position), op.instruction.bareWord) := by
  induction statements generalizing count with
  | nil => rfl
  | cons st rest ih =>
    rw [events, List.filterMap_append, ih]
    cases st with
    | instruction i =>
      rw [operations, List.mapIdx_cons]
      simp [isInstruction, event?, Event.emitted?, Nat.add_assoc, Nat.add_comm 1]
    | _ => rfl

/-- While statements are carried out no jump is resolved. -/
theorem Statement.filterMap_resolved?_events (count : Nat) (statements : List Statement) :
    (events count statements).filterMap Event.resolved? = [] := by
  induction statements generalizing count with
  | nil => rfl
  | cons st rest ih =>
    rw [events, List.filterMap_append, ih]
    cases st <;> rfl

namespace Source

/-- The words of a log are the bare words of the accepted instructions, at consecutive addresses. -/
theorem filterMap_emitted?_log (source : Source) :
    source.log.filterMap Event.emitted? = source.operations.mapIdx fun position op =>
      (UInt8.ofNat position, op.instruction.bareWord) := by
  have hjumps : (source.resolvedJumps.map LocatedJump.event).filterMap Event.emitted? = [] := by
    simp [List.filterMap_map, Function.comp_def, LocatedJump.event, Event.emitted?]
  have hclosing : (closing source.build).filterMap Event.emitted? = [] := by
    cases source.build <;> rfl
  rw [log_eq, List.filterMap_append, List.filterMap_append, hjumps, hclosing,
    Statement.filterMap_emitted?_events, List.append_nil, List.append_nil]
  simp [operations]

/-- The jumps of a log are those that were given their targets. -/
theorem filterMap_resolved?_log (source : Source) :
    source.log.filterMap Event.resolved? = source.resolvedJumps := by
  have hjumps : (source.resolvedJumps.map LocatedJump.event).filterMap Event.resolved?
      = source.resolvedJumps := by
    rw [List.filterMap_map]
    exact List.filterMap_some
  have hclosing : (closing source.build).filterMap Event.resolved? = [] := by
    cases source.build <;> rfl
  rw [log_eq, List.filterMap_append, List.filterMap_append, hjumps, hclosing,
    Statement.filterMap_resolved?_events, List.append_nil, List.nil_append]

/-- A jump is resolved once. -/
theorem filter_resolvedJumps {source : Source} {jump : LocatedJump} (h : jump ∈ source.resolvedJumps) :
    source.resolvedJumps.filter (·.addr = jump.addr) = [jump] := by
  obtain ⟨before, behind, hjumps⟩ := List.append_of_mem h
  have hordered := source.pairwise_resolvedJumps
  rw [hjumps] at hordered ⊢
  obtain ⟨-, hrest, hbefore⟩ := List.pairwise_append.mp hordered
  have hbehind := (List.pairwise_cons.mp hrest).1
  have hnone : before.filter (·.addr = jump.addr) = [] := by
    rw [List.filter_eq_nil_iff]
    intro other hother
    have hlt := hbefore other hother jump List.mem_cons_self
    simpa using UInt8.ne_of_lt hlt
  have hnone' : behind.filter (·.addr = jump.addr) = [] := by
    rw [List.filter_eq_nil_iff]
    intro other hother
    have hlt := hbehind other hother
    simpa using (UInt8.ne_of_lt hlt).symm
  rw [List.filter_append, hnone, List.filter_cons_of_pos (by simp), hnone', List.nil_append]

/-! ### Words in the log and words in the program -/

/-- What the log says about a word, and what the program has at its address. -/
structure WordAgrees (log : List Event) (p : Program) (addr : Addr) (logged final : Word) : Prop where
  /-- A word that is no jump differs by its qualifiers alone. -/
  plain : final.opcode ≠ .jmp → final.unqualified = logged
  /-- A jump has the target that the log gives, once, for its address. -/
  jump : final.opcode = .jmp → ∃ label target,
    (log.filterMap Event.resolved?).filter (·.addr = addr) = [⟨addr, label, target⟩] ∧
      target.toNat < p.words.length ∧ final.unqualified.toNat = logged.toNat + target.toNat
  listed : .word addr final ∈ p.lines
  /-- Log and listing name the same group. -/
  mnemonic : ∃ entry line, (Event.emitted addr logged).text = entry ++ " op=" ++ final.opcode.mnemonic ∧
    (Listing.Line.word addr final).text = line ++ " ; " ++ final.opcode.mnemonic

/-- What holds of the log at the end of building. -/
structure LogAgrees (source : Source) (log : List Event) : Prop where
  /-- The events of the accepted statements, then those of the jumps that have a target, then one about
  the program. -/
  parts : ∃ jumps : List LocatedJump,
    log = Statement.events 0 source.accepted ++ jumps.map LocatedJump.event ++ closing source.build ∧
      jumps.Pairwise (fun a b => a.addr < b.addr) ∧
      ∀ jump, jump ∈ jumps ↔ source.Resolves ∧ source.Locates jump
  addresses : (log.filterMap Event.emitted?).map Prod.fst
    = (List.range source.draft.count).map UInt8.ofNat
  length : ∀ p, source.build = .ok p → (log.filterMap Event.emitted?).length = p.words.length
  words : ∀ p, source.build = .ok p → ∀ (position : Nat) (addr : Addr) (logged final : Word),
    (log.filterMap Event.emitted?)[position]? = some (addr, logged) → p.words[position]? = some final →
      WordAgrees log p addr logged final

end Source

/-- Without a target nothing but the qualifiers is missing in the log. -/
theorem Operation.unqualified_word_of_plain {op : Operation String} (h : op.instruction.opcode ≠ .jmp)
    (f : String → Nat) (ss : SideSet) : ((op.map f).word ss).unqualified = op.instruction.bareWord := by
  have hnone : op.instruction.target? = none := by
    rw [← Option.not_isSome_iff_eq_none, ← Source.opcode_eq_jmp_iff]
    exact h
  have hsame : op.instruction.map f = op.instruction.map fun _ => 0 := by
    apply Instruction.map_congr
    rw [hnone]
    intro name hname
    cases hname
  rw [unqualified_word, map, hsame, Instruction.bareWord, Instruction.opcode_map,
    Instruction.selector_map]

/-- The address field of a jump is zero in the log, so that the target is added to it. -/
theorem Operation.toNat_unqualified_word_of_jump {op : Operation String} {name : String}
    (h : op.instruction.target? = some name) (f : String → Nat) (hlt : f name < 32) (ss : SideSet) :
    ((op.map f).word ss).unqualified.toNat = op.instruction.bareWord.toNat + f name := by
  obtain ⟨i, delay, side⟩ := op
  cases i with
  | jmp condition label =>
    cases h
    rw [unqualified_word, Instruction.bareWord, Word.toNat_ofFields, Word.toNat_ofFields]
    simp [map, Instruction.map, Instruction.fields, Instruction.opcode, Instruction.selector,
      Nat.mod_eq_of_lt hlt]
  | _ => cases h

/-- The entry of an instruction ends with the name of its group. -/
theorem Event.text_emitted (addr : Addr) (word : Word) :
    ∃ entry, (Event.emitted addr word).text = entry ++ " op=" ++ word.opcode.mnemonic := by
  refine ⟨Level.name .trace ++ " " ++ ("emit addr=" ++ toString addr ++ " word=0x" ++ word.hex), ?_⟩
  rw [String.append_assoc, String.append_assoc]
  exact congrArg (Level.name .trace ++ " " ++ ·) (String.append_assoc ..)

theorem Listing.Line.text_word (addr : Addr) (w : Word) :
    ∃ line, (Line.word addr w).text = line ++ " ; " ++ w.opcode.mnemonic := ⟨_, rfl⟩

/-- Every word has a line in the listing. -/
theorem Program.word_mem_lines {p : Program} {position : Nat} {w : Word}
    (h : p.words[position]? = some w) : .word (UInt8.ofNat position) w ∈ p.lines := by
  obtain ⟨hlt, rfl⟩ := List.getElem?_eq_some_iff.mp h
  refine List.mem_append_right _ (List.mem_flatten.mpr ⟨p.linesAt position p.words[position], ?_, ?_⟩)
  · exact List.mem_mapIdx.mpr ⟨position, hlt, rfl⟩
  · simp [linesAt]

namespace Source

/-- The word that was logged for an operation and the word it has in the program agree. -/
theorem wordAgrees {source : Source} (hb : source.Buildable) {position : Nat} {op : Operation String}
    (h : source.operations[position]? = some op) :
    WordAgrees source.log source.image (UInt8.ofNat position) op.instruction.bareWord
      ((source.locate op).word source.sideSet) := by
  have hop : Word.opcode ((source.locate op).word source.sideSet) = op.instruction.opcode := by
    rw [Operation.opcode_word, locate, Operation.map, Instruction.opcode_map]
  refine ⟨?_, ?_, ?_, ?_⟩
  · rw [hop]
    intro hplain
    exact Operation.unqualified_word_of_plain hplain _ _
  · -- a jump differs from what was logged by its target, and there is one event that names it
    rw [hop, opcode_eq_jmp_iff, Option.isSome_iff_exists]
    rintro ⟨name, hname⟩
    obtain ⟨target, haddress, hinside, hmem⟩ := hb.exists_resolvedJump h hname
    have hcap : source.count ≤ 32 := source.count_le_capacity
    refine ⟨name, target, ?_, ?_, ?_⟩
    · rw [filterMap_resolved?_log]
      exact filter_resolvedJumps hmem
    · rw [image, List.length_map, source.length_operations]
      exact hinside
    · have hlocated : (source.address name).getD 0 = target.toNat := by rw [haddress]; rfl
      rw [locate, Operation.toNat_unqualified_word_of_jump hname _ (by omega), hlocated]
  · apply Program.word_mem_lines
    rw [image, List.getElem?_map, h]
    rfl
  · obtain ⟨entry, hentry⟩ := Event.text_emitted (UInt8.ofNat position) op.instruction.bareWord
    obtain ⟨line, hline⟩ := Listing.Line.text_word (UInt8.ofNat position)
      ((source.locate op).word source.sideSet)
    rw [Instruction.opcode_bareWord, ← hop] at hentry
    exact ⟨entry, line, hentry, hline⟩

/-- **The log agrees with what was said and with what is built.** -/
theorem logAgrees_build (source : Source) :
    source.LogAgrees (source.session.attempt Assembly.build).2.log := by
  show source.LogAgrees source.log
  refine ⟨⟨source.resolvedJumps, source.log_eq, source.pairwise_resolvedJumps,
    fun _ => mem_resolvedJumps_iff⟩, ?_, ?_, ?_⟩
  · rw [filterMap_emitted?_log, source.count_eq, ← source.length_operations]
    apply List.ext_getElem
    · simp
    · intro position _ _
      simp
  · intro p hp
    obtain ⟨-, rfl⟩ := build_eq_ok_iff.mp hp
    rw [filterMap_emitted?_log, image, List.length_mapIdx, List.length_map]
  · -- the entry and the word come from the operation at that position
    intro p hp position addr logged final hlogged hfinal
    obtain ⟨hb, rfl⟩ := build_eq_ok_iff.mp hp
    rw [filterMap_emitted?_log, List.getElem?_mapIdx] at hlogged
    obtain ⟨op, hop, hlogged⟩ := Option.map_eq_some_iff.mp hlogged
    cases hlogged
    rw [image, List.getElem?_map, hop] at hfinal
    cases hfinal
    exact wordAgrees hb hop

-- the first jump is resolved although the second one makes building fail
example :
    log [.instruction (.jmp .always "end"), .delay 3, .label "end", .instruction (.jmp .pin "nowhere")]
      = [.emitted 0 0x0000#16, .labelled "end" 1, .emitted 1 0x00c0#16, .resolved 0 "end" 1] := by
  decide +kernel

end Source

end PioAssembler
