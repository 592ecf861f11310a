import Mathlib.Logic.Equiv.Basic
import PioAssembler.Proofs.Replay
import PioAssembler.Proofs.Resolution

/-!
# Labels are opaque

A label is compared with other labels and otherwise only handed on. If all labels of a source are renamed,
different ones staying different, then every statement is answered as before, and so is building:
`Source.sameRun_rename`.

The two runs are compared by relations, one for each part of the state: `SymbolTable.Renamed`,
`Labels.Renamed`, `Draft.Renamed`. The names that the symbol table holds are in the order of their own
bytes on either side, so of two tables only the entries can be compared, not their places. `Alike` relates
the results of two steps.
-/

namespace PioAssembler

/-! ### Renaming -/

/-- The statement with another name for its label. -/
def Statement.rename (f : String → String) : Statement → Statement
  | .instruction i => .instruction (i.map f)
  | .label name => .label (f name)
  | st => st

/-- The statements with other names for their labels. -/
def Source.rename (f : String → String) (source : Source) : Source := source.map (Statement.rename f)

/-- The jump with another name for its target. -/
def BadJump.rename (f : String → String) (jump : BadJump) : BadJump :=
  { jump with label := f jump.label }

/-- The error with other names for the labels it mentions. -/
def Error.rename (f : String → String) : Error → Error
  | .unresolvedLabels jumps => .unresolvedLabels (jumps.map (BadJump.rename f))
  | .duplicateLabel name first second => .duplicateLabel (f name) first second
  | e => e

/-- The failure with other names for the labels it mentions. A trap mentions none. -/
def Failure.rename (f : String → String) : Failure → Failure
  | .rejected e => .rejected (e.rename f)
  | .trapped trap => .trapped trap

/-! ### Tables -/

/-- Two tables in order have the same entries, up to the names of the labels. The order leaves no choice
for the second one. -/
structure SymbolTable.Renamed (f : String → String) (table table' : SymbolTable) : Prop where
  ordered : table.Ordered
  ordered' : table'.Ordered
  entries : table'.Perm (table.map (Prod.map f id))

namespace SymbolTable.Renamed

variable {f : String → String} {table table' : SymbolTable}

theorem nil (f : String → String) : Renamed f [] [] := ⟨.nil, .nil, .nil⟩

/-- Under its new name a label has the address it had. -/
theorem find? (h : table.Renamed f table') (hf : Function.Injective f) (name : String) :
    table'.find? (f name) = table.find? name := by
  ext addr
  rw [find?_eq_some_iff h.ordered'.nodup_names, find?_eq_some_iff h.ordered.nodup_names,
    h.entries.mem_iff]
  have hinj : Function.Injective (Prod.map f (id : Addr → Addr)) := hf.prodMap Function.injective_id
  exact List.mem_map_of_injective hinj (a := (name, addr))

/-- A new label and a renamed new label find their places, each in its own table. -/
theorem insert (h : table.Renamed f table') (hf : Function.Injective f) {name : String}
    (hnone : table.find? name = none) (addr : Addr) :
    (table.insert name addr).Renamed f (table'.insert (f name) addr) := by
  have hnone' : table'.find? (f name) = none := by
    rw [h.find? hf, hnone]
  refine ⟨h.ordered.insert hnone, h.ordered'.insert hnone', ?_⟩
  calc List.Perm (table'.insert (f name) addr) ((f name, addr) :: table') := insert_perm _ _ _
    List.Perm _ (((name, addr) :: table).map (Prod.map f id)) := h.entries.cons _
    List.Perm _ ((table.insert name addr).map (Prod.map f id)) := (insert_perm _ _ _).symm.map _

end SymbolTable.Renamed

/-! ### Labels -/

namespace Labels

/-- The labels are the same up to their names, both the defined and the awaited ones. -/
structure Renamed (f : String → String) (labels labels' : Labels) : Prop where
  symbols : labels.symbols.Renamed f labels'.symbols
  waiting : labels'.waiting = labels.waiting.map (Prod.map id f)

/-- The fate with another name for the label it mentions. -/
def Fate.rename (f : String → String) : Fate → Fate
  | .kept => .kept
  | .bound addr label target => .bound addr (f label) target
  | .bad jump => .bad (jump.rename f)

theorem Fate.apply_rename (f : String → String) (fate : Fate) (w : Word) :
    (fate.rename f).apply w = fate.apply w := by
  cases fate <;> rfl

/-- A complaint about a jump names the label by its new name. -/
theorem Fate.badJump?_rename (f : String → String) (fate : Fate) :
    (fate.rename f).badJump? = fate.badJump?.map (BadJump.rename f) := by
  cases fate <;> rfl

namespace Renamed

variable {f : String → String} {labels labels' : Labels}

theorem lookup (h : labels.Renamed f labels') (hf : Function.Injective f) (name : String) :
    labels'.lookup (f name) = labels.lookup name := h.symbols.find? hf name

/-- A jump waits for the new name of its label. -/
theorem awaited (h : labels.Renamed f labels') (addr : Addr) :
    labels'.awaited addr = (labels.awaited addr).map f := by
  rw [Labels.awaited, Labels.awaited, h.waiting]
  induction labels.waiting with
  | nil => rfl
  | cons entry rest ih =>
    rw [List.map_cons, List.lookup_cons, List.lookup_cons, ih]
    show (bif addr == entry.1 then _ else _) = _
    cases addr == entry.1 <;> rfl

theorem await (h : labels.Renamed f labels') (addr : Addr) (name : String) :
    (labels.await addr name).Renamed f (labels'.await addr (f name)) := by
  refine ⟨h.symbols, ?_⟩
  rw [Labels.await, h.waiting]
  rfl

/-- **The fate of a word is the same up to the name of its label**, since labels are only compared. -/
theorem fate (h : labels.Renamed f labels') (hf : Function.Injective f) (count : Nat) (w : Word)
    (position : Nat) :
    labels'.fate count w position = (labels.fate count w position).rename f := by
  simp only [Labels.fate, h.awaited]
  by_cases hjmp : w.opcode = .jmp
  · simp only [if_pos hjmp]
    cases labels.awaited (UInt8.ofNat position) with
    | none => rfl
    | some name =>
      simp only [Option.map_some, h.lookup hf]
      cases labels.lookup name with
      | none => rfl
      | some target =>
        dsimp only
        split <;> rfl
  · rw [if_neg hjmp, if_neg hjmp]
    rfl

/-- Jumps are given the same targets under either name. -/
theorem words_resolve (h : labels.Renamed f labels') (hf : Function.Injective f) (words : List Word) :
    (labels'.resolve words).words = (labels.resolve words).words := by
  apply List.ext_getElem?
  intro position
  rw [getElem?_words_resolve, getElem?_words_resolve]
  simp only [h.fate hf, Fate.apply_rename]

/-- The same jumps go astray, in the same order. -/
theorem badJumps_resolve (h : labels.Renamed f labels') (hf : Function.Injective f)
    (words : List Word) :
    (labels'.resolve words).badJumps = (labels.resolve words).badJumps.map (BadJump.rename f) := by
  have hfates : labels'.fates words = (labels.fates words).map (Fate.rename f) := by
    apply List.ext_getElem?
    intro position
    rw [List.getElem?_map, getElem?_fates, getElem?_fates, Option.map_map]
    simp only [h.fate hf]
    rfl
  rw [Labels.badJumps_resolve, Labels.badJumps_resolve, hfates, List.filterMap_map, List.map_filterMap]
  exact congrArg (List.filterMap · _) (funext (Fate.badJump?_rename f))

/-- A resolution succeeds or fails under either name. -/
theorem check_resolve (h : labels.Renamed f labels') (hf : Function.Injective f) (words : List Word) :
    (labels'.resolve words).check = (labels.resolve words).check.mapError (Error.rename f) := by
  rw [Labels.check_resolve, Labels.check_resolve, h.badJumps_resolve hf]
  simp only [List.map_eq_nil_iff]
  split <;> rfl

end Renamed

end Labels

/-! ### Drafts -/

/-- The drafts differ in the names of the labels alone. -/
structure Draft.Renamed (f : String → String) (d d' : Draft) : Prop where
  slots : d'.slots = d.slots
  last : d'.last = d.last
  wrapTarget : d'.wrapTarget = d.wrapTarget
  wrap : d'.wrap = d.wrap
  sideSet : d'.sideSet = d.sideSet
  labels : d.labels.Renamed f d'.labels

namespace Draft.Renamed

variable {f : String → String} {d d' : Draft}

theorem empty (f : String → String) : Renamed f {} {} := ⟨rfl, rfl, rfl, rfl, rfl, .nil f, rfl⟩

theorem count (h : d.Renamed f d') : d'.count = d.count := congrArg List.length h.slots

theorem words (h : d.Renamed f d') : d'.words = d.words := congrArg (List.map Slot.word) h.slots

theorem nextAddr (h : d.Renamed f d') : d'.nextAddr = d.nextAddr := congrArg UInt8.ofNat h.count

theorem effectiveSideSet (h : d.Renamed f d') : d'.effectiveSideSet = d.effectiveSideSet := by
  rw [Draft.effectiveSideSet, Draft.effectiveSideSet, h.sideSet]

theorem effectiveWrapTarget (h : d.Renamed f d') :
    d'.effectiveWrapTarget = d.effectiveWrapTarget := by
  rw [Draft.effectiveWrapTarget, Draft.effectiveWrapTarget, h.wrapTarget]

theorem effectiveWrap (h : d.Renamed f d') : d'.effectiveWrap = d.effectiveWrap := by
  rw [Draft.effectiveWrap, Draft.effectiveWrap, h.wrap, h.count]

theorem firstUnsided? (h : d.Renamed f d') : d'.firstUnsided? = d.firstUnsided? := by
  rw [Draft.firstUnsided?, Draft.firstUnsided?, h.effectiveSideSet, h.slots]

/-- An instruction that names a label and its renamed twin lead to drafts that differ in names alone. -/
theorem instruction (h : d.Renamed f d') (word : Word) (i : Instruction String) :
    ((d.append word).await d.nextAddr i).Renamed f
      ((d'.append word).await d'.nextAddr (i.map f)) := by
  have happend : (d.append word).Renamed f (d'.append word) :=
    { h with
      slots := congrArg (· ++ _) h.slots
      last := congrArg some h.nextAddr }
  rw [h.nextAddr]
  cases i with
  | jmp condition name => exact { happend with labels := happend.labels.await _ name }
  | _ => exact happend

/-- A new label and its renamed twin lead to drafts that differ in names alone. -/
theorem label (h : d.Renamed f d') (hf : Function.Injective f) {name : String}
    (hnone : d.labels.lookup name = none) (addr : Addr) :
    Renamed f { d with labels.symbols := d.labels.symbols.insert name addr }
      { d' with labels.symbols := d'.labels.symbols.insert (f name) addr } :=
  { h with labels := ⟨h.labels.symbols.insert hf hnone addr, h.labels.waiting⟩ }

theorem replace (h : d.Renamed f d') (addr : Addr) (slot : Slot) :
    (d.replace addr slot).Renamed f (d'.replace addr slot) :=
  { h with slots := congrArg (List.set · addr.toNat slot) h.slots }

end Draft.Renamed

/-! ### Failures that name no label -/

/-- An instruction is encoded without a look at its label. -/
theorem Instruction.encode_map {τ σ : Type} (g : τ → σ) (i : Instruction τ) :
    (i.map g).encode = i.encode := by
  cases i <;> rfl

/-- What a step with two parts fails with is what one of the parts fails with. -/
theorem mapError_bind_eq_self {ε α β : Type} {e : ε → ε} {x : Except ε α} {g : α → Except ε β}
    (hx : x.mapError e = x) (hg : ∀ a, (g a).mapError e = g a) :
    (x >>= g).mapError e = x >>= g := by
  cases x with
  | ok a => exact hg a
  | error failure => exact congrArg Except.error (Except.error.inj hx)

/-- An error that a computation keeps under a change of its errors is kept by the change. -/
theorem eq_of_mapError_eq_self {ε α : Type} {e : ε → ε} {x : Except ε α} {failure : ε}
    (h : x.mapError e = x) (hx : x = .error failure) : e failure = failure := by
  rw [hx] at h
  exact Except.error.inj h

section

variable (f : String → String)

theorem mapError_checkRange (what : String) (value min max : Nat) :
    (checkRange what value min max).mapError (Error.rename f) = checkRange what value min max := by
  rw [checkRange]
  split <;> rfl

/-- No error of encoding an instruction names a label. -/
theorem Instruction.mapError_encode (i : Instruction String) :
    i.encode.mapError (Error.rename f) = i.encode := by
  refine mapError_bind_eq_self ?_ fun _ => rfl
  cases i with
  | jmp | push | pull | mov => rfl
  | wait | irq | set | shiftIn | shiftOut =>
    exact mapError_bind_eq_self (mapError_checkRange f _ _ _ _) fun _ => rfl

/-- No error of a configuration names a label. -/
theorem SideSet.mapError_configure (width : UInt8) (optional pindirs : Bool) :
    (configure width optional pindirs).mapError (Error.rename f) = configure width optional pindirs :=
  mapError_bind_eq_self (mapError_checkRange f _ _ _ _) fun _ => rfl

/-- Neither an error nor a trap of a qualifier names a label. -/
theorem Qualifier.mapError_apply (q : Qualifier) (w : Word) (value : UInt8) (ss : SideSet) :
    (q.apply w value ss).mapError (Failure.rename f) = q.apply w value ss := by
  have hcheck : ∀ (what : String) (n min max : Nat),
      ((checkRange what n min max).mapError .rejected).mapError (Failure.rename f)
        = (checkRange what n min max).mapError .rejected := by
    intro what n min max
    rw [checkRange]
    split <;> rfl
  have htrap : ∀ x : Except Trap Nat,
      (x.mapError Failure.trapped).mapError (Failure.rename f) = x.mapError .trapped := by
    intro x
    cases x <;> rfl
  -- applying a qualifier is a sequence of such checks
  cases q with
  | delay =>
    exact mapError_bind_eq_self (htrap _) fun max => mapError_bind_eq_self (hcheck _ _ _ _) fun _ => rfl
  | side =>
    rw [Qualifier.apply, Word.withSide]
    cases ss.enabled with
    | false => rfl
    | true =>
      rw [if_pos rfl]
      refine mapError_bind_eq_self (htrap _) fun max => mapError_bind_eq_self (hcheck _ _ _ _) fun _ => ?_
      cases ss.optional with
      | true => exact mapError_bind_eq_self (htrap _) fun _ => rfl
      | false => exact mapError_bind_eq_self (htrap _) fun _ => rfl

end

/-! ### Steps -/

/-- Two steps end alike: they give related values or fail for the same reason, up to the names of labels,
and leave drafts that differ in these names alone. -/
inductive Alike (f : String → String) {α : Type} (R : α → α → Prop) :
    EStateM.Result Failure Session α → EStateM.Result Failure Session α → Prop where
  | ok {a b : α} {s s' : Session} (value : R a b) (draft : s.draft.Renamed f s'.draft) :
      Alike f R (.ok a s) (.ok b s')
  | error {failure failure' : Failure} {s s' : Session} (failure_eq : failure' = failure.rename f)
      (draft : s.draft.Renamed f s'.draft) : Alike f R (.error failure s) (.error failure' s')

namespace Alike

variable {f : String → String} {s s' : Session}

/-- An instruction is appended or refused for the same reason. -/
theorem instruction (h : s.draft.Renamed f s'.draft) (i : Instruction String) :
    Alike f Eq ((Assembly.instruction i).run s) ((Assembly.instruction (i.map f)).run s') := by
  rw [Assembly.run_instruction, Assembly.run_instruction, Instruction.encode_map, h.count]
  cases hi : i.encode with
  | error e =>
    have hsame := eq_of_mapError_eq_self (i.mapError_encode f) hi
    exact .error (congrArg Failure.rejected hsame.symm) h
  | ok word =>
    dsimp only
    split
    · exact .error rfl h
    · exact .ok rfl (h.instruction word i)

/-- A label is defined under both names or under neither: a duplicate stays one, as different labels stay
different. -/
theorem label (h : s.draft.Renamed f s'.draft) (hf : Function.Injective f) (name : String) :
    Alike f Eq ((Assembly.label name).run s) ((Assembly.label (f name)).run s') := by
  rw [Assembly.run_label, Assembly.run_label, Labels.define, Labels.define, h.labels.lookup hf,
    h.nextAddr]
  cases hl : s.draft.labels.lookup name with
  | some first => exact .error rfl h
  | none => exact .ok rfl (h.label hf hl _)

/-- A configuration is accepted or refused for the same reason. -/
theorem sideSet (h : s.draft.Renamed f s'.draft) (width : UInt8) (optional pindirs : Bool) :
    Alike f Eq ((Assembly.sideSet width optional pindirs).run s)
      ((Assembly.sideSet width optional pindirs).run s') := by
  rw [Assembly.run_sideSet, Assembly.run_sideSet, h.sideSet, h.count]
  cases hc : SideSet.configure width optional pindirs with
  | error e =>
    have hsame := eq_of_mapError_eq_self (SideSet.mapError_configure f width optional pindirs) hc
    exact .error (congrArg Failure.rejected hsame.symm) h
  | ok ss =>
    dsimp only
    split
    · exact .error rfl h
    · split
      · exact .error rfl h
      · exact .ok rfl { h with sideSet := rfl }

/-- A qualifier is added or refused for the same reason. -/
theorem qualify (h : s.draft.Renamed f s'.draft) (q : Qualifier) (value : UInt8) :
    Alike f Eq ((Assembly.qualify q value).run s) ((Assembly.qualify q value).run s') := by
  rw [Assembly.run_qualify, Assembly.run_qualify, h.last, h.slots, h.effectiveSideSet, h.count]
  cases s.draft.last with
  | none => exact .error rfl h
  | some addr =>
    dsimp only
    cases s.draft.slots[addr.toNat]? with
    | none => exact .error rfl h
    | some slot =>
      dsimp only
      split
      · exact .error rfl h
      · cases happly : q.apply slot.word value s.draft.effectiveSideSet with
        | error failure => exact .error (eq_of_mapError_eq_self (q.mapError_apply f _ _ _) happly).symm h
        | ok word => exact .ok rfl (h.replace addr _)

/-- **A renamed statement does what the statement does.** -/
theorem statement (h : s.draft.Renamed f s'.draft) (hf : Function.Injective f) (st : Statement) :
    Alike f Eq (st.run.run s) ((st.rename f).run.run s') := by
  cases st with
  | instruction i => exact instruction h i
  | label name => exact label h hf name
  | wrapTarget => exact .ok rfl { h with wrapTarget := congrArg some h.nextAddr }
  | wrap =>
    show Alike f Eq (Assembly.wrap.run s) (Assembly.wrap.run s')
    rw [Assembly.run_wrap, Assembly.run_wrap, h.count]
    split
    · exact .error rfl h
    · exact .ok rfl { h with wrap := rfl }
  | sideSet width optional pindirs => exact sideSet h width optional pindirs
  | delay cycles => exact qualify h .delay cycles
  | side value => exact qualify h .side value

end Alike

/-- The programs differ in the names of the labels alone. -/
structure Program.Renamed (f : String → String) (p p' : Program) : Prop where
  words : p'.words = p.words
  wrapTarget : p'.wrapTarget = p.wrapTarget
  wrap : p'.wrap = p.wrap
  sideSet : p'.sideSet = p.sideSet
  symbols : p.symbols.Renamed f p'.symbols

namespace Alike

variable {f : String → String} {s s' : Session}

/-- **Building a renamed draft does what building the draft does.** -/
theorem build (h : s.draft.Renamed f s'.draft) (hf : Function.Injective f) :
    Alike f (Program.Renamed f) (Assembly.build.run s) (Assembly.build.run s') := by
  have hwords := h.labels.words_resolve hf s.draft.words
  have hcheck := h.labels.check_resolve hf s.draft.words
  rw [Assembly.run_build, Assembly.run_build]
  dsimp only
  rw [h.count, h.firstUnsided?, h.words, h.effectiveWrapTarget, h.effectiveWrap, h.effectiveSideSet,
    hcheck]
  -- both sides now make the same checks on the same values
  split
  · exact .error rfl h
  · cases s.draft.firstUnsided? with
    | some addr => exact .error rfl h
    | none =>
      cases (s.draft.labels.resolve s.draft.words).check with
      | error e => exact .error rfl h
      | ok u =>
        dsimp only [mapError_ok]
        split
        · exact .error rfl h
        · exact .ok ⟨hwords, rfl, rfl, rfl, h.labels.symbols⟩ h

/-- What two steps answer that end alike, and what they leave behind. -/
theorem attempt {α : Type} {R : α → α → Prop} {x y : Assembly α} (h : Alike f R (x.run s) (y.run s')) :
    ((∃ a b, (s.attempt x).1 = .ok a ∧ (s'.attempt y).1 = .ok b ∧ R a b) ∨
        ∃ failure, (s.attempt x).1 = .error failure ∧
          (s'.attempt y).1 = .error (failure.rename f)) ∧
      (s.attempt x).2.draft.Renamed f (s'.attempt y).2.draft := by
  rw [Session.attempt, Session.attempt]
  generalize x.run s = r at h ⊢
  generalize y.run s' = r' at h ⊢
  cases h with
  | ok value draft => exact ⟨.inl ⟨_, _, rfl, rfl, value⟩, draft⟩
  | error failure_eq draft => exact ⟨.inr ⟨_, rfl, congrArg Except.error failure_eq⟩, draft⟩

end Alike

/-! ### Runs -/

namespace Session

variable {f : String → String} {s s' : Session}

/-- One statement: the answer and the draft afterwards are the same up to names. -/
theorem attempt_rename (h : s.draft.Renamed f s'.draft) (hf : Function.Injective f) (st : Statement) :
    (s'.attempt (st.rename f).run).1 = (s.attempt st.run).1.mapError (Failure.rename f) ∧
      (s.attempt st.run).2.draft.Renamed f (s'.attempt (st.rename f).run).2.draft := by
  obtain ⟨⟨a, b, ha, hb, -⟩ | ⟨failure, ha, hb⟩, hdraft⟩ := (Alike.statement h hf st).attempt
  · exact ⟨by rw [ha, hb]; rfl, hdraft⟩
  · exact ⟨by rw [ha, hb]; rfl, hdraft⟩

/-- A run of statements ends in drafts that differ in names alone. -/
theorem after_rename (h : s.draft.Renamed f s'.draft) (hf : Function.Injective f) (source : Source) :
    (s.after source).draft.Renamed f (s'.after (source.rename f)).draft := by
  induction source generalizing s s' with
  | nil => exact h
  | cons st rest ih => exact ih (attempt_rename h hf st).2

/-- A run of statements is answered in the same way, statement by statement. -/
theorem answers_rename (h : s.draft.Renamed f s'.draft) (hf : Function.Injective f) (source : Source) :
    s'.answers (source.rename f) = (s.answers source).map (·.mapError (Failure.rename f)) := by
  induction source generalizing s s' with
  | nil => rfl
  | cons st rest ih =>
    obtain ⟨hanswer, hdraft⟩ := attempt_rename h hf st
    show (s'.attempt (st.rename f).run).1 :: _ = _ :: _
    rw [hanswer]
    exact congrArg (_ :: ·) (ih hdraft)

end Session

namespace Source

/-- Two sources are carried out alike, up to the names of labels. -/
structure SameRun (f : String → String) (source source' : Source) : Prop where
  answers : source'.answers = source.answers.map (·.mapError (Failure.rename f))
  /-- After each statement there are equally many instructions. -/
  count : ∀ n, (draft (source'.take n)).count = (draft (source.take n)).count
  fails : ∀ failure, source.build = .error failure → source'.build = .error (failure.rename f)
  builds : ∀ p, source.build = .ok p → ∃ p', source'.build = .ok p' ∧ p.Renamed f p'

/-- A source and the renamed source lead to drafts that differ in names alone. -/
theorem draft_rename {f : String → String} (hf : Function.Injective f) (source : Source) :
    source.draft.Renamed f (draft (source.rename f)) :=
  Session.after_rename (.empty f) hf source

/-- **Labels are opaque**: renaming all of them, different ones staying different, changes nothing but
the names. -/
theorem sameRun_rename (f : String → String) (hf : Function.Injective f) (source : Source) :
    SameRun f source (source.rename f) := by
  have hbuild := (Alike.build (source.draft_rename hf) hf).attempt.1
  refine ⟨Session.answers_rename (.empty f) hf source, ?_, ?_, ?_⟩
  · intro n
    rw [rename, ← List.map_take]
    exact (draft_rename hf (source.take n)).count
  · intro failure hfailure
    obtain ⟨a, b, ha, -, -⟩ | ⟨failure', ha, hb⟩ := hbuild
    · cases hfailure.symm.trans ha
    · cases hfailure.symm.trans ha
      exact hb
  · intro p hp
    obtain ⟨a, b, ha, hb, hrenamed⟩ | ⟨failure, ha, -⟩ := hbuild
    · cases hp.symm.trans ha
      exact ⟨b, hb, hrenamed⟩
    · cases hp.symm.trans ha

/-- A duplicate is refused under either name, and the two labels change places in the symbol table. -/
theorem sameRun_rename_reordered :
    let f := Equiv.swap "a" "é\n"
    let source : Source := [.label "a", .instruction (.jmp .always "z"), .label "a", .label "z",
      .instruction .nop]
    answers (source.rename f)
        = [.ok (), .ok (), .error (.rejected (.duplicateLabel "é\n" 0 1)), .ok (), .ok ()] ∧
      build (source.rename f) = .ok ⟨[0x0001#16, 0xa042#16], 0, 1, {}, [("z", 1), ("é\n", 0)]⟩ ∧
      source.build = .ok ⟨[0x0001#16, 0xa042#16], 0, 1, {}, [("a", 0), ("z", 1)]⟩ ∧
      SameRun f source (source.rename f) :=
  ⟨by decide +kernel, by decide +kernel, by decide +kernel,
    sameRun_rename _ (Equiv.injective _) _⟩

end Source

end PioAssembler
