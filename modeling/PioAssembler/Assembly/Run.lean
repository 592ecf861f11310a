import PioAssembler.Assembly.Session
import PioAssembler.Assembly.Statement

/-!
# Carrying out statements

`Statement.run` carries out one statement. The equations `run_instruction` to `run_qualify` say what
each kind of statement does to a session, and when it fails.
-/

namespace PioAssembler

namespace Assembly

/-! ### Instructions -/

/-- Appends a word, if the memory has room for it. -/
def emit (word : Word) : Assembly Unit := do
  let d ← draft
  if capacity ≤ d.count then
    reject .programTooLarge
  record [.emitted d.nextAddr word]
  revise (·.append word)

/-- Appends an instruction; a jump waits for its label from then on. -/
def instruction (i : Instruction String) : Assembly Unit := do
  let addr := (← draft).nextAddr
  emit (← accept (i.encode.mapError .rejected))
  revise (·.await addr i)

/-! ### Directives -/

/-- Defines a label at the next address. -/
def label (name : String) : Assembly Unit := do
  let d ← draft
  let labels ← accept ((d.labels.define name d.nextAddr).mapError .rejected)
  revise ({ · with labels })
  record [.labelled name d.nextAddr]

/-- Starts the wrap window at the next address; a later call wins. -/
def wrapTarget : Assembly Unit :=
  revise fun d => { d with wrapTarget := some d.nextAddr }

/-- Ends the wrap window at the last instruction; a later call wins. -/
def wrap : Assembly Unit := do
  let d ← draft
  if d.count = 0 then
    reject (.noInstruction "wrap")
  revise ({ · with wrap := some (UInt8.ofNat (d.count - 1)) })

/-- Configures side-set, once and before the first instruction. -/
def sideSet (width : UInt8) (optional pindirs : Bool) : Assembly Unit := do
  let ss ← accept ((SideSet.configure width optional pindirs).mapError .rejected)
  let d ← draft
  if d.sideSet.isSome then
    reject (.misconfiguredSideSet "side_set given more than once")
  if d.count ≠ 0 then
    reject (.misconfiguredSideSet "side_set after the first instruction")
  record [.configured ss]
  revise ({ · with sideSet := some ss })

/-! ### Qualifiers -/

/-- Adds a qualifier to the last instruction, which must not have it yet. -/
def qualify (q : Qualifier) (value : UInt8) : Assembly Unit := do
  let d ← draft
  match d.last with
  | none => reject (.noInstruction q.name)
  | some addr =>
      match d.slots[addr.toNat]? with
      | none => throw (.trapped (.index d.count addr.toNat))
      | some slot =>
          if slot.has q then
            reject (.duplicateQualifier q.name addr)
          let word ← accept (q.apply slot.word value d.effectiveSideSet)
          revise (·.replace addr (slot.qualify q word))

/-! ### What each statement does -/

/-- A word is appended and logged, unless the memory is full. -/
theorem run_emit (word : Word) (s : Session) :
    (emit word).run s =
      if capacity ≤ s.draft.count then .error (.rejected .programTooLarge) s
      else .ok () ⟨s.draft.append word, s.log ++ [.emitted s.draft.nextAddr word]⟩ := by
  by_cases h : capacity ≤ s.draft.count <;> simp [emit, h]

/-- An immediate out of range is reported before a full memory. -/
theorem run_instruction (i : Instruction String) (s : Session) :
    (instruction i).run s =
      match i.encode with
      | .error e => .error (.rejected e) s
      | .ok word =>
          if capacity ≤ s.draft.count then .error (.rejected .programTooLarge) s
          else .ok () ⟨(s.draft.append word).await s.draft.nextAddr i,
            s.log ++ [.emitted s.draft.nextAddr word]⟩ := by
  cases he : i.encode with
  | error e => simp [instruction, he]
  | ok word =>
    by_cases h : capacity ≤ s.draft.count <;>
      simp [instruction, he, run_emit, h]

/-- A label is logged with its address if it is new. -/
theorem run_label (name : String) (s : Session) :
    (label name).run s =
      match s.draft.labels.define name s.draft.nextAddr with
      | .error e => .error (.rejected e) s
      | .ok labels =>
          .ok () ⟨{ s.draft with labels }, s.log ++ [.labelled name s.draft.nextAddr]⟩ := by
  cases h : s.draft.labels.define name s.draft.nextAddr <;> simp [label, h]

theorem run_wrapTarget (s : Session) :
    wrapTarget.run s =
      .ok () { s with draft := { s.draft with wrapTarget := some s.draft.nextAddr } } := rfl

theorem run_wrap (s : Session) :
    wrap.run s =
      if s.draft.count = 0 then .error (.rejected (.noInstruction "wrap")) s
      else .ok ()
        { s with draft := { s.draft with wrap := some (UInt8.ofNat (s.draft.count - 1)) } } := by
  by_cases h : s.draft.count = 0 <;> simp [wrap, h]

/-- A width out of range is reported before a second or a late configuration. -/
theorem run_sideSet (width : UInt8) (optional pindirs : Bool) (s : Session) :
    (sideSet width optional pindirs).run s =
      match SideSet.configure width optional pindirs with
      | .error e => .error (.rejected e) s
      | .ok ss =>
          if s.draft.sideSet.isSome then
            .error (.rejected (.misconfiguredSideSet "side_set given more than once")) s
          else if s.draft.count ≠ 0 then
            .error (.rejected (.misconfiguredSideSet "side_set after the first instruction")) s
          else .ok () ⟨{ s.draft with sideSet := some ss }, s.log ++ [.configured ss]⟩ := by
  cases hc : SideSet.configure width optional pindirs with
  | error e => simp [sideSet, hc]
  | ok ss =>
    cases hs : s.draft.sideSet.isSome <;> by_cases h : s.draft.count = 0 <;>
      simp [sideSet, hc, hs, h]

/-- A missing instruction is reported first, then a repeated qualifier, and only then is the value looked
at. -/
theorem run_qualify (q : Qualifier) (value : UInt8) (s : Session) :
    (qualify q value).run s =
      match s.draft.last with
      | none => .error (.rejected (.noInstruction q.name)) s
      | some addr =>
          match s.draft.slots[addr.toNat]? with
          | none => .error (.trapped (.index s.draft.count addr.toNat)) s
          | some slot =>
              if slot.has q then .error (.rejected (.duplicateQualifier q.name addr)) s
              else
                match q.apply slot.word value s.draft.effectiveSideSet with
                | .error failure => .error failure s
                | .ok word =>
                    .ok () { s with draft := s.draft.replace addr (slot.qualify q word) } := by
  cases hl : s.draft.last with
  | none => simp [qualify, hl]
  | some addr =>
    cases hs : s.draft.slots[addr.toNat]? with
    | none => simp [qualify, hl, hs]
    | some slot =>
      -- the flag and the answer of the encoder decide what is left
      cases hq : slot.has q <;>
        cases hw : q.apply slot.word value s.draft.effectiveSideSet <;>
          simp [qualify, hl, hs, hq, hw]

end Assembly

/-- Carries out a statement. -/
def Statement.run : Statement → Assembly Unit
  | .instruction i => Assembly.instruction i
  | .label name => Assembly.label name
  | .wrapTarget => Assembly.wrapTarget
  | .wrap => Assembly.wrap
  | .sideSet width optional pindirs => Assembly.sideSet width optional pindirs
  | .delay cycles => Assembly.qualify .delay cycles
  | .side value => Assembly.qualify .side value

end PioAssembler
