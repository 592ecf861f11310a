import PioAssembler.Text.Numeral
import PioAssembler.Isa.SideSet

/-!
# The log

While a program is assembled, each accepted statement with an effect of its own, each jump that is
given its target and each finished program leaves an `Event`.
-/

namespace PioAssembler

/-- Something that happened during an assembly. -/
inductive Event where
  /-- A word was appended; it is the word before any qualifier or target is added. -/
  | emitted (addr : Addr) (word : Word)
  /-- A label was defined. -/
  | labelled (name : String) (addr : Addr)
  /-- A side-set configuration was accepted. -/
  | configured (sideSet : SideSet)
  /-- A jump was given its target. -/
  | resolved (addr : Addr) (label : String) (target : Addr)
  /-- A program was finished. -/
  | built (count : Nat) (wrapTarget wrap : Addr)
  deriving DecidableEq, Repr

/-- How much an event matters: the stages of an assembly are of more interest than its steps. -/
inductive Level where
  | trace | debug
  deriving DecidableEq, Repr

/-- The level as the log spells it. -/
def Level.name : Level → String
  | .trace => "TRACE"
  | .debug => "DEBUG"

/-- The level of an event. -/
def Event.level : Event → Level
  | .emitted .. | .resolved .. => .trace
  | .labelled .. | .configured .. | .built .. => .debug

/-- What happened, and with which values. -/
def Event.message : Event → String
  | .emitted addr word =>
      let digits := word.hex
      let op := word.opcode.mnemonic
      s!"emit addr={addr} word=0x{digits} op={op}"
  | .labelled name addr => s!"label label={name} addr={addr}"
  | .configured ⟨width, optional, pindirs⟩ =>
      s!"side_set width={width} optional={optional} pindirs={pindirs}"
  | .resolved addr label target => s!"resolve jmp addr={addr} label={label} target={target}"
  | .built count wrapTarget wrap =>
      s!"program built count={count} wrap_target={wrapTarget} wrap={wrap}"

/-- The line of the log. -/
def Event.text (e : Event) : String := e.level.name ++ " " ++ e.message

end PioAssembler
