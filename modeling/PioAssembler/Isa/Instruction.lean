import PioAssembler.Error
import PioAssembler.Isa.Operand
import PioAssembler.Isa.Word

/-!
# Instructions and their encoding

`Instruction τ` is an instruction whose jumps name their target by a `τ`: a label while the program
is being written. `Instruction.encode` gives the word, with the shared field and the address
field of a jump left zero; it fails only on an immediate that is out of range.
-/

namespace PioAssembler

/-- An instruction, its delay and side-set value apart. -/
inductive Instruction (τ : Type) where
  | jmp (condition : Condition) (target : τ)
  /-- Waits until the source has the given level, or the flag the given state. -/
  | wait (polarity : Bool) (source : WaitSource) (index : UInt8)
  | shiftIn (source : InSource) (bitCount : UInt8)
  | shiftOut (destination : OutDestination) (bitCount : UInt8)
  | push (ifFull block : Bool)
  | pull (ifEmpty block : Bool)
  | mov (destination : MovDestination) (operation : MovOperation) (source : MovSource)
  | irq (mode : IrqMode) (index : UInt8)
  | set (destination : SetDestination) (data : UInt8)
  deriving DecidableEq, Repr

namespace Instruction

variable {τ : Type}

/-- Does nothing for one cycle. -/
def nop : Instruction τ := .mov .y .none .y

/-- Moves without changing the bits. -/
def copy (destination : MovDestination) (source : MovSource) : Instruction τ :=
  .mov destination .none source

/-- The unconditional `push`, which stalls while the queue is full. -/
def pushBlock : Instruction τ := .push false true

/-- The unconditional `pull`, which stalls while the queue is empty. -/
def pullBlock : Instruction τ := .pull false true

/-- The group of an instruction. -/
def opcode : Instruction τ → Opcode
  | .jmp .. => .jmp
  | .wait .. => .wait
  | .shiftIn .. => .shiftIn
  | .shiftOut .. => .shiftOut
  | .push .. | .pull .. => .pushPull
  | .mov .. => .mov
  | .irq .. => .irq
  | .set .. => .set

/-- The selector field. -/
def selector : Instruction τ → BitVec 3
  | .jmp condition _ => condition.code
  | .wait polarity source _ => BitVec.ofBool polarity ++ source.code
  | .shiftIn source _ => source.code
  | .shiftOut destination _ => destination.code
  | .push ifFull block => BitVec.ofBool false ++ BitVec.ofBool ifFull ++ BitVec.ofBool block
  | .pull ifEmpty block => BitVec.ofBool true ++ BitVec.ofBool ifEmpty ++ BitVec.ofBool block
  | .mov destination .. => destination.code
  | .irq mode _ => mode.code
  | .set destination _ => destination.code

/-- An index or a literal: five bits, as they are. -/
def indexField (what : String) (value : UInt8) : Except Error (BitVec 5) := do
  checkRange what value.toNat 0 31
  return BitVec.ofNat 5 value.toNat

/-- A number of bits to shift: 1 to 32, where 32 is written as zero. -/
def bitCountField (value : UInt8) : Except Error (BitVec 5) := do
  checkRange "bit count" value.toNat 1 32
  return BitVec.ofNat 5 value.toNat

/-- The low field; zero for a jump, whose target is filled in later. -/
def low : Instruction τ → Except Error (BitVec 5)
  | .jmp .. | .push .. | .pull .. => .ok 0
  | .wait _ _ index => indexField "wait index" index
  | .shiftIn _ bitCount => bitCountField bitCount
  | .shiftOut _ bitCount => bitCountField bitCount
  | .mov _ operation source => .ok (operation.code ++ source.code)
  | .irq _ index => indexField "irq index" index
  | .set _ data => indexField "set data" data

/-- The word of an instruction, before a delay, a side-set value or a jump target is added. -/
def encode (i : Instruction τ) : Except Error Word := do
  return .ofFields i.opcode.number 0 i.selector (← i.low)

end Instruction

end PioAssembler
