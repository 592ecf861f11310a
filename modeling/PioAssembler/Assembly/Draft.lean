import PioAssembler.Event
import PioAssembler.Isa.Instruction
import PioAssembler.Labels.Basic

/-!
# Drafts

A `Draft` is a program that is still being written: the words so far, what is known about labels,
side-set and the wrap window, and which instruction the next qualifier belongs to.
-/

namespace PioAssembler

/-- What can be added to an instruction after it was written. -/
inductive Qualifier where
  | delay | side
  deriving DecidableEq, Repr

namespace Qualifier

/-- The name that errors use. -/
def name : Qualifier → String
  | .delay => "delay"
  | .side => "side"

/-- The word with a qualifier added. -/
def apply (q : Qualifier) (w : Word) (value : UInt8) (ss : SideSet) : Except Failure Word :=
  match q with
  | .delay => w.withDelay value ss
  | .side => w.withSide value ss

end Qualifier

/-- An instruction of a draft. -/
structure Slot where
  word : Word
  /-- Whether the instruction has been given a delay. -/
  delayed : Bool := false
  /-- Whether the instruction has been given a side-set value. -/
  sided : Bool := false
  deriving DecidableEq, Repr

namespace Slot

/-- Whether the instruction has been given a qualifier. -/
def has (slot : Slot) : Qualifier → Bool
  | .delay => slot.delayed
  | .side => slot.sided

/-- The instruction with a qualifier, and with the word that carries it. -/
def qualify (slot : Slot) (q : Qualifier) (word : Word) : Slot :=
  match q with
  | .delay => { slot with word, delayed := true }
  | .side => { slot with word, sided := true }

end Slot

/-- A program that is still being written. -/
structure Draft where
  slots : List Slot := []
  /-- The address of the instruction that qualifiers are added to. -/
  last : Option Addr := none
  wrapTarget : Option Addr := none
  wrap : Option Addr := none
  sideSet : Option SideSet := none
  labels : Labels := {}
  deriving DecidableEq, Repr

namespace Draft

/-- Number of instructions. -/
def count (d : Draft) : Nat := d.slots.length

/-- The words so far, jumps without their targets. -/
def words (d : Draft) : List Word := d.slots.map Slot.word

/-- The address that the next instruction will have. -/
def nextAddr (d : Draft) : Addr := UInt8.ofNat d.count

/-! ### What holds without a directive -/

/-- Without a directive there is no side-set. -/
def effectiveSideSet (d : Draft) : SideSet := d.sideSet.getD {}

/-- Without a directive the wrap window starts at the first instruction. -/
def effectiveWrapTarget (d : Draft) : Addr := d.wrapTarget.getD 0

/-- Without a directive the wrap window ends at the last instruction. -/
def effectiveWrap (d : Draft) : Addr := d.wrap.getD (UInt8.ofNat (d.count - 1))

/-! ### Changes -/

/-- The draft with one more instruction, which the next qualifiers belong to. -/
def append (d : Draft) (word : Word) : Draft :=
  { d with slots := d.slots ++ [{ word }], last := some d.nextAddr }

/-- If the instruction at an address is a jump, it waits for its label. -/
def await (d : Draft) (addr : Addr) : Instruction String → Draft
  | .jmp _ label => { d with labels := d.labels.await addr label }
  | _ => d

/-- The draft with another instruction in the place of one. -/
def replace (d : Draft) (addr : Addr) (slot : Slot) : Draft :=
  { d with slots := d.slots.set addr.toNat slot }

/-- The first instruction that lacks a side-set value, if every instruction needs one. -/
def firstUnsided? (d : Draft) : Option Addr :=
  if d.effectiveSideSet.enabled && !d.effectiveSideSet.optional then
    (d.slots.findIdx? fun slot => !slot.sided).map UInt8.ofNat
  else none

end Draft

end PioAssembler
