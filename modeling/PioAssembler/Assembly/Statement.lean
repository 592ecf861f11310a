import PioAssembler.Isa.Instruction

/-!
# Sources

A source is a list of statements: instructions, the directives around them, and the qualifiers that
are added to the instruction before.
-/

namespace PioAssembler

/-- One statement of a source. -/
inductive Statement where
  | instruction (i : Instruction String)
  /-- Names the address of the next instruction. -/
  | label (name : String)
  /-- Puts the start of the wrap window at the next instruction. -/
  | wrapTarget
  /-- Puts the end of the wrap window at the last instruction. -/
  | wrap
  | sideSet (width : UInt8) (optional pindirs : Bool)
  /-- Lets the last instruction idle for some cycles. -/
  | delay (cycles : UInt8)
  /-- Drives a value on the side-set pins while the last instruction runs. -/
  | side (value : UInt8)
  deriving DecidableEq, Repr

end PioAssembler
