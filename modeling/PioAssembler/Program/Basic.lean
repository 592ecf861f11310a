import PioAssembler.Event
import PioAssembler.Labels.SymbolTable

/-!
# Assembled programs

A `Program` is ready to be loaded into instruction memory. After the instruction at `wrap` a state
machine goes on with the one at `wrapTarget`, without a jump.
-/

namespace PioAssembler

/-- A program that is complete. -/
structure Program where
  words : List Word
  wrapTarget : Addr
  wrap : Addr
  sideSet : SideSet
  /-- All labels, also those behind the last instruction. -/
  symbols : SymbolTable
  deriving DecidableEq, Repr

/-- The two bytes of a word, low byte first. -/
def Word.littleEndian (w : Word) : List UInt8 :=
  [UInt8.ofNat (w.toNat % 256), UInt8.ofNat (w.toNat / 256)]

/-- The memory image, two bytes per word. -/
def Program.littleEndian (p : Program) : List UInt8 := p.words.flatMap Word.littleEndian

end PioAssembler
