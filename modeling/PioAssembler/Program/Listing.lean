import PioAssembler.Program.Basic

/-!
# Listings

A listing shows a program line by line: the side-set configuration if there is one, then each word
with its address and mnemonic, under the labels that name it and between the ends of the wrap window.
-/

namespace PioAssembler

namespace Listing

/-- A line of a listing. -/
inductive Line where
  | sideSet (ss : SideSet)
  | wrapTarget
  | label (name : String)
  | word (addr : Addr) (w : Word)
  | wrap
  deriving DecidableEq, Repr

/-- The text of a line, without its end. -/
def Line.text : Line → String
  | .sideSet ss =>
      ".side_set " ++ decimal ss.width.toNat
        ++ (if ss.optional then " opt" else "") ++ (if ss.pindirs then " pindirs" else "")
  | .wrapTarget => ".wrap_target"
  | .label name => name ++ ":"
  | .word addr w =>
      "    " ++ alignRight 2 (decimal addr.toNat) ++ ": 0x" ++ w.hex ++ " ; " ++ w.opcode.mnemonic
  | .wrap => ".wrap"

end Listing

namespace Program

open Listing

/-- The labels at an address, in the order of the symbol table. -/
def labelsAt (p : Program) (addr : Addr) : List String :=
  (p.symbols.filter fun entry => entry.2 = addr).map Prod.fst

/-- The lines about one word. -/
def linesAt (p : Program) (position : Nat) (w : Word) : List Line :=
  let addr := UInt8.ofNat position
  (if addr = p.wrapTarget then [.wrapTarget] else [])
    ++ (p.labelsAt addr).map .label
    ++ [.word addr w]
    ++ (if addr = p.wrap then [.wrap] else [])

/-- The lines of the listing. -/
def lines (p : Program) : List Line :=
  (if p.sideSet.enabled then [.sideSet p.sideSet] else [])
    ++ (p.words.mapIdx fun position w => p.linesAt position w).flatten

/-- The listing; every line is ended. -/
def listing (p : Program) : String := String.join (p.lines.map fun line => line.text ++ "\n")

end Program

end PioAssembler
