import PioAssembler.Text.Json
import PioAssembler.Program.Listing

/-!
# Output formats

A named program can be written as a listing, as a JSON document, as hexadecimal words or as the bare
memory image.
-/

namespace PioAssembler

/-- A way to write a program. -/
inductive Format where
  | text | json | hex | bin
  deriving DecidableEq, Repr

/-- The format with the given name. -/
def Format.ofName? : String → Option Format
  | "text" => some .text
  | "json" => some .json
  | "hex" => some .hex
  | "bin" => some .bin
  | _ => none

/-- A side-set configuration as JSON. -/
def SideSet.toJson (ss : SideSet) : Json.Value :=
  .object [("width", .number ss.width.toNat), ("optional", .bool ss.optional),
    ("pindirs", .bool ss.pindirs)]

namespace Program

/-- A program as JSON. -/
def toJson (p : Program) : Json.Value :=
  .object [
    ("code", .array (p.words.map fun w => .number w.toNat)),
    ("wrap_target", .number p.wrapTarget.toNat),
    ("wrap", .number p.wrap.toNat),
    ("side_set", p.sideSet.toJson),
    ("symbols", .object (p.symbols.map fun entry => (entry.1, .number entry.2.toNat)))]

/-- The listing, under a comment with the name. -/
def renderText (name : String) (p : Program) : String := "; " ++ name ++ "\n" ++ p.listing

/-- A JSON document on lines of its own. -/
def renderJson (name : String) (p : Program) : String :=
  String.ofList ((Json.Value.object [("name", .string name), ("program", p.toJson)]).pretty 0)
    ++ "\n"

/-- One word to a line. -/
def renderHex (p : Program) : String := String.join (p.words.map fun w => w.hex ++ "\n")

/-- The bytes of a program in a format. -/
def render (name : String) (p : Program) : Format → ByteArray
  | .text => (p.renderText name).toUTF8
  | .json => (p.renderJson name).toUTF8
  | .hex => p.renderHex.toUTF8
  | .bin => ⟨p.littleEndian.toArray⟩

end Program

end PioAssembler
