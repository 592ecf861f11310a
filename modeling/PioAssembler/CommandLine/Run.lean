import PioAssembler.Catalog
import PioAssembler.CommandLine.Command

/-!
# Carrying out commands

`CommandLine.run` says, for the arguments of a call, what is written where and how the call ends.
-/

namespace PioAssembler

namespace CommandLine

/-- The effect of a call. -/
structure Outcome where
  exitCode : UInt32 := 0
  stdout : ByteArray := .empty
  stderr : String := ""
  /-- A file to write, by its path. -/
  file : Option (String × ByteArray) := none

/-- A call that ends with an error. -/
def Outcome.failed (message : String) : Outcome :=
  { exitCode := 1, stderr := "Error: " ++ message ++ "\n" }

/-- A call with arguments that are not understood. -/
def Outcome.usage : Outcome :=
  { exitCode := 2, stderr := "error: invalid arguments\n\nFor more information, try '--help'.\n" }

/-- The name and the version of the program. -/
def versionText : String := "pio-image 0.1.0\n"

/-- The lines of a help text. -/
def Topic.lines : Topic → List String
  | .program => [
      "Assemble bundled PIO programs",
      "",
      "Usage: pio-image <COMMAND>",
      "",
      "Commands:",
      "  list  List bundled programs",
      "  emit  Assemble one program and write it out",
      "  help  Print this message or the help of the given subcommand(s)",
      "",
      "Options:",
      "  -h, --help     Print help",
      "  -V, --version  Print version"]
  | .list => [
      "List bundled programs",
      "",
      "Usage: pio-image list",
      "",
      "Options:",
      "  -h, --help  Print help"]
  | .emit => [
      "Assemble one program and write it out",
      "",
      "Usage: pio-image emit [OPTIONS] <NAME>",
      "",
      "Arguments:",
      "  <NAME>  Program name (see `list`)",
      "",
      "Options:",
      "      --format <FORMAT>  Output format: text (the default), json, hex or bin",
      "      --out <FILE>       Write output to file instead of stdout",
      "  -h, --help             Print help"]
  | .help => [
      "Print this message or the help of the given subcommand(s)",
      "",
      "Usage: pio-image help [COMMAND]"]

/-- The help text; every line is ended. -/
def Topic.text (topic : Topic) : String := String.join (topic.lines.map (· ++ "\n"))

/-- The heading of the table of all programs. -/
def listHeader : String :=
  alignLeft 10 "name" ++ " " ++ alignRight 5 "words" ++ " " ++ alignRight 6 "wrap" ++ "\n"

/-- The line about a program: its name, its length and its wrap window. -/
def listLine (name : String) (p : Program) : String :=
  alignLeft 10 name ++ " " ++ alignRight 5 (decimal p.words.length) ++ " "
    ++ alignRight 3 (decimal p.wrapTarget.toNat) ++ ".." ++ decimal p.wrap.toNat ++ "\n"

/-- The table of all programs. -/
def listText : Except Failure String := do
  let lines ← Catalog.entries.mapM fun entry => return listLine entry.name (← entry.program)
  return listHeader ++ String.join lines

/-- Lists the programs. -/
def runList : Outcome :=
  match listText with
  | .ok text => { stdout := text.toUTF8 }
  | .error failure => .failed failure.message

/-- Assembles the named program and writes it out. -/
def runEmit (name : String) (format : Format) (out : Option String) : Outcome :=
  match Catalog.find? name with
  | none => .failed s!"unknown program `{name}`"
  | some entry =>
      match entry.program with
      | .error failure => .failed failure.message
      | .ok p =>
          match out with
          | none => { stdout := p.render name format }
          | some path => { file := some (path, p.render name format) }

/-- The effect of a command. -/
def Command.run : Command → Outcome
  | .list => runList
  | .emit name format out => runEmit name format out
  | .help topic => { stdout := topic.text.toUTF8 }
  | .version => { stdout := versionText.toUTF8 }

/-- The effect of a call with the given arguments. -/
def run (args : List String) : Outcome :=
  match Command.parse? args with
  | none => .usage
  | some command => command.run

end CommandLine

end PioAssembler
