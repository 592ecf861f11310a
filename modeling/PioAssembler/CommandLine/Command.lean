import PioAssembler.Program.Image

/-!
# Reading the command line

    list
    emit NAME [--format text|json|hex|bin] [--out FILE]
    help [COMMAND]
    --help, --version

Arguments are read from left to right, and a request for help or for the version is granted as soon as
it is reached. `Command.parse?` has no result for arguments that are not understood.
-/

namespace PioAssembler

namespace CommandLine

/-! ### Arguments -/

/-- An argument by its form. -/
inductive Argument where
  /-- Two dashes alone: everything behind them is a plain argument. -/
  | endOfOptions
  /-- Two dashes and a name, with a value if there is an equals sign. -/
  | long (name : String) (value : Option String)
  /-- One dash and at least one letter. -/
  | short (letter : Char) (rest : List Char)
  | plain (text : String)
  deriving DecidableEq, Repr

/-- Splits a long option at its first equals sign. -/
def Argument.ofLong (text : List Char) : Argument :=
  let name := String.ofList (text.takeWhile (· ≠ '='))
  match text.dropWhile (· ≠ '=') with
  | [] => .long name none
  | _ :: value => .long name (some (String.ofList value))

/-- The form of an argument; a dash alone is plain. -/
def Argument.of (text : String) : Argument :=
  match text.toList with
  | ['-', '-'] => .endOfOptions
  | '-' :: '-' :: option => .ofLong option
  | '-' :: letter :: rest => .short letter rest
  | _ => .plain text

/-- A request for help. -/
def Argument.asksHelp : Argument → Bool
  | .long name value => name = "help" && value.isNone
  | .short letter _ => letter = 'h'
  | .endOfOptions | .plain _ => false

/-- A request for the version. -/
def Argument.asksVersion : Argument → Bool
  | .long name value => name = "version" && value.isNone
  | .short letter _ => letter = 'V'
  | .endOfOptions | .plain _ => false

/-! ### Commands -/

/-- What a help text is about. -/
inductive Topic where
  | program | list | emit | help
  deriving DecidableEq, Repr

/-- The topic of a command's name. -/
def Topic.ofName? : String → Option Topic
  | "list" => some .list
  | "emit" => some .emit
  | "help" => some .help
  | _ => none

/-- What a call asks for. -/
inductive Command where
  | list
  | emit (name : String) (format : Format) (out : Option String)
  | help (topic : Topic)
  | version
  deriving DecidableEq, Repr

/-- The arguments of `emit` read so far. -/
structure EmitArguments where
  name : Option String := none
  format : Option Format := none
  out : Option String := none
  deriving DecidableEq, Repr

namespace EmitArguments

/-- The name may be given once. -/
def setName? (a : EmitArguments) (name : String) : Option EmitArguments :=
  if a.name.isSome then none else some { a with name := some name }

/-- An option may be given once, with a value that it allows. -/
def setOption? (a : EmitArguments) (option value : String) : Option EmitArguments :=
  match option with
  | "format" =>
      if a.format.isSome then none
      else (Format.ofName? value).map fun format => { a with format := some format }
  | "out" =>
      if a.out.isSome || value.isEmpty then none else some { a with out := some value }
  | _ => none

/-- The command, if nothing that it needs is missing. -/
def command? (a : EmitArguments) : Option Command :=
  a.name.map fun name => .emit name (a.format.getD .text) a.out

/-- Reads the arguments behind `emit`. The value of an option stands behind an equals sign or is the
next argument, which must not look like an option. -/
def parse? (a : EmitArguments) : List String → Option Command
  | [] => a.command?
  | arg :: rest =>
      match Argument.of arg with
      | .endOfOptions => do (← rest.foldlM setName? a).command?
      | .plain name => do parse? (← a.setName? name) rest
      | .short letter _ => if letter = 'h' then some (.help .emit) else none
      | .long "help" none => some (.help .emit)
      | .long option (some value) => do parse? (← a.setOption? option value) rest
      | .long option none =>
          match rest with
          | [] => none
          | next :: rest =>
              match Argument.of next with
              | .plain value => do parse? (← a.setOption? option value) rest
              | _ => none

end EmitArguments

/-- Reads the arguments of a whole call; `none` if they are not understood. -/
def Command.parse? : List String → Option Command
  | [] => none
  | "emit" :: rest => EmitArguments.parse? {} rest
  | "list" :: rest =>
      match rest with
      | [] | ["--"] => some .list
      | arg :: _ => if (Argument.of arg).asksHelp then some (.help .list) else none
  | "help" :: rest =>
      match rest with
      | [] => some (.help .program)
      | [name] => (Topic.ofName? name).map .help
      | _ => none
  | arg :: _ =>
      if (Argument.of arg).asksVersion then some .version
      else if (Argument.of arg).asksHelp then some (.help .program)
      else none

end CommandLine

end PioAssembler
