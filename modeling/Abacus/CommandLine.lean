import Abacus.Console

/-!
# The command line

Flags may stand anywhere and be combined, an option's value follows it or its
equals sign, and behind `--` nothing is a flag.  One argument may remain: a
script, or the name of a file with a script in it.
-/

namespace Abacus

/-- What the arguments of the program ask for. -/
structure Options where
  /-- Whether the script is in a file. -/
  fromFile : Bool := false
  /-- Whether only the last value is shown. -/
  lastOnly : Bool := false
  settings : Settings := {}
  /-- The script or the name of its file; there is an interactive session without
      it. -/
  input : Option String := none

namespace Options

/-- Sets the flag with a letter. -/
def setFlag? (o : Options) : Char → Option Options
  | 'f' => some { o with fromFile := true }
  | 'p' => some { o with lastOnly := true }
  | 'v' => some o
  | _ => none

/-- Sets the flag with a name. -/
def setLongFlag? (o : Options) : String → Option Options
  | "file" => o.setFlag? 'f'
  | "pipe-mode" => o.setFlag? 'p'
  | "verbose" => o.setFlag? 'v'
  | "no-starter" => some { o with settings := { o.settings with continues := false } }
  | _ => none

/-- Chooses the text that marks commands. -/
def withCommandMark (o : Options) (mark : String) : Options :=
  { o with settings := { o.settings with commandMark := mark } }

/-- Takes the argument that is no flag; there is only one. -/
def withInput? (o : Options) (input : String) : Option Options :=
  match o.input with
  | none => some { o with input := some input }
  | some _ => none

/-- The option whose value marks commands. -/
def commandMarkOption : String := "command-prefix"

/-- Whether an argument is a flag rather than a value. -/
def isFlag (argument : String) : Bool :=
  match argument.toList with
  | '-' :: _ :: _ => true
  | _ => false

/-- Reads the arguments from the left, or gives the first one that is refused. -/
def read (o : Options) : List String → Except String Options
  | [] => .ok o
  | argument :: rest =>
    let refused : Except String Options := .error argument
    match argument.toList with
    -- What follows is no flag, whatever it looks like.
    | ['-', '-'] =>
      match rest with
      | [] => .ok o
      | [input] => ((o.withInput? input).map Except.ok).getD refused
      | _ => refused
    | '-' :: '-' :: text =>
      match Text.splitOnce? (· = '=') text with
      | some (name, value) =>
        if String.ofList name = commandMarkOption then
          (o.withCommandMark (String.ofList value)).read rest
        else refused
      | none =>
        if String.ofList text = commandMarkOption then
          match rest with
          | value :: rest =>
            if isFlag value then refused else (o.withCommandMark value).read rest
          | [] => refused
        else match o.setLongFlag? (String.ofList text) with
          | some o => o.read rest
          | none => refused
    | '-' :: letter :: letters =>
      match (letter :: letters).foldlM setFlag? o with
      | some o => o.read rest
      | none => refused
    | _ =>
      match o.withInput? argument with
      | some o => o.read rest
      | none => refused

end Options

/-- How a run of the program ends. -/
structure Report where
  exitCode : UInt32 := 0
  output : Output

namespace CommandLine

def refused (argument : String) : Report where
  exitCode := 2
  output := { err := s!"error: unexpected argument '{argument}' found\n" }

def unreadable (name : String) : Report where
  exitCode := 1
  output :=
    { err := s!"Failed to read the input file '{name}'. Perhaps this file does not exist?\n" }

def runScript (o : Options) (source : String) : Report :=
  { output := Console.runScript o.settings o.lastOnly source }

/-- Runs the program; `file?` reads a file, and `input` is all that will be
    typed. -/
def run (arguments : List String) (file? : String → Option String) (input : String) : Report :=
  match ({} : Options).read arguments with
  | .error argument => refused argument
  | .ok o =>
    match o.input with
    | none => { output := Console.runDialogue o.settings input }
    | some text =>
      if o.fromFile then
        match file? text with
        | some source => runScript o source
        | none => unreadable text
      else runScript o text

end CommandLine

end Abacus
