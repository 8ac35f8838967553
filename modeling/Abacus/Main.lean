import Abacus.CommandLine

/-!
# The program

Reads the arguments, files and the standard input, and writes what the console
answers.
-/

open Abacus

def Abacus.Output.write (o : Output) : IO Unit := do
  IO.print o.out
  (← IO.getStdout).flush
  IO.eprint o.err

def Abacus.Report.write (r : Report) : IO UInt32 := do
  r.output.write
  return r.exitCode

/-- Runs an interactive session line by line until the input ends. -/
partial def Abacus.Console.Dialogue.loop (d : Console.Dialogue) (input : IO.FS.Stream) :
    IO Unit := do
  let raw ← input.getLine
  if raw.isEmpty then
    d.close.1.write
  else
    let line := (Text.lines raw.toList).headD []
    let (output, d) := d.read line
    output.write
    d.loop input

/-- Runs the program. -/
def main (arguments : List String) : IO UInt32 := do
  match ({} : Options).read arguments with
  | .error argument => (CommandLine.refused argument).write
  | .ok o =>
    match o.input with
    | none => do
      (Console.Dialogue.start o.settings).loop (← IO.getStdin)
      return 0
    | some text =>
      if o.fromFile then
        match ← (IO.FS.readFile text).toBaseIO with
        | .ok source => (CommandLine.runScript o source).write
        | .error _ => (CommandLine.unreadable text).write
      else (CommandLine.runScript o text).write
