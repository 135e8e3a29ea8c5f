import DancingLinks.CommandLine.Report

/-! # The program

Reads the command line, does what it asks for, and prints the report. Log lines go to standard
error.
-/
namespace DancingLinks.CommandLine

def logLevel? (verbosity : Nat) : Option Level :=
  match verbosity with
  | 0 => none
  | 1 => some .debug
  | _ => some .trace

def requestedLevel? (arguments : List String) : Option Level :=
  match read arguments with
  | .ok s => logLevel? s.verbosity
  | .error _ => none

def seconds (milliseconds : Nat) : String :=
  let fraction := toString (milliseconds % 1000)
  toString (milliseconds / 1000) ++ "." ++ Decimal.zeros (3 - fraction.length) ++ fraction

end DancingLinks.CommandLine

open DancingLinks DancingLinks.CommandLine in
def main (arguments : List String) : IO UInt32 := do
  let start ← IO.monoMsNow
  let terminal ← (← IO.getStdout).isTty
  let plain ← IO.getEnv "NO_COLOR"
  let ending := run (terminal && plain.isNone) arguments
  match ending with
  | .version => IO.println (program ++ " " ++ version)
  | .help => helpLines.forM IO.println
  | .usage => IO.eprintln ("usage: " ++ usageLine)
  | .refused reason => IO.eprintln ("Error: " ++ reason)
  | .crashed fault => IO.eprintln (fault.message?.getD "a number or an index is out of range")
  | .done lines events =>
    match requestedLevel? arguments with
    | some level => (Event.lines level events).forM IO.eprintln
    | none => pure ()
    lines.forM IO.println
    let stop ← IO.monoMsNow
    IO.println (timeLine (seconds (stop - start)))
  return ending.code.toUInt32
