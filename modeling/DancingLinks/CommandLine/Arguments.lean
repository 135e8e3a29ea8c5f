import DancingLinks.Decimal.Text
import DancingLinks.Word

/-! # Command-line arguments

The options that the program takes and how a list of arguments is read. Arguments are read from
left to right; the first that is wrong, or that asks for the version or for help, decides.
-/
namespace DancingLinks.CommandLine

inductive Strategy where
  | min
  | first
  | random
  | prune
deriving DecidableEq

def Strategy.ofName? : String → Option Strategy
  | "min" => some .min
  | "first" => some .first
  | "random" => some .random
  | "prune" => some .prune
  | _ => none

/-- What was given; what was not is `none`. -/
structure Settings where
  size : Option Nat := none
  strategy : Option Strategy := none
  seed : Option Nat := none
  first : Bool := false
  naive : Bool := false
  pruneCap : Option Nat := none
  pruneDeviations : Option Float := none
  pruneWarmUp : Option Nat := none
  verbosity : Nat := 0

/-- Why reading ended before the arguments did. -/
inductive Stop where
  | usage
  | version
  | help
deriving DecidableEq

inductive Key where
  | strategy
  | seed
  | pruneCap
  | pruneDeviations
  | pruneWarmUp
deriving DecidableEq

inductive Flag where
  | first
  | naive
  | verbose
  | version
  | help
deriving DecidableEq

inductive Name where
  | key (k : Key)
  | flag (f : Flag)
deriving DecidableEq

def Name.ofLong? : String → Option Name
  | "strategy" => some (.key .strategy)
  | "seed" => some (.key .seed)
  | "prune-cap" => some (.key .pruneCap)
  | "prune-deviations" => some (.key .pruneDeviations)
  | "prune-warmup" => some (.key .pruneWarmUp)
  | "first" => some (.flag .first)
  | "naive" => some (.flag .naive)
  | "verbose" => some (.flag .verbose)
  | "version" => some (.flag .version)
  | "help" => some (.flag .help)
  | _ => none

def Name.ofShort? : Char → Option Name
  | 's' => some (.key .strategy)
  | 'v' => some (.flag .verbose)
  | 'V' => some (.flag .version)
  | 'h' => some (.flag .help)
  | _ => none

namespace Settings

def readWord? (text : String) : Option Nat := Decimal.readWord? Word.modulus text

def fill {α : Type} (old : Option α) (value : Option α) : Except Stop (Option α) :=
  match old, value with
  | none, some v => .ok (some v)
  | _, _ => .error .usage

def setKey (s : Settings) (k : Key) (text : String) : Except Stop Settings := do
  match k with
  | .strategy => return { s with strategy := ← fill s.strategy (Strategy.ofName? text) }
  | .seed => return { s with seed := ← fill s.seed (readWord? text) }
  | .pruneCap => return { s with pruneCap := ← fill s.pruneCap (readWord? text) }
  | .pruneDeviations =>
    return { s with pruneDeviations := ← fill s.pruneDeviations (Decimal.read? text) }
  | .pruneWarmUp => return { s with pruneWarmUp := ← fill s.pruneWarmUp (readWord? text) }

def setFlag (s : Settings) : Flag → Except Stop Settings
  | .first => if s.first then .error .usage else .ok { s with first := true }
  | .naive => if s.naive then .error .usage else .ok { s with naive := true }
  | .verbose => .ok { s with verbosity := s.verbosity + 1 }
  | .version => .error .version
  | .help => .error .help

def setSize (s : Settings) (text : String) : Except Stop Settings := do
  return { s with size := ← fill s.size (readWord? text) }

end Settings

/-- What is expected of the next argument. -/
inductive Expecting where
  | anything
  /-- The value of an option. -/
  | valueOf (k : Key)
  /-- No options, since two dashes were read. -/
  | positional
deriving DecidableEq

/-- Reads `--name` or `--name=value`, without the dashes. -/
def readLong (s : Settings) (text : List Char) : Except Stop (Settings × Expecting) :=
  let (name, rest) := text.span (· ≠ '=')
  match Name.ofLong? (String.ofList name), rest with
  | some (.key k), [] => .ok (s, .valueOf k)
  | some (.key k), _ :: value => do
    let s ← s.setKey k (String.ofList value)
    return (s, .anything)
  | some (.flag f), [] => do
    let s ← s.setFlag f
    return (s, .anything)
  | some (.flag _), _ :: _ => .error .usage
  | none, _ => .error .usage

/-- Reads the letters after one dash. The letter of an option with a value takes all that
follows it as the value, after an equals sign or without. -/
def readShort (s : Settings) : List Char → Except Stop (Settings × Expecting)
  | [] => .ok (s, .anything)
  | c :: rest =>
    match Name.ofShort? c with
    | some (.flag f) => do
      let s ← s.setFlag f
      readShort s rest
    | some (.key k) =>
      match rest with
      | [] => .ok (s, .valueOf k)
      | '=' :: value => do
        let s ← s.setKey k (String.ofList value)
        return (s, .anything)
      | value => do
        let s ← s.setKey k (String.ofList value)
        return (s, .anything)
    | none => .error .usage

def readPositional (s : Settings) (text : String) (next : Expecting) :
    Except Stop (Settings × Expecting) := do
  let s ← s.setSize text
  return (s, next)

def readArgument (state : Settings × Expecting) (text : String) :
    Except Stop (Settings × Expecting) :=
  let (s, expecting) := state
  match expecting, text.toList with
  | .positional, _ => readPositional s text .positional
  | .valueOf _, '-' :: _ => .error .usage
  | .valueOf k, _ => do
    let s ← s.setKey k text
    return (s, .anything)
  | .anything, ['-', '-'] => .ok (s, .positional)
  | .anything, '-' :: '-' :: long => readLong s long
  | .anything, '-' :: c :: short => readShort s (c :: short)
  | .anything, _ => readPositional s text .anything

/-- What the arguments ask for. Counting naively goes with no choice of a strategy and does not
stop at the first placement. -/
def read (arguments : List String) : Except Stop Settings := do
  let (s, expecting) ← arguments.foldlM readArgument ({}, .anything)
  match expecting with
  | .valueOf _ => throw .usage
  | _ => if s.naive && (s.strategy.isSome || s.first) then throw .usage else return s

end DancingLinks.CommandLine
