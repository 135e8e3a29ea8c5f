import DancingLinks.CommandLine.Arguments
import DancingLinks.Memory
import DancingLinks.Queens.Backtracking
import DancingLinks.Search

/-! # What the program reports

Counts the placements of queens, or finds one, and writes down what came out.
-/
namespace DancingLinks.CommandLine

def program : String := "queens-dlx"

def version : String := "0.1.0"

def usageLine : String := program ++ " [OPTIONS] [N]"

def helpLines : List String :=
  ["Counts the ways to place N queens that do not attack each other.", "",
    "Usage: " ++ usageLine, "",
    "  [N]                     board size (8)",
    "  -s, --strategy NAME     min, first, random or prune (min)",
    "      --seed SEED         seed of the random strategy (0)",
    "      --first             stop at the first placement and draw it",
    "      --naive             count by plain backtracking",
    "      --prune-cap N       samples kept for each depth (1000)",
    "      --prune-deviations X  standard deviations above the mean (1.0)",
    "      --prune-warmup N    samples needed before anything is pruned (10)",
    "  -v, --verbose           log more (twice: log everything)",
    "  -h, --help              print this text",
    "  -V, --version           print the version"]

inductive Ending where
  | version
  | help
  | usage
  /-- It was asked for something that it does not do. -/
  | refused (reason : String)
  | crashed (fault : Fault)
  /-- It did its work; the time taken is still to be told. -/
  | done (lines : List String) (events : List Event)

namespace Ending

def code : Ending → Nat
  | .version => 0
  | .help => 0
  | .usage => 2
  | .refused _ => 1
  | .crashed _ => 101
  | .done _ _ => 0

end Ending

def timeLine (seconds : String) : String := s!"took {seconds} seconds"

namespace Settings

def boardSize (s : Settings) : Nat := s.size.getD 8

def pruning (s : Settings) : Pruning :=
  let standard : Pruning := {}
  { sampleCap := s.pruneCap.getD standard.sampleCap
    deviations := s.pruneDeviations.getD standard.deviations
    minSamples := s.pruneWarmUp.getD standard.minSamples }

end Settings

/-- Whether a number of standard deviations can be worked with. -/
def admissible (deviations : Float) : Bool := deviations.isFinite && 0.0 ≤ deviations

def naiveLines (n : Nat) (c : Queens.Count) : List String :=
  [s!"{n} queens: {c.solutions} solutions, {c.subproblems} subproblems"]

def tallyLines (paint : Emphasis → String → String) (n : Nat) (strategy : Strategy) (t : Tally) :
    List String :=
  let solutions := paint .boldGreen (toString t.solutions)
  let pruned := paint .yellow (toString t.pruned)
  s!"{n} queens: {solutions} solutions, {t.nodes} nodes" ::
    if strategy = .prune then [s!"{pruned} branches pruned; the count is a lower bound"] else []

def boardLines (paint : Emphasis → String → String) : Option Queens.Board → List String
  | some b => b.lines (Queens.Board.paintedCell paint)
  | none => [paint .red "no placement exists"]

/-- Why the program gave up: what it was doing and what stood against it. -/
def failure (doing : String) (r : Rejection) : String :=
  doing ++ "\n\nCaused by:\n    " ++ r.message

def keepBoard (n : Nat) : Visitor Constraint (Option Queens.Board) := fun s _ => do
  let cells ← Queens.decode n s.rows
  let board ← Queens.Board.ofQueens n cells
  return (.stop, some board)

def search {σ : Type} (paint : Emphasis → String → String) (s : Settings) (strategy : Strategy)
    (m : CoverMatrix Constraint) (rule : BranchingRule Constraint σ) (state : σ) : Ending :=
  let n := s.boardSize
  let made := Queens.matrixEvents m
  if s.first then
    match rule.run state (keepBoard n) none m with
    | .error i => .crashed i.fault
    | .ok o =>
      match o.result with
      | .error r => .refused (failure "searching for a placement" r)
      | .ok t =>
        .done (boardLines paint o.visitor ++ tallyLines paint n strategy t) (made ++ o.events)
  else
    match rule.count state m with
    | .error i => .crashed i.fault
    | .ok o =>
      match o.result with
      | .error r => .refused (failure "counting placements" r)
      | .ok t => .done (tallyLines paint n strategy t) (made ++ o.events)

/-- What the program takes from outside: a way of drawing, with the source of chance of each seed,
and a way of emphasizing text. -/
structure Outside (γ : Type) where
  draw : Draw γ
  seeded : Nat → γ
  paint : Emphasis → String → String

def searchWith {γ : Type} (o : Outside γ) (s : Settings) (m : CoverMatrix Constraint) : Ending :=
  let central := BranchingRule.fewestRows (Queens.priority s.boardSize)
  match s.strategy.getD .min with
  | .min => search o.paint s .min m central ()
  | .first => search o.paint s .first m BranchingRule.leftmost ()
  | .random => search o.paint s .random m (BranchingRule.drawn o.draw) (o.seeded (s.seed.getD 0))
  | .prune => search o.paint s .prune m (central.withPruning s.pruning) ()

def perform {γ : Type} (o : Outside γ) (s : Settings) : Ending :=
  let n := s.boardSize
  if !admissible s.pruning.deviations then
    .refused "--prune-deviations must be a finite non-negative number"
  else if s.naive then
    match Queens.count n with
    | .error fault => .crashed fault
    | .ok c => .done (naiveLines n c) []
  else
    match Memory.matrix n with
    | .error fault => .crashed fault
    | .ok (.error r) => .refused (failure s!"building the {n} queens matrix" r)
    | .ok (.ok m) => searchWith o s m

def Outside.standard (colors : Bool) : Outside Generator :=
  ⟨Generator.drawing, Generator.ofSeed, Emphasis.apply colors⟩

def run (colors : Bool) (arguments : List String) : Ending :=
  match read arguments with
  | .error .usage => .usage
  | .error .version => .version
  | .error .help => .help
  | .ok s => perform (.standard colors) s

end DancingLinks.CommandLine
