import DancingLinks.BranchingRule
import DancingLinks.CoverMatrix.Cover
import DancingLinks.Search.Event
import DancingLinks.Search.Solution

/-! # Searching for exact covers

Depth first, a position is searched by covering the column that the branching rule chooses and by
trying the rows of that column in turn; a row is tried by covering its other columns and searching
the position this leads to. A position without a column left to cover is a cover and goes to the
visitor. However a position is left, by exhaustion, at the visitor's wish or with the rule's
rejection, every column covered in it is uncovered first.
-/
namespace DancingLinks

inductive Signal where
  | proceed
  | stop
deriving DecidableEq

/-- What is done with a cover, given and giving a state of the visitor's own. -/
abbrev Visitor (L ω : Type) := Solution L → ω → Except Fault (Signal × ω)

/-- A fault in a search, and what the search did before it. -/
structure Interruption where
  fault : Fault
  /-- The latest event comes first. -/
  events : List Event

namespace Search

variable {L σ ω : Type}

/-- All that a search changes besides the matrix. -/
structure Progress (σ ω : Type) where
  rule : σ
  visitor : ω
  samples : Option DepthSamples
  solutions : Nat
  nodes : Nat
  pruned : Nat
  /-- The latest event comes first. -/
  events : List Event

namespace Progress

def guard {α : Type} (p : Progress σ ω) : Except Fault α → Except Interruption α
  | .ok a => .ok a
  | .error fault => .error ⟨fault, p.events⟩

def note (p : Progress σ ω) (e : Event) : Progress σ ω := { p with events := e :: p.events }

def enter (p : Progress σ ω) (path : List Nat) : Except Interruption (Progress σ ω) := do
  let nodes ← p.guard (Word.add p.nodes 1)
  return { p with nodes := nodes }.note (.entered path)

def solve (p : Progress σ ω) (path : List Nat) : Except Interruption (Progress σ ω) := do
  let solutions ← p.guard (Word.add p.solutions 1)
  return { p with solutions := solutions }.note (.solved solutions path)

def abandon (p : Progress σ ω) (path : List Nat) (row removed : Nat) :
    Except Interruption (Progress σ ω) := do
  let pruned ← p.guard (Word.add p.pruned 1)
  return { p with pruned := pruned }.note (.abandoned path row removed)

/-- Whether a branch at `depth` that hides `removed` rows is searched. -/
def accept (p : Progress σ ω) (depth removed : Nat) :
    Except Interruption (Bool × Progress σ ω) :=
  match p.samples with
  | none => .ok (true, p)
  | some samples => do
    let (abandoned, samples) ← p.guard (samples.judge depth removed)
    return (!abandoned, { p with samples := some samples })

def tally (p : Progress σ ω) (stopped : Bool) : Tally :=
  ⟨p.solutions, p.nodes, p.pruned, stopped⟩

end Progress

abbrev Exit (L σ ω : Type) := Except Rejection Signal × CoverMatrix L × Progress σ ω

def present (visit : Visitor L ω) (path : List Nat) (m : CoverMatrix L) (p : Progress σ ω) :
    Except Interruption (Exit L σ ω) := do
  let p ← p.solve path
  let (signal, visitor) ← p.guard (visit ⟨m, path⟩ p.visitor)
  return (.ok signal, m, { p with visitor := visitor })

/-- Tries the row of `node`: searches the position it leads to by `descend`, unless it is
abandoned. -/
def tryRow (descend : List Nat → CoverMatrix L → Progress σ ω → Except Interruption (Exit L σ ω))
    (path : List Nat) (node : Nat) (m : CoverMatrix L) (p : Progress σ ω) :
    Except Interruption (Exit L σ ω) := do
  let row ← p.guard (m.rowOf node)
  let m ← p.guard (m.coverRowOthers node)
  let removed := m.removedRows
  let (accepted, p) ← p.accept path.length removed
  let (left, m, p) ←
    if accepted then descend (path ++ [row]) m p
    else do
      let p ← p.abandon path row removed
      pure (.ok .proceed, m, p)
  let m ← p.guard (m.uncoverRowOthers node)
  return (left, m, p)

/-- Tries the rows of a column from `node` on, until one of them ends the search. -/
def branch (descend : List Nat → CoverMatrix L → Progress σ ω → Except Interruption (Exit L σ ω))
    (path : List Nat) : Nat → Option Nat → CoverMatrix L → Progress σ ω →
    Except Interruption (Exit L σ ω)
  | _, none, m, p => .ok (.ok .proceed, m, p)
  | 0, some _, _, p => .error ⟨.endlessWalk, p.events⟩
  | fuel + 1, some node, m, p => do
    let (left, m, p) ← tryRow descend path node m p
    match left with
    | .ok .proceed =>
      let next ← p.guard (m.nextInColumn node)
      branch descend path fuel next m p
    | left => return (left, m, p)

/-- Searches the position with the given path, and those it leads to by `descend`. -/
def searchFrom (rule : BranchingRule L σ) (visit : Visitor L ω)
    (descend : List Nat → CoverMatrix L → Progress σ ω → Except Interruption (Exit L σ ω))
    (path : List Nat) (m : CoverMatrix L) (p : Progress σ ω) :
    Except Interruption (Exit L σ ω) := do
  let p ← p.enter path
  let solved ← p.guard m.isSolved
  if solved then present visit path m p
  else
    let (choice, state) ← p.guard (rule.select m p.rule)
    let p := { p with rule := state }
    match choice with
    | .error r => return (.error r, m, p)
    | .ok column =>
      let p := p.note (.branching path column (m.size column))
      let m ← p.guard (m.cover column)
      let first ← p.guard (m.firstInColumn column)
      let fuel := m.down.size
      let (left, m, p) ← branch descend path fuel first m p
      let m ← p.guard (m.uncover column)
      return (left, m, p)

/-- Searches the position with the given path, going at most so much deeper. -/
def explore (rule : BranchingRule L σ) (visit : Visitor L ω) :
    Nat → List Nat → CoverMatrix L → Progress σ ω → Except Interruption (Exit L σ ω)
  | 0, _, _, p => .error ⟨.endlessDescent, p.events⟩
  | depth + 1, path, m, p => searchFrom rule visit (explore rule visit depth) path m p

/-- A search that ended without a fault: its counters or the rule's rejection, and everything that
it used, as it left it. -/
structure Outcome (L σ ω : Type) where
  result : Except Rejection Tally
  matrix : CoverMatrix L
  rule : σ
  visitor : ω
  /-- In the order in which they happened. -/
  events : List Event

end Search

namespace BranchingRule

open Search

variable {L σ ω : Type}

/-- The progress of a search that has only closed the matrix. -/
def begin (rule : BranchingRule L σ) (state : σ) (visitor : ω) (events : List Event) :
    Progress σ ω where
  rule := state
  visitor := visitor
  samples := rule.pruning.map DepthSamples.empty
  solutions := 0
  nodes := 0
  pruned := 0
  events :=
    match rule.pruning with
    | some p => .pruning p :: events
    | none => events

/-- Visits the exact covers of a matrix. Each level of the search covers a column, so it is never
deeper than there are columns. -/
def run (rule : BranchingRule L σ) (state : σ) (visit : Visitor L ω) (visitor : ω)
    (m : CoverMatrix L) : Except Interruption (Outcome L σ ω) := do
  let p := rule.begin state visitor m.closingEvents
  let m := m.close
  let depth := m.columnCount + 1
  let (left, m, p) ← explore rule visit depth [] m p
  match left with
  | .error r => return ⟨.error r, m, p.rule, p.visitor, p.events.reverse⟩
  | .ok signal =>
    let t := p.tally (signal = .stop)
    return ⟨.ok t, m, p.rule, p.visitor, (p.note (.finished t)).events.reverse⟩

/-- Visits every cover without doing anything about it. -/
def count (rule : BranchingRule L σ) (state : σ) (m : CoverMatrix L) :
    Except Interruption (Outcome L σ Unit) :=
  rule.run state (fun _ _ => .ok (.proceed, ())) () m

/-- Stops at the first cover; the visitor's state is its list of rows. -/
def first (rule : BranchingRule L σ) (state : σ) (m : CoverMatrix L) :
    Except Interruption (Outcome L σ (Option (List Nat))) :=
  rule.run state (fun s _ => .ok (.stop, some s.rows)) none m

end BranchingRule

end DancingLinks
