import DancingLinks.CoverMatrix.Basic
import DancingLinks.Pruning
import DancingLinks.Decimal.Text

/-! # Events of a search

What a search did, in order, and the log lines that report it. A path is the list of the rows
chosen so far, by depth.
-/
namespace DancingLinks

structure Tally where
  /-- Covers handed to the visitor. -/
  solutions : Nat
  /-- Positions searched, solved ones included. -/
  nodes : Nat
  /-- Branches abandoned. -/
  pruned : Nat
  /-- Whether the visitor ended the search. -/
  stopped : Bool
deriving DecidableEq

inductive Event where
  /-- A matrix was closed to further rows. -/
  | closed (columns primary rows entries : Nat)
  /-- The search prunes. -/
  | pruning (p : Pruning)
  /-- The search looks at the position with the given path. -/
  | entered (path : List Nat)
  /-- A column of the given size is about to be covered. -/
  | branching (path : List Nat) (column size : Nat)
  /-- The path is the cover of the given number. -/
  | solved (number : Nat) (path : List Nat)
  /-- The row after the path, which hides `removed` rows in all, was abandoned. -/
  | abandoned (path : List Nat) (row removed : Nat)
  | finished (t : Tally)

inductive Level where
  | debug
  | trace
deriving DecidableEq

def Level.name : Level → String
  | .debug => "DEBUG"
  | .trace => "TRACE"

def Level.takes (limit l : Level) : Bool := limit = .trace || l = .debug

def Pruning.text (p : Pruning) : String :=
  s!"PruneConfig \x7b sample_cap: {p.sampleCap}, deviations: " ++
    Decimal.render Decimal.plainStyle p.deviations ++ s!", min_samples: {p.minSamples} \x7d"

def Tally.text (t : Tally) : String :=
  s!"SearchStats \x7b solutions: {t.solutions}, nodes: {t.nodes}, pruned: {t.pruned}, " ++
    s!"stopped: {t.stopped} \x7d"

/-- The log record of an event; positions leave none. -/
def Event.record? : Event → Option (Level × String)
  | .closed columns primary rows entries =>
    some (.debug, s!"sealed matrix with {columns} columns ({primary} primary), {rows} rows and " ++
      s!"{entries} entries")
  | .pruning p => some (.debug, "searching with statistical pruning: " ++ p.text)
  | .entered _ => none
  | .branching path column size =>
    some (.trace, s!"depth {path.length}: covering column {column} with {size} rows")
  | .solved number path => some (.debug, s!"solution {number} with {path.length} rows")
  | .abandoned path row removed =>
    some (.trace, s!"pruned row {row} at depth {path.length} ({removed} rows removed)")
  | .finished t => some (.debug, "search finished: " ++ t.text)

/-- The line of an event in a log of level `limit`. -/
def Event.line? (limit : Level) (e : Event) : Option String :=
  match e.record? with
  | some (l, text) => if limit.takes l then some (l.name ++ " " ++ text) else none
  | none => none

def Event.lines (limit : Level) (events : List Event) : List String :=
  events.filterMap (Event.line? limit)

namespace CoverMatrix

variable {L : Type}

def closing (m : CoverMatrix L) : Event :=
  .closed m.columnCount m.primaryCount m.rowCount m.entryCount

/-- What closing the matrix does: nothing if it is closed. -/
def closingEvents (m : CoverMatrix L) : List Event := if m.isClosed then [] else [m.closing]

end CoverMatrix

end DancingLinks
