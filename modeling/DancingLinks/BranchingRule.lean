import DancingLinks.CoverMatrix.Choice
import DancingLinks.Pruning

/-! # Branching rules

A search asks a branching rule for the column to cover next. Every rule finds every cover; the
choice decides how large the search tree is. A rule carries a state from question to question, and
it may ask the search to prune.
-/
namespace DancingLinks

/-- A rule on matrices with labels in `L` and with its state in `σ`. -/
structure BranchingRule (L σ : Type) where
  select : CoverMatrix L → σ → Except Fault (Except Rejection Nat × σ)
  pruning : Option Pruning

namespace BranchingRule

variable {L σ κ γ : Type}

/-- Fewest entries first, least priority first among those. -/
def fewestRows [LT κ] [DecidableLT κ] (priority : Nat → Except Fault κ) :
    BranchingRule L Unit where
  select m _ := do
    let choice ← m.minColumn priority
    return (choice, ())
  pruning := none

def fewestRowsLeftmost : BranchingRule L Unit := fewestRows fun _ => .ok 0

def leftmost : BranchingRule L Unit where
  select m _ := do
    let choice ← m.firstColumn
    return (choice, ())
  pruning := none

def drawn (d : Draw γ) : BranchingRule L γ where
  select m g := m.drawnColumn d g
  pruning := none

def uniform : BranchingRule L Generator := drawn Generator.drawing

/-- The choices of `inner`, in a search that prunes. -/
def withPruning (inner : BranchingRule L σ) (p : Pruning) : BranchingRule L σ where
  select := inner.select
  pruning := some p

/-- The choices of `inner` as often as the state's first component says, then a rejection. -/
def failingWith (inner : BranchingRule L σ) (r : Rejection) : BranchingRule L (Nat × σ) where
  select m s :=
    match s with
    | (0, s) => .ok (.error r, (0, s))
    | (left + 1, s) => do
      let (choice, s) ← inner.select m s
      return (choice, (left, s))
  pruning := inner.pruning

end BranchingRule

end DancingLinks
