import DancingLinks.Word

/-! # Lines of a board

The lines on which two queens attack each other. On a board with `n` ranks the cell of rank `i` and
file `j` lies on diagonal `i + j` and on anti-diagonal `n - 1 - i + j`.
-/
namespace DancingLinks

inductive Constraint where
  | rank (index : Nat)
  | file (index : Nat)
  | diagonal (index : Nat)
  | antiDiagonal (index : Nat)
deriving DecidableEq

namespace Constraint

def text : Constraint → String
  | .rank i => s!"rank {i}"
  | .file j => s!"file {j}"
  | .diagonal d => s!"diagonal {d}"
  | .antiDiagonal d => s!"anti-diagonal {d}"

def kind : Constraint → Nat
  | .rank _ => 0
  | .file _ => 1
  | .diagonal _ => 2
  | .antiDiagonal _ => 3

def index : Constraint → Nat
  | .rank i => i
  | .file j => j
  | .diagonal d => d
  | .antiDiagonal d => d

def le (a b : Constraint) : Bool := a.kind < b.kind || (a.kind == b.kind && a.index ≤ b.index)

def sorted (lines : List Constraint) : List Constraint := (lines.mergeSort le).eraseReps

end Constraint

/-- The number of diagonals of an `n × n` board, and also of its anti-diagonals. -/
def Queens.diagonalCount (n : Nat) : Except Fault Nat := do
  let twice ← Word.mul 2 n
  return twice - 1

end DancingLinks
