import DancingLinks.CoverMatrix.Basic

/-! # Exact covers

A cover as the search hands it out: the matrix it stands in and its rows in the order in which
they were chosen.
-/
namespace DancingLinks

structure Solution (L : Type) where
  matrix : CoverMatrix L
  rows : List Nat

namespace Solution

variable {L : Type}

def size (s : Solution L) : Nat := s.rows.length

def isEmpty (s : Solution L) : Bool := s.rows.isEmpty

def columns (s : Solution L) (row : Nat) : Except Fault (List L) := do
  let columns ← s.matrix.rowColumns row
  columns.mapM s.matrix.label

/-- The rows in ascending order, each with the labels of its columns. -/
def toMap (s : Solution L) : Except Fault (List (Nat × List L)) :=
  (s.rows.mergeSort (· ≤ ·)).eraseReps.mapM fun row => do
    let labels ← s.columns row
    return (row, labels)

end Solution

end DancingLinks
