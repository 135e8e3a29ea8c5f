import DancingLinks.CoverMatrix.Basic
import DancingLinks.Queens.Constraint
import DancingLinks.Search.Event

/-! # Queens as an exact cover problem

Each rank and each file of an `n × n` board holds exactly one queen, so these `2n` columns are
primary; each of the `2n - 1` diagonals and anti-diagonals holds at most one, so those are
secondary. A cell is a row of the matrix with an entry in each of its four lines.
-/
namespace DancingLinks.Queens

def columns (n : Nat) : Except Fault (List (Constraint × Bool)) := do
  let diagonals ← diagonalCount n
  return (List.range n).map (fun i => (.rank i, true)) ++
    (List.range n).map (fun j => (.file j, true)) ++
    (List.range diagonals).map (fun d => (.diagonal d, false)) ++
    (List.range diagonals).map (fun d => (.antiDiagonal d, false))

def rowFor (n rank file : Nat) : Except Fault (List Nat) := do
  if ¬(rank < n ∧ file < n) then throw (.cellOffBoard rank file)
  let fileColumn ← Word.add n file
  let files ← Word.mul 2 n
  let diagonal ← Word.add files rank
  let diagonal ← Word.add diagonal file
  let last ← Word.mul 5 n
  let last ← Word.sub last 2
  let antiDiagonal ← Word.sub last rank
  let antiDiagonal ← Word.add antiDiagonal file
  return [rank, fileColumn, diagonal, antiDiagonal]

def cellOf (n row : Nat) : Except Fault (Nat × Nat) := do
  let rank ← Word.div row n
  let file ← Word.mod row n
  return (rank, file)

def cells (n : Nat) : List (Nat × Nat) :=
  (List.range n).flatMap fun i => (List.range n).map fun j => (i, j)

def addCells (n : Nat) : List (Nat × Nat) → CoverMatrix Constraint →
    Except Fault (Except Rejection (CoverMatrix Constraint))
  | [], m => .ok (.ok m)
  | (i, j) :: rest, m => do
    let entries ← rowFor n i j
    match ← m.addRow entries with
    | (.error r, _) => return .error r
    | (.ok _, m) => addCells n rest m

/-- The matrix with one row per cell, before it is closed. The row of cell `(i, j)` has the id
`i * n + j`. -/
def openMatrix (n : Nat) : Except Fault (Except Rejection (CoverMatrix Constraint)) := do
  let columns ← columns n
  match ← CoverMatrix.ofColumns columns with
  | .error r => return .error r
  | .ok m => addCells n (cells n) m

def matrix (n : Nat) : Except Fault (Except Rejection (CoverMatrix Constraint)) := do
  match ← openMatrix n with
  | .error r => return .error r
  | .ok m => return .ok m.close

def matrixEvents (m : CoverMatrix Constraint) : List Event := [m.closing]

/-- Twice the distance of a rank or a file from the middle of the board. Queens near the middle
attack more cells, so of several columns the one with the least distance is tried first, and
diagonals come last. -/
def priority (n column : Nat) : Except Fault Nat := do
  if column < n then
    let twice ← Word.mul 2 column
    let span ← Word.sub n 1
    return Word.distance twice span
  else
    let files ← Word.mul 2 n
    if column < files then
      let twice ← Word.mul 2 (column - n)
      let span ← Word.sub n 1
      return Word.distance twice span
    else return Word.max

def cellLe (a b : Nat × Nat) : Bool := a.1 < b.1 || (a.1 == b.1 && a.2 ≤ b.2)

def decode (n : Nat) (rows : List Nat) : Except Fault (List (Nat × Nat)) := do
  let cells ← rows.mapM (cellOf n)
  return cells.mergeSort cellLe

end DancingLinks.Queens
