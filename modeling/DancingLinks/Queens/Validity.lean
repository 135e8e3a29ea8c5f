import DancingLinks.Queens.Table

/-! # Valid placements

Whether a list of queens is a solution is found in one pass: each queen marks its four lines, and
none may be marked before.
-/
namespace DancingLinks.Queens

/-- The lines of each kind that the queens seen so far stand on. -/
structure Marks where
  ranks : Table
  files : Table
  diagonals : Table
  antiDiagonals : Table

namespace Marks

def empty (n diagonals : Nat) : Marks :=
  ⟨Table.free n, Table.free n, Table.free diagonals, Table.free diagonals⟩

def add? (m : Marks) (n rank file : Nat) : Except Fault (Option Marks) := do
  let ⟨ranks, files, diagonals, antiDiagonals⟩ := m
  if ¬(rank < n ∧ file < n) then return none
  if ← Table.get ranks rank then return none
  if ← Table.get files file then return none
  let d ← Word.add rank file
  if ← Table.get diagonals d then return none
  let a ← antiDiagonalOf n rank file
  if ← Table.get antiDiagonals a then return none
  let ranks ← Table.put ranks rank true
  let files ← Table.put files file true
  let diagonals ← Table.put diagonals d true
  let antiDiagonals ← Table.put antiDiagonals a true
  return some ⟨ranks, files, diagonals, antiDiagonals⟩

def addAll (n : Nat) : List (Nat × Nat) → Marks → Except Fault Bool
  | [], _ => .ok true
  | (rank, file) :: rest, m => do
    match ← m.add? n rank file with
    | some m => addAll n rest m
    | none => return false

end Marks

/-- Whether the list holds `n` queens of an `n × n` board of which no two share a line. -/
def isValid (n : Nat) (queens : List (Nat × Nat)) : Except Fault Bool := do
  if queens.length ≠ n then return false
  let diagonals ← diagonalCount n
  Marks.addAll n queens (Marks.empty n diagonals)

end DancingLinks.Queens
