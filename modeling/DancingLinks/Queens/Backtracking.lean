import DancingLinks.Queens.Table

/-! # Plain backtracking

Counts the placements of queens rank by rank, with tables of the occupied files and diagonals. It
shares nothing with the exact cover search, and so either can be checked against the other.
-/
namespace DancingLinks.Queens

/-- The occupied lines, ranks excepted, and what was counted so far. -/
structure Occupancy where
  files : Table
  diagonals : Table
  antiDiagonals : Table
  /-- Complete placements. -/
  solutions : Nat
  /-- Positions looked at, from the empty board to complete placements. -/
  subproblems : Nat

namespace Occupancy

def isSafe (o : Occupancy) (n rank file : Nat) : Except Fault Bool := do
  if ← Table.get o.files file then return false
  let d ← Word.add rank file
  if ← Table.get o.diagonals d then return false
  let a ← antiDiagonalOf n rank file
  let occupied ← Table.get o.antiDiagonals a
  return !occupied

def set (o : Occupancy) (n rank file : Nat) (occupied : Bool) : Except Fault Occupancy := do
  let ⟨files, diagonals, antiDiagonals, solutions, subproblems⟩ := o
  let files ← Table.put files file occupied
  let d ← Word.add rank file
  let diagonals ← Table.put diagonals d occupied
  let a ← antiDiagonalOf n rank file
  let antiDiagonals ← Table.put antiDiagonals a occupied
  return ⟨files, diagonals, antiDiagonals, solutions, subproblems⟩

def countPosition (o : Occupancy) : Except Fault Occupancy := do
  let subproblems ← Word.add o.subproblems 1
  return { o with subproblems := subproblems }

def countSolution (o : Occupancy) : Except Fault Occupancy := do
  let solutions ← Word.add o.solutions 1
  return { o with solutions := solutions }

def tryCell (next : Occupancy → Except Fault Occupancy) (n rank : Nat) (o : Occupancy)
    (file : Nat) : Except Fault Occupancy := do
  let safe ← o.isSafe n rank file
  if safe then
    let o ← o.set n rank file true
    let o ← next o
    o.set n rank file false
  else return o

/-- Goes through the placements on the last `left` ranks of an `n × n` board. -/
def place (n : Nat) : Nat → Occupancy → Except Fault Occupancy
  | 0, o => do
    let o ← o.countPosition
    o.countSolution
  | left + 1, o => do
    let o ← o.countPosition
    (List.range n).foldlM (tryCell (place n left) n (n - (left + 1))) o

end Occupancy

structure Count where
  solutions : Nat
  subproblems : Nat
deriving DecidableEq

/-- Counts the placements of `n` queens on an `n × n` board. -/
def count (n : Nat) : Except Fault Count := do
  let diagonals ← diagonalCount n
  let o ← Occupancy.place n n ⟨Table.free n, Table.free diagonals, Table.free diagonals, 0, 0⟩
  return ⟨o.solutions, o.subproblems⟩

end DancingLinks.Queens
