import DancingLinks.Queens.Constraint

/-! # Tables of lines

For the lines of one kind, which of them hold a queen. The lines of a cell `(i, j)` of an `n × n`
board are rank `i`, file `j`, diagonal `i + j` and anti-diagonal `n - 1 - i + j`.
-/
namespace DancingLinks.Queens

abbrev Table := Array Bool

namespace Table

def free (size : Nat) : Table := Array.replicate size false

def get (t : Table) (i : Nat) : Except Fault Bool :=
  if h : i < t.size then .ok t[i] else .error (.outOfBounds i)

def put (t : Table) (i : Nat) (occupied : Bool) : Except Fault Table :=
  if h : i < t.size then .ok (t.set i occupied h) else .error (.outOfBounds i)

end Table

def antiDiagonalOf (n rank file : Nat) : Except Fault Nat := do
  let last ← Word.sub n 1
  let d ← Word.sub last rank
  Word.add d file

end DancingLinks.Queens
