import DancingLinks.CoverMatrix.Basic

/-! # Covering and uncovering

Covering a column takes its header out of the root's ring and hides every row that meets the
column from all other columns. Uncovering does the same steps backwards, and so undoes the latest
cover exactly. Each loop goes once around a ring and follows a link only after it dealt with the
node the link belongs to.
-/
namespace DancingLinks.CoverMatrix

variable {L : Type}

/-- Runs `act` on the nodes from `cursor` on, until `head` is met. The step from a node is taken in
the links that `act` left. -/
def sweep (ring : CoverMatrix L → Links) (step : Link → Nat)
    (act : CoverMatrix L → Nat → Except Fault (CoverMatrix L)) (head : Nat) :
    Nat → Nat → CoverMatrix L → Except Fault (CoverMatrix L)
  | 0, _, _ => .error .endlessWalk
  | fuel + 1, cursor, m =>
    if cursor = head then .ok m
    else do
      let m ← act m cursor
      let l ← (ring m).link cursor
      sweep ring step act head fuel (step l) m

/-- Runs `act` once around the ring of `head`, on all nodes but `head`. -/
def around (m : CoverMatrix L) (ring : CoverMatrix L → Links) (step : Link → Nat)
    (act : CoverMatrix L → Nat → Except Fault (CoverMatrix L)) (head : Nat) :
    Except Fault (CoverMatrix L) := do
  let l ← (ring m).link head
  sweep ring step act head (ring m).size (step l) m

def hideEntry (m : CoverMatrix L) (node : Nat) : Except Fault (CoverMatrix L) := do
  let column ← m.columnOf node
  let { headers, across, down, column := columns, row, rowHeads, removedRows, isClosed } := m
  let down ← down.unlink node
  let headers ← resize headers column (Word.sub · 1)
  return { headers, across, down, column := columns, row, rowHeads, removedRows, isClosed }

def showEntry (m : CoverMatrix L) (node : Nat) : Except Fault (CoverMatrix L) := do
  let column ← m.columnOf node
  let { headers, across, down, column := columns, row, rowHeads, removedRows, isClosed } := m
  let headers ← resize headers column (Word.add · 1)
  let down ← down.relink node
  return { headers, across, down, column := columns, row, rowHeads, removedRows, isClosed }

/-- Hides the row of `node` from every column but that of `node`, left to right. -/
def hideRow (m : CoverMatrix L) (node : Nat) : Except Fault (CoverMatrix L) := do
  let m ← m.around across Link.next hideEntry node
  let removed ← Word.add m.removedRows 1
  return { m with removedRows := removed }

/-- Undoes `hideRow`, right to left. -/
def showRow (m : CoverMatrix L) (node : Nat) : Except Fault (CoverMatrix L) := do
  let m ← m.around across Link.prev showEntry node
  let removed ← Word.sub m.removedRows 1
  return { m with removedRows := removed }

def headOf (m : CoverMatrix L) (column : Nat) : Except Fault Nat := do
  let head ← Word.add column 1
  if head < m.headers.size + 1 then return head else throw (.notAColumn column)

/-- Whether `column` is primary and its header, `head`, is out of the root's ring. -/
def isCoveredPrimary (m : CoverMatrix L) (column head : Nat) : Except Fault Bool := do
  let header ← m.header column
  if header.primary then m.across.isUnlinked head else return false

def unlinkHeader (m : CoverMatrix L) (head : Nat) : Except Fault (CoverMatrix L) := do
  let { headers, across, down, column, row, rowHeads, removedRows, isClosed } := m
  let across ← across.unlink head
  return { headers, across, down, column, row, rowHeads, removedRows, isClosed }

def relinkHeader (m : CoverMatrix L) (head : Nat) : Except Fault (CoverMatrix L) := do
  let { headers, across, down, column, row, rowHeads, removedRows, isClosed } := m
  let across ← across.relink head
  return { headers, across, down, column, row, rowHeads, removedRows, isClosed }

/-- Covers a column, which must not be covered already. -/
def cover (m : CoverMatrix L) (column : Nat) : Except Fault (CoverMatrix L) := do
  let head ← m.headOf column
  if ← m.isCoveredPrimary column head then throw (.alreadyCovered column)
  let m ← m.unlinkHeader head
  m.around down Link.next hideRow head

/-- Undoes `cover`: rows come back bottom to top, entries right to left. -/
def uncover (m : CoverMatrix L) (column : Nat) : Except Fault (CoverMatrix L) := do
  let head ← m.headOf column
  let m ← m.around down Link.prev showRow head
  m.relinkHeader head

def coverAt (m : CoverMatrix L) (node : Nat) : Except Fault (CoverMatrix L) := do
  let column ← m.columnOf node
  m.cover column

def uncoverAt (m : CoverMatrix L) (node : Nat) : Except Fault (CoverMatrix L) := do
  let column ← m.columnOf node
  m.uncover column

/-- Covers the columns of the other entries in the row of `node`, left to right. -/
def coverRowOthers (m : CoverMatrix L) (node : Nat) : Except Fault (CoverMatrix L) :=
  m.around across Link.next coverAt node

/-- Undoes `coverRowOthers`, right to left. -/
def uncoverRowOthers (m : CoverMatrix L) (node : Nat) : Except Fault (CoverMatrix L) :=
  m.around across Link.prev uncoverAt node

end DancingLinks.CoverMatrix
