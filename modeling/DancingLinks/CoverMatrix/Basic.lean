import DancingLinks.Ring
import DancingLinks.Rejection

/-! # Matrices of linked entries

A sparse 0/1 matrix as a torus of rings. Node 0 is the root, node `c + 1` is the header of column
`c`, and the entries of the rows follow in the order in which they were added. The root and the
headers of the primary columns form one ring across; the entries of a row form a ring across; the
header and the entries of a column form a ring down.
-/
namespace DancingLinks

/-- A column: exactly one row of a cover meets it if it is primary, at most one if it is not.
The size is the number of entries in its ring. -/
structure Header (L : Type) where
  label : L
  primary : Bool
  size : Nat
deriving DecidableEq

structure CoverMatrix (L : Type) where
  headers : Array (Header L)
  /-- The ring of the headers and the ring of each row. -/
  across : Links
  /-- The ring of each column. -/
  down : Links
  /-- The column of each node; the root's is unused. -/
  column : Array Nat
  /-- The row of each node, if it is an entry. -/
  row : Array (Option Nat)
  /-- The first node of each row. -/
  rowHeads : Array Nat
  /-- The number of rows that covered columns hide. -/
  removedRows : Nat
  /-- Whether the matrix takes no more rows. -/
  isClosed : Bool
deriving DecidableEq

namespace CoverMatrix

variable {L : Type}

/-- The head of the ring of the primary columns that are not covered. -/
def root : Nat := 0

/-- The first index at which a label stands that occurred before. -/
def firstRepeat [DecidableEq L] (seen : List L) : List L → Option Nat
  | [] => none
  | label :: rest => if label ∈ seen then some seen.length else firstRepeat (label :: seen) rest

def appendHeader (across : Links) (primary : Bool) : Except Fault Links :=
  let node := across.size
  let across := across.addNode
  if primary then across.insertBefore root node else .ok across

/-- A matrix without rows. Its primary columns stand in the root's ring in the order given. -/
def ofColumns [DecidableEq L] (columns : List (L × Bool)) :
    Except Fault (Except Rejection (CoverMatrix L)) :=
  match firstRepeat [] (columns.map Prod.fst) with
  | some index => .ok (.error (.duplicateColumn index))
  | none =>
    let nodes := columns.length + 1
    if nodes < Word.modulus then do
      let across ← (columns.map Prod.snd).foldlM appendHeader #[Link.alone root]
      return .ok {
        headers := (columns.map fun c => ⟨c.1, c.2, 0⟩).toArray
        across := across
        down := ((List.range nodes).map Link.alone).toArray
        column := (0 :: List.range columns.length).toArray
        row := Array.replicate nodes none
        rowHeads := #[]
        removedRows := 0
        isClosed := false }
    else .ok (.error .tooManyColumns)

def columnCount (m : CoverMatrix L) : Nat := m.headers.size

def rowCount (m : CoverMatrix L) : Nat := m.rowHeads.size

def entryCount (m : CoverMatrix L) : Nat := m.down.size - m.headers.size - 1

def primaryCount (m : CoverMatrix L) : Nat := m.headers.countP (·.primary)

def header (m : CoverMatrix L) (column : Nat) : Except Fault (Header L) :=
  if h : column < m.headers.size then .ok m.headers[column] else .error (.outOfBounds column)

def label (m : CoverMatrix L) (column : Nat) : Except Fault L := do
  let h ← m.header column
  return h.label

def size (m : CoverMatrix L) (column : Nat) : Nat :=
  match m.headers[column]? with
  | some h => h.size
  | none => 0

def sizes (m : CoverMatrix L) : List Nat := m.headers.toList.map (·.size)

def columnOf (m : CoverMatrix L) (node : Nat) : Except Fault Nat :=
  if h : node < m.column.size then .ok m.column[node] else .error (.outOfBounds node)

def rowOf (m : CoverMatrix L) (node : Nat) : Except Fault Nat :=
  match m.row[node]? with
  | some (some row) => .ok row
  | some none => .error (.notAnEntry node)
  | none => .error (.outOfBounds node)

def resize (headers : Array (Header L)) (column : Nat) (change : Nat → Except Fault Nat) :
    Except Fault (Array (Header L)) :=
  if h : column < headers.size then do
    let size ← change headers[column].size
    return headers.modify column fun header => ⟨header.label, header.primary, size⟩
  else .error (.outOfBounds column)

/-- The first flaw among the entries of a row from `position` on, `previous` being the entry
before them. -/
def entriesFlaw (columns : Nat) : Nat → Option Nat → List Nat → Option Rejection
  | _, _, [] => none
  | position, previous, index :: rest =>
    if columns ≤ index then some (.outOfRange index columns)
    else if previous.any (index ≤ ·) then some (.notAscending position)
    else entriesFlaw columns (position + 1) (some index) rest

/-- Why the row `entries` cannot be added, if it cannot. -/
def rowFlaw (m : CoverMatrix L) (entries : List Nat) : Option Rejection :=
  if m.isClosed then some .closedMatrix
  else if entries.isEmpty then some .emptyRow
  else entriesFlaw m.columnCount 0 none entries

/-- Appends one entry of `row`, whose first node is `first`, at the bottom of `column`. The number
of nodes stays a word. -/
def appendEntry (row first : Nat) (m : CoverMatrix L) (column : Nat) :
    Except Fault (CoverMatrix L) := do
  let { headers, across, down, column := columns, row := rows, rowHeads, removedRows,
        isClosed } := m
  let node := down.size
  let _ ← Word.add node 1
  let down ← down.addNode.insertBefore (column + 1) node
  let across := across.addNode
  let across ← if node = first then pure across else across.insertBefore first node
  let headers ← resize headers column (Word.add · 1)
  return { headers, across, down, column := columns.push column, row := rows.push (some row),
           rowHeads, removedRows, isClosed }

/-- Appends a row with an entry in each of the given columns and answers its id. Ids count from
zero, and a row that is turned down takes none. -/
def addRow (m : CoverMatrix L) (entries : List Nat) :
    Except Fault (Except Rejection Nat × CoverMatrix L) :=
  match m.rowFlaw entries with
  | some flaw => .ok (.error flaw, m)
  | none => do
    let row := m.rowCount
    let first := m.down.size
    let m ← entries.foldlM (appendEntry row first) m
    return (.ok row, { m with rowHeads := m.rowHeads.push first })

def close (m : CoverMatrix L) : CoverMatrix L := { m with isClosed := true }

def isSolved (m : CoverMatrix L) : Except Fault Bool := do
  let l ← m.across.link root
  return l.next = root

/-- The primary columns that are not covered, in the order of the root's ring. -/
def activeColumns (m : CoverMatrix L) : Except Fault (List Nat) := do
  let nodes ← m.across.forward root
  return nodes.map (· - 1)

def rowColumns (m : CoverMatrix L) (row : Nat) : Except Fault (List Nat) :=
  match m.rowHeads[row]? with
  | none => .error (.outOfBounds row)
  | some start => do
    let others ← m.across.forward start
    (start :: others).mapM m.columnOf

/-- The entry below `node`, unless `node` is the last of its column. -/
def nextInColumn (m : CoverMatrix L) (node : Nat) : Except Fault (Option Nat) := do
  let l ← m.down.link node
  return if m.headers.size < l.next then some l.next else none

/-- The top entry of `column`, unless the column has none. -/
def firstInColumn (m : CoverMatrix L) (column : Nat) : Except Fault (Option Nat) := do
  let head ← Word.add column 1
  m.nextInColumn head

end CoverMatrix

end DancingLinks
