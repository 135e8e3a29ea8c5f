/-! # Rejections

The reasons for which a column list, a row or a request for a column is turned down. A rejection
leaves everything as it was, and the caller may go on.
-/
namespace DancingLinks

inductive Rejection where
  /-- A row for a matrix that takes no more rows. -/
  | closedMatrix
  /-- A column to branch on, when every primary column is covered. -/
  | noColumnLeft
  /-- A column list in which the label at `index` occurred before. -/
  | duplicateColumn (index : Nat)
  | tooManyColumns
  | emptyRow
  /-- A row with the entry `index` in a matrix of `columns` columns. -/
  | outOfRange (index columns : Nat)
  /-- A row whose entry at `position` is not above the entry before it. -/
  | notAscending (position : Nat)
deriving DecidableEq

namespace Rejection

/-- What is wrong with the column list or the row, where the reason is about one. -/
def detail? : Rejection → Option String
  | .closedMatrix => none
  | .noColumnLeft => none
  | .duplicateColumn index => some s!"column {index} repeats the label of an earlier column"
  | .tooManyColumns => some "too many columns"
  | .emptyRow => some "a row must contain at least one column"
  | .outOfRange index columns =>
    some s!"column index {index} is out of range for {columns} columns"
  | .notAscending position =>
    some s!"column indices must be unique and sorted ascending (entry {position})"

def subject : Rejection → String
  | .closedMatrix => "rows cannot be added to a sealed matrix"
  | .noColumnLeft => "no primary columns remain to be covered"
  | .duplicateColumn _ => "malformed column specification"
  | .tooManyColumns => "malformed column specification"
  | .emptyRow => "invalid row"
  | .outOfRange _ _ => "invalid row"
  | .notAscending _ => "invalid row"

def message (r : Rejection) : String :=
  match r.detail? with
  | some detail => r.subject ++ ": " ++ detail
  | none => r.subject

end Rejection

end DancingLinks
