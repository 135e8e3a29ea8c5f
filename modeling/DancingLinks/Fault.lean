/-! # Faults

A fault is what an operation answers when its caller broke the operation's contract or when a
number left the range of a machine word. It is never repaired: whoever meets one stops.
-/
namespace DancingLinks

/-- The ways in which an operation can be misused or run out of room. -/
inductive Fault where
  /-- A number left the range of a word. -/
  | overflow
  /-- A list was read or written past its end. -/
  | outOfBounds (index : Nat)
  | divisionByZero
  /-- A list would fill the address space. -/
  | tooLarge
  /-- A walk along links did not come back to where it started. -/
  | endlessWalk
  /-- A search went deeper than there are columns to cover. -/
  | endlessDescent
  /-- The node is the root or a column header, and so has no row. -/
  | notAnEntry (node : Nat)
  | notAColumn (column : Nat)
  | alreadyCovered (column : Nat)
  | cellOffBoard (rank file : Nat)
  | queenOffBoard (rank file : Nat)
deriving DecidableEq

/-- What a fault says about the argument at fault; the others say nothing. -/
def Fault.message? : Fault → Option String
  | .notAColumn column => some s!"{column} must be a column"
  | .alreadyCovered column => some s!"column {column} must not already be covered"
  | .cellOffBoard rank file => some s!"cell ({rank}, {file}) is off the board"
  | .queenOffBoard rank file => some s!"queen ({rank}, {file}) is off the board"
  | _ => none

end DancingLinks
