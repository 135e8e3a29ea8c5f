import DancingLinks.CoverMatrix.Basic
import DancingLinks.Generator

/-! # Choosing a column

Three ways to pick one of the primary columns that are not covered: the one with the fewest
entries, the leftmost one, and any one at random.
-/
namespace DancingLinks

/-- A priority for which larger values go first. -/
structure Descending (κ : Type) where
  value : κ

instance {κ : Type} [LT κ] : LT (Descending κ) := ⟨fun a b => b.value < a.value⟩

instance {κ : Type} [LT κ] [DecidableLT κ] : DecidableLT (Descending κ) :=
  fun a b => inferInstanceAs (Decidable (b.value < a.value))

namespace CoverMatrix

variable {L κ γ : Type}

/-- A column with what decides between columns: its size and, among equal sizes, its priority. -/
structure Ranked (κ : Type) where
  column : Nat
  size : Nat
  priority : κ

def Ranked.precedes [LT κ] [DecidableLT κ] (a b : Ranked κ) : Bool :=
  a.size < b.size || (a.size == b.size && a.priority < b.priority)

/-- The better of two columns, the first one on a tie. -/
def Ranked.better [LT κ] [DecidableLT κ] (a b : Ranked κ) : Ranked κ :=
  if b.precedes a then b else a

def rank (m : CoverMatrix L) (priority : Nat → Except Fault κ) (column : Nat) :
    Except Fault (Ranked κ) := do
  let p ← priority column
  return ⟨column, m.size column, p⟩

/-- The column with the fewest entries; of several the one of least priority, and of several of
those the first in the root's ring. -/
def minColumn [LT κ] [DecidableLT κ] (m : CoverMatrix L) (priority : Nat → Except Fault κ) :
    Except Fault (Except Rejection Nat) := do
  let active ← m.activeColumns
  let ranked ← active.mapM (m.rank priority)
  match ranked with
  | [] => return .error .noColumnLeft
  | first :: rest => return .ok (rest.foldl Ranked.better first).column

def firstColumn (m : CoverMatrix L) : Except Fault (Except Rejection Nat) := do
  let l ← m.across.link root
  return if l.next = root then .error .noColumnLeft else .ok (l.next - 1)

def drawnColumn (m : CoverMatrix L) (d : Draw γ) (g : γ) :
    Except Fault (Except Rejection Nat × γ) := do
  let active ← m.activeColumns
  match d.choose active g with
  | (some column, g) => return (.ok column, g)
  | (none, g) => return (.error .noColumnLeft, g)

def randomColumn (m : CoverMatrix L) (g : Generator) :
    Except Fault (Except Rejection Nat × Generator) :=
  m.drawnColumn Generator.drawing g

end CoverMatrix

end DancingLinks
