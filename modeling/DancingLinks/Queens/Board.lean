import DancingLinks.Terminal
import DancingLinks.Word

/-! # Boards

A board with at most one queen on each rank, and its drawing. The last rank is drawn on top, and a
frame goes around.
-/
namespace DancingLinks.Queens

structure Board where
  size : Nat
  /-- The file of the queen of each rank, if there is one. -/
  files : Vector (Option (Fin size)) size

namespace Board

def empty (n : Nat) : Board := ⟨n, Vector.replicate n none⟩

/-- Puts queens on ranks; a rank takes the last one given. -/
def placeAll {n : Nat} (files : Vector (Option (Fin n)) n) :
    List (Nat × Nat) → Except Fault (Vector (Option (Fin n)) n)
  | [] => .ok files
  | (rank, file) :: rest =>
    if h : rank < n ∧ file < n then placeAll (files.set rank (some ⟨file, h.2⟩) h.1) rest
    else .error (.queenOffBoard rank file)

/-- The board with queens on the given cells, rank and file. -/
def ofQueens (n : Nat) (queens : List (Nat × Nat)) : Except Fault Board := do
  let files ← placeAll (empty n).files queens
  return ⟨n, files⟩

def hasQueen (b : Board) (rank file : Fin b.size) : Bool := b.files[rank] = some file

def frame (b : Board) : String := "+-" ++ String.join (List.replicate b.size "--") ++ "+"

def line (b : Board) (cell : Bool → String) (rank : Fin b.size) : String :=
  "| " ++ String.join ((List.finRange b.size).map fun file => cell (b.hasQueen rank file) ++ " ")
    ++ "|"

def lines (b : Board) (cell : Bool → String) : List String :=
  b.frame :: (List.finRange b.size).reverse.map (b.line cell) ++ [b.frame]

def plainCell (queen : Bool) : String := if queen then "Q" else "."

def paintedCell (paint : Emphasis → String → String) (queen : Bool) : String :=
  if queen then paint .boldYellow (plainCell true) else paint .dimmed (plainCell false)

def text (b : Board) : String := "\n".intercalate (b.lines plainCell)

def paintedText (b : Board) (paint : Emphasis → String → String) : String :=
  "\n".intercalate (b.lines (paintedCell paint))

def coloredText (b : Board) (colors : Bool) : String := b.paintedText (Emphasis.apply colors)

end Board

end DancingLinks.Queens
