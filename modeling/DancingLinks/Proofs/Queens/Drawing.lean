import DancingLinks.Queens.Board
import DancingLinks.Proofs.Queens.Attacks
import Mathlib.Data.List.FinRange
import Mathlib.Data.List.Pairwise

/-! # Drawings of placements

A board keeps one queen a rank, the last one put there. If the queens stand on different ranks, none
is lost, and its drawing shows a queen on exactly their cells.
-/
namespace DancingLinks.Queens

variable {n rank file : Nat} {queens : List (Nat × Nat)} {paint : Emphasis → String → String}

def framed {α β : Type} (n : Nat) (ranks : List α) (files : List β) (cell : α → β → String) :
    List String :=
  let frame := "+-" ++ String.join (List.replicate n "--") ++ "+"
  let line (rank : α) : String :=
    "| " ++ String.join (files.map fun file => cell rank file ++ " ") ++ "|"
  frame :: ranks.map line ++ [frame]

/-- A board with queens on the given cells as it is to be drawn, the last rank on top. -/
def drawing (paint : Emphasis → String → String) (n : Nat) (queens : List (Nat × Nat)) :
    List String :=
  framed n (List.range n).reverse (List.range n) fun rank file =>
    if queens.contains (rank, file) then paint .boldYellow "Q" else paint .dimmed "."

def lastFile (queens : List (Nat × Nat)) (rank : Nat) : Option Nat :=
  (queens.filter (·.1 = rank)).getLast?.map Prod.snd

theorem lastFile_cons (q : Nat × Nat) (queens : List (Nat × Nat)) (rank : Nat) :
    lastFile (q :: queens) rank =
      (lastFile queens rank).or (if q.1 = rank then some q.2 else none) := by
  by_cases hr : q.1 = rank
  · cases hf : queens.filter (·.1 = rank) with
    | nil => simp [lastFile, hr, hf]
    | cons x xs =>
      obtain ⟨last, hlast⟩ : ∃ last, (x :: xs).getLast? = some last :=
        ⟨_, List.getLast?_eq_some_getLast (List.cons_ne_nil x xs)⟩
      simp [lastFile, hr, hf, List.getLast?_cons_cons, hlast]
  · simp [lastFile, hr]

theorem lastFile_eq_some (h : ∀ q ∈ queens, ∀ q' ∈ queens, q.1 = q'.1 → q = q') :
    lastFile queens rank = some file ↔ (rank, file) ∈ queens := by
  rw [lastFile, Option.map_eq_some_iff]
  constructor
  · rintro ⟨q, hq, rfl⟩
    obtain ⟨hmem, hrank⟩ := List.mem_filter.mp (List.mem_of_getLast? hq)
    obtain rfl : q.1 = rank := by simpa using hrank
    exact hmem
  · intro hmem
    have hf : (rank, file) ∈ queens.filter (·.1 = rank) := List.mem_filter.mpr ⟨hmem, by simp⟩
    have hlast := List.getLast?_eq_some_getLast (List.ne_nil_of_mem hf)
    refine ⟨_, hlast, ?_⟩
    obtain ⟨hmem', hrank⟩ := List.mem_filter.mp (List.getLast_mem (List.ne_nil_of_mem hf))
    rw [h _ hmem' _ hmem (by simpa using hrank)]

namespace Board

/-- Queens on the board are put there, and the last one of a rank stays. -/
theorem exists_placeAll (files : Vector (Option (Fin n)) n) (hon : ∀ q ∈ queens, OnBoard n q) :
    ∃ files', placeAll files queens = .ok files' ∧ ∀ rank file : Fin n,
      hasQueen ⟨n, files'⟩ rank file ↔ lastFile queens rank = some file.val ∨
        lastFile queens rank = none ∧ hasQueen ⟨n, files⟩ rank file := by
  induction queens generalizing files with
  | nil => exact ⟨files, rfl, fun rank file => by simp [lastFile]⟩
  | cons q queens ih =>
    simp only [List.mem_cons, forall_eq_or_imp] at hon
    obtain ⟨⟨hi, hj⟩, hon⟩ := hon
    obtain ⟨files', hplace, hfiles⟩ := ih (files.set q.1 (some ⟨q.2, hj⟩) hi) hon
    refine ⟨files', ?_, fun rank file => ?_⟩
    · rw [placeAll, dif_pos ⟨hi, hj⟩]
      exact hplace
    · rw [hfiles, lastFile_cons]
      by_cases hr : q.1 = rank.val
      · have hset : hasQueen ⟨n, files.set q.1 (some ⟨q.2, hj⟩) hi⟩ rank file ↔
            q.2 = file.val := by
          simp [hasQueen, hr, Fin.ext_iff]
        rw [hset, if_pos hr]
        cases lastFile queens rank <;> simp
      · have hset : hasQueen ⟨n, files.set q.1 (some ⟨q.2, hj⟩) hi⟩ rank file ↔
            hasQueen ⟨n, files⟩ rank file := by
          simp [hasQueen, Vector.getElem_set_ne, hr]
        rw [hset, if_neg hr, Option.or_none]

theorem ofQueens_eq (n : Nat) (queens : List (Nat × Nat)) :
    ofQueens n queens = (placeAll (Vector.replicate n none) queens).map (⟨n, ·⟩) := by
  simp only [ofQueens, bind, Except.bind, empty]
  cases placeAll (Vector.replicate n none) queens <;> rfl

end Board

end DancingLinks.Queens
