import DancingLinks.Queens.Validity
import DancingLinks.Queens.Backtracking
import Mathlib.Data.List.Nodup

/-! # Queens that do not attack each other

Two queens are apart if they share no line. A table of lines holds what the queens put on the board
so far mark, so a look at the tables tells whether one more queen is apart from all of them, and a
list of queens is accepted exactly if it solves the board.
-/
namespace DancingLinks.Queens

variable {n i j : Nat} {q q' : Nat × Nat} {qs queens : List (Nat × Nat)}

def OnBoard (n : Nat) (q : Nat × Nat) : Prop := q.1 < n ∧ q.2 < n

instance (n : Nat) (q : Nat × Nat) : Decidable (OnBoard n q) :=
  inferInstanceAs (Decidable (_ ∧ _))

/-- Two queens of an `n × n` board share no line. -/
structure Apart (n : Nat) (q q' : Nat × Nat) : Prop where
  rank : q.1 ≠ q'.1
  file : q.2 ≠ q'.2
  diagonal : q.1 + q.2 ≠ q'.1 + q'.2
  antiDiagonal : n - 1 - q.1 + q.2 ≠ n - 1 - q'.1 + q'.2

theorem apart_iff : Apart n q q' ↔ q.1 ≠ q'.1 ∧ q.2 ≠ q'.2 ∧ q.1 + q.2 ≠ q'.1 + q'.2 ∧
    n - 1 - q.1 + q.2 ≠ n - 1 - q'.1 + q'.2 :=
  ⟨fun h => ⟨h.rank, h.file, h.diagonal, h.antiDiagonal⟩, fun h => ⟨h.1, h.2.1, h.2.2.1, h.2.2.2⟩⟩

instance (n : Nat) (q q' : Nat × Nat) : Decidable (Apart n q q') :=
  decidable_of_iff _ apart_iff.symm

/-- A cell is apart from some queens if none of its lines is one of theirs. -/
theorem forall_apart_iff : (∀ q ∈ qs, Apart n q (i, j)) ↔ i ∉ qs.map (·.1) ∧ j ∉ qs.map (·.2) ∧
    (i + j ∉ qs.map fun q => q.1 + q.2) ∧ n - 1 - i + j ∉ qs.map fun q => n - 1 - q.1 + q.2 := by
  simp only [apart_iff, List.mem_map, not_exists, not_and, forall_and, ne_eq]

theorem diagonalCount_eq (hn : 2 * n < Word.modulus) : diagonalCount n = .ok (2 * n - 1) := by
  rw [diagonalCount, Word.mul_of_lt hn]
  rfl

theorem antiDiagonalOf_eq (hn : 2 * n < Word.modulus) (h : OnBoard n (i, j)) :
    antiDiagonalOf n i j = .ok (n - 1 - i + j) := by
  rcases h with ⟨hi, hj⟩
  have hlast : 1 ≤ n := Nat.one_le_of_lt hi
  have hrank : i ≤ n - 1 := Nat.le_sub_one_of_lt hi
  have hword : n - 1 - i + j < Word.modulus := by omega
  simp only [antiDiagonalOf, Word.sub_of_le hlast, Word.sub_of_le hrank, bind, Except.bind,
    Word.add_of_lt hword]

theorem diagonal_eq (hn : 2 * n < Word.modulus) (h : OnBoard n (i, j)) :
    Word.add i j = .ok (i + j) :=
  Word.add_of_lt (by rcases h with ⟨hi, hj⟩; omega)

theorem diagonal_lt (h : OnBoard n (i, j)) : i + j < 2 * n - 1 := by
  rcases h with ⟨hi, hj⟩
  omega

theorem antiDiagonal_lt (h : OnBoard n (i, j)) : n - 1 - i + j < 2 * n - 1 := by
  rcases h with ⟨hi, hj⟩
  omega

namespace Table

variable {size k : Nat} {keys keys' : List Nat}

def marking (size : Nat) (keys : List Nat) : Table :=
  Array.ofFn (n := size) fun k => decide (k.val ∈ keys)

theorem free_eq_marking (size : Nat) : free size = marking size [] := by
  apply Array.ext
  · simp [free, marking]
  · intro k hk hk'
    simp [free, marking]

theorem get_marking (h : k < size) : get (marking size keys) k = .ok (decide (k ∈ keys)) := by
  simp [get, marking, h]

theorem put_marking (h : k < size) (occupied : Bool) (hkeys : ∀ d, d ≠ k → (d ∈ keys ↔ d ∈ keys'))
    (hk : decide (k ∈ keys') = occupied) :
    put (marking size keys) k occupied = .ok (marking size keys') := by
  have hsize : k < (marking size keys).size := by simpa [marking] using h
  rw [put, dif_pos hsize, Except.ok.injEq]
  apply Array.ext
  · simp [marking]
  · intro d hd hd'
    rw [Array.getElem_set]
    split
    · rename_i hdk
      subst hdk
      simp [marking, hk]
    · rename_i hdk
      simp [marking, hkeys d (Ne.symm hdk)]

theorem put_true (h : k < size) :
    put (marking size keys) k true = .ok (marking size (keys ++ [k])) :=
  put_marking h true (fun d hd => by simp [hd]) (by simp)

theorem put_false (h : k < size) (hk : k ∉ keys) :
    put (marking size (keys ++ [k])) k false = .ok (marking size keys) :=
  put_marking h false (fun d hd => by simp [hd]) (by simpa using hk)

end Table

namespace Marks

def of (n : Nat) (qs : List (Nat × Nat)) : Marks where
  ranks := Table.marking n (qs.map (·.1))
  files := Table.marking n (qs.map (·.2))
  diagonals := Table.marking (2 * n - 1) (qs.map fun q => q.1 + q.2)
  antiDiagonals := Table.marking (2 * n - 1) (qs.map fun q => n - 1 - q.1 + q.2)

theorem empty_eq_of (n : Nat) : empty n (2 * n - 1) = of n [] := by
  rw [empty, Table.free_eq_marking, Table.free_eq_marking]
  rfl

/-- A queen is marked if it is on the board and apart from those marked before. -/
theorem add?_eq (hn : 2 * n < Word.modulus) (qs : List (Nat × Nat)) (i j : Nat) :
    (of n qs).add? n i j = .ok (if OnBoard n (i, j) ∧ ∀ q ∈ qs, Apart n q (i, j)
      then some (of n (qs ++ [(i, j)])) else none) := by
  by_cases hboard : OnBoard n (i, j)
  · have hcell : i < n ∧ j < n := hboard
    simp only [add?, of, Table.get_marking hcell.1, Table.get_marking hcell.2,
      Table.get_marking (diagonal_lt hboard), Table.get_marking (antiDiagonal_lt hboard),
      diagonal_eq hn hboard, antiDiagonalOf_eq hn hboard, bind, Except.bind, pure, Except.pure]
    rw [if_neg (not_not.mpr hcell)]
    by_cases hapart : ∀ q ∈ qs, Apart n q (i, j)
    · rcases forall_apart_iff.mp hapart with ⟨hi, hj, hd, ha⟩
      have hfits : OnBoard n (i, j) ∧ ∀ q ∈ qs, Apart n q (i, j) := ⟨hboard, hapart⟩
      rw [if_pos hfits]
      simp only [hi, hj, hd, ha, decide_false, Bool.false_eq_true, if_false,
        Table.put_true hcell.1, Table.put_true hcell.2, Table.put_true (diagonal_lt hboard),
        Table.put_true (antiDiagonal_lt hboard), List.map_append, List.map_cons, List.map_nil]
    · have hfits : ¬(OnBoard n (i, j) ∧ ∀ q ∈ qs, Apart n q (i, j)) := fun h => hapart h.2
      rw [if_neg hfits]
      rw [forall_apart_iff] at hapart
      simp only [decide_eq_true_eq]
      split_ifs with hi hj hd ha
      · rfl
      · rfl
      · rfl
      · rfl
      · exact absurd ⟨hi, hj, hd, ha⟩ hapart
  · have hoff : ¬(i < n ∧ j < n) := hboard
    rw [if_neg (fun h => hboard h.1), add?]
    simp only [if_pos hoff]
    rfl

/-- A list of queens is marked to its end if they are on the board, apart from those marked before
and apart from each other. -/
theorem addAll_eq (hn : 2 * n < Word.modulus) (queens qs : List (Nat × Nat)) :
    addAll n queens (of n qs) = .ok (decide ((∀ q ∈ queens, OnBoard n q) ∧
      (∀ q ∈ qs, ∀ q' ∈ queens, Apart n q q') ∧ queens.Pairwise (Apart n))) := by
  induction queens generalizing qs with
  | nil => simp [addAll]
  | cons q rest ih =>
    rcases q with ⟨i, j⟩
    rw [addAll, add?_eq hn]
    by_cases hfits : OnBoard n (i, j) ∧ ∀ q ∈ qs, Apart n q (i, j)
    · rw [if_pos hfits]
      simp only [bind, Except.bind, ih, Except.ok.injEq, decide_eq_decide]
      simp only [List.mem_append, List.mem_cons, List.not_mem_nil, List.pairwise_cons, or_imp,
        forall_and, forall_eq, hfits]
      tauto
    · rw [if_neg hfits]
      simp only [bind, Except.bind, pure, Except.pure, Except.ok.injEq]
      symm
      rw [decide_eq_false_iff_not]
      rintro ⟨hboard, hseen, -⟩
      exact hfits ⟨hboard _ List.mem_cons_self, fun q hq => hseen q hq _ List.mem_cons_self⟩

end Marks

/-- The list holds `n` queens of an `n × n` board, no two of which share a line. -/
structure Solves (n : Nat) (queens : List (Nat × Nat)) : Prop where
  length : queens.length = n
  onBoard : ∀ q ∈ queens, OnBoard n q
  apart : queens.Pairwise (Apart n)

theorem solves_iff : Solves n queens ↔
    queens.length = n ∧ (∀ q ∈ queens, OnBoard n q) ∧ queens.Pairwise (Apart n) :=
  ⟨fun h => ⟨h.length, h.onBoard, h.apart⟩, fun h => ⟨h.1, h.2.1, h.2.2⟩⟩

instance (n : Nat) (queens : List (Nat × Nat)) : Decidable (Solves n queens) :=
  decidable_of_iff _ solves_iff.symm

/-- Exactly the lists that solve the board are valid. -/
theorem isValid_eq (hn : 2 * n < Word.modulus) (queens : List (Nat × Nat)) :
    isValid n queens = .ok (decide (Solves n queens)) := by
  rw [isValid]
  by_cases hlength : queens.length = n
  · rw [if_neg (not_not.mpr hlength)]
    simp only [diagonalCount_eq hn, bind, Except.bind, Marks.empty_eq_of, Marks.addAll_eq hn,
      Except.ok.injEq, decide_eq_decide, solves_iff, hlength]
    simp
  · rw [if_pos hlength, decide_eq_false (fun h : Solves n queens => hlength h.length)]
    rfl

end DancingLinks.Queens
