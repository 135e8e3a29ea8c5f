import DancingLinks.Proofs.Queens.RankByRank

/-! # What plain backtracking counts

Backtracking keeps the lines of the queens placed marked, finds the safe files of a rank by looking
at the marks, and leaves them as they were. It counts a subproblem for every list of files that it
goes through and a solution for every one that reaches the last rank.
-/
namespace DancingLinks.Queens

variable {n i j k left s p : Nat} {qs : List (Nat × Nat)} {files js : List Nat}

namespace Occupancy

def of (n : Nat) (qs : List (Nat × Nat)) (solutions subproblems : Nat) : Occupancy where
  files := Table.marking n (qs.map (·.2))
  diagonals := Table.marking (2 * n - 1) (qs.map fun q => q.1 + q.2)
  antiDiagonals := Table.marking (2 * n - 1) (qs.map fun q => n - 1 - q.1 + q.2)
  solutions := solutions
  subproblems := subproblems

def clear (n : Nat) : Occupancy where
  files := Table.free n
  diagonals := Table.free (2 * n - 1)
  antiDiagonals := Table.free (2 * n - 1)
  solutions := 0
  subproblems := 0

theorem clear_eq_of (n : Nat) : clear n = of n [] 0 0 := by
  rw [clear, Table.free_eq_marking, Table.free_eq_marking]
  rfl

theorem isSafe_of (hn : 2 * n < Word.modulus) (h : OnBoard n (i, j)) (hrank : ∀ q ∈ qs, q.1 ≠ i) :
    (of n qs s p).isSafe n i j = .ok (decide (∀ q ∈ qs, Apart n q (i, j))) := by
  have hcell : i < n ∧ j < n := h
  have hfree : i ∉ qs.map (·.1) := by
    intro hi
    rcases List.mem_map.mp hi with ⟨q, hq, hqi⟩
    exact hrank q hq hqi
  simp only [isSafe, of, Table.get_marking hcell.2, Table.get_marking (diagonal_lt h),
    Table.get_marking (antiDiagonal_lt h), diagonal_eq hn h, antiDiagonalOf_eq hn h,
    forall_apart_iff, hfree, not_false_eq_true, true_and, bind, Except.bind, pure, Except.pure]
  by_cases hj : j ∈ qs.map (·.2)
  · simp only [hj, decide_true, if_true, not_true_eq_false, false_and, decide_false]
  by_cases hd : i + j ∈ qs.map fun q => q.1 + q.2
  · simp only [hd, decide_true, if_true, ite_self, not_true_eq_false, false_and, and_false,
      decide_false]
  · simp only [hj, hd, decide_false, Bool.false_eq_true, if_false, not_false_eq_true, true_and,
      decide_not]

theorem set_true (hn : 2 * n < Word.modulus) (h : OnBoard n (i, j)) :
    (of n qs s p).set n i j true = .ok (of n (qs ++ [(i, j)]) s p) := by
  have hcell : i < n ∧ j < n := h
  simp only [set, of, Table.put_true hcell.2, Table.put_true (diagonal_lt h),
    Table.put_true (antiDiagonal_lt h), diagonal_eq hn h, antiDiagonalOf_eq hn h, List.map_append,
    List.map_cons, List.map_nil, bind, Except.bind]
  rfl

def setAll (o : Occupancy) (n : Nat) (queens : List (Nat × Nat)) : Except Fault Occupancy :=
  queens.foldlM (fun o q => o.set n q.1 q.2 true) o

theorem setAll_of {queens : List (Nat × Nat)} (hn : 2 * n < Word.modulus)
    (h : ∀ q ∈ queens, OnBoard n q) :
    (of n qs s p).setAll n queens = .ok (of n (qs ++ queens) s p) := by
  induction queens generalizing qs with
  | nil =>
    rw [List.append_nil]
    rfl
  | cons q queens ih =>
    simp only [List.mem_cons, forall_eq_or_imp] at h
    rw [List.append_cons, ← ih h.2, setAll, List.foldlM_cons, set_true hn h.1]
    rfl

theorem set_false (hn : 2 * n < Word.modulus) (h : OnBoard n (i, j))
    (hapart : ∀ q ∈ qs, Apart n q (i, j)) :
    (of n (qs ++ [(i, j)]) s p).set n i j false = .ok (of n qs s p) := by
  have hcell : i < n ∧ j < n := h
  rcases forall_apart_iff.mp hapart with ⟨-, hj, hd, ha⟩
  simp only [set, of, List.map_append, List.map_cons, List.map_nil, Table.put_false hcell.2 hj,
    Table.put_false (diagonal_lt h) hd, Table.put_false (antiDiagonal_lt h) ha, diagonal_eq hn h,
    antiDiagonalOf_eq hn h, bind, Except.bind]
  rfl

/-- The occupancy after going through some lists of files: each was a subproblem, and those that
reach the last rank were solutions. -/
def tallied (n : Nat) (qs : List (Nat × Nat)) (s p : Nat) (gone : List (List Nat)) : Occupancy :=
  of n qs (s + (complete n gone).length) (p + gone.length)

theorem tallied_append (gone more : List (List Nat)) : tallied n qs s p (gone ++ more) =
    tallied n qs (s + (complete n gone).length) (p + gone.length) more := by
  simp only [tallied, complete_append, List.length_append, Nat.add_assoc]

/-- Trying the files of a rank, if going on from each safe one tallies what it goes through. -/
theorem foldlM_tryCell {next : Occupancy → Except Fault Occupancy} {gone : Nat → List (List Nat)}
    (hn : 2 * n < Word.modulus) (hrank : files.length < n) (hjs : ∀ j ∈ js, j < n)
    (hnext : ∀ j s p, s + (complete n (gone j)).length < Word.modulus →
      p + (gone j).length < Word.modulus → next (of n (queensOf (files ++ [j])) s p) =
        .ok (tallied n (queensOf (files ++ [j])) s p (gone j)))
    (hs : s + (complete n ((js.filter (· ∈ safeFiles n files)).flatMap gone)).length <
      Word.modulus)
    (hp : p + ((js.filter (· ∈ safeFiles n files)).flatMap gone).length < Word.modulus) :
    js.foldlM (tryCell next n files.length) (of n (queensOf files) s p) =
      .ok (tallied n (queensOf files) s p
        ((js.filter (· ∈ safeFiles n files)).flatMap gone)) := by
  induction js generalizing s p with
  | nil => rfl
  | cons j js ih =>
    simp only [List.mem_cons, forall_eq_or_imp] at hjs
    have hcell : OnBoard n (files.length, j) := ⟨hrank, hjs.1⟩
    have hfree : ∀ q ∈ queensOf files, q.1 ≠ files.length := fun q hq => (rank_lt_of_mem hq).ne
    have hsafe : (of n (queensOf files) s p).isSafe n files.length j =
        .ok (decide (j ∈ safeFiles n files)) := by
      rw [isSafe_of hn hcell hfree, Except.ok.injEq, decide_eq_decide, mem_safeFiles]
      exact (and_iff_right hjs.1).symm
    rw [List.foldlM_cons]
    by_cases hj : j ∈ safeFiles n files
    · rw [List.filter_cons_of_pos (by simpa using hj), List.flatMap_cons] at hs hp ⊢
      rw [complete_append, List.length_append] at hs
      rw [List.length_append] at hp
      have hgo := hnext j s p (by omega) (by omega)
      have htry : tryCell next n files.length (of n (queensOf files) s p) j =
          .ok (tallied n (queensOf files) s p (gone j)) := by
        simp only [tryCell, hsafe, hj, decide_true, if_true, set_true hn hcell, bind, Except.bind]
        rw [← queensOf_concat, hgo]
        simp only [tallied, queensOf_concat]
        exact set_false hn hcell (mem_safeFiles.mp hj).2
      rw [htry, tallied_append]
      exact ih hjs.2 (by omega) (by omega)
    · rw [List.filter_cons_of_neg (by simpa using hj)] at hs hp ⊢
      have htry : tryCell next n files.length (of n (queensOf files) s p) j =
          .ok (of n (queensOf files) s p) := by
        simp only [tryCell, hsafe, hj, decide_false, Bool.false_eq_true, if_false, bind,
          Except.bind]
        rfl
      rw [htry]
      exact ih hjs.2 hs hp

theorem countPosition_of (h : p + 1 < Word.modulus) :
    (of n qs s p).countPosition = .ok (of n qs s (p + 1)) := by
  simp only [countPosition, of, Word.add_of_lt h, bind, Except.bind]
  rfl

theorem countSolution_of (h : s + 1 < Word.modulus) :
    (of n qs s p).countSolution = .ok (of n qs (s + 1) p) := by
  simp only [countSolution, of, Word.add_of_lt h, bind, Except.bind]
  rfl

/-- Placing queens on the last ranks tallies what it goes through and leaves the marks. -/
theorem place_eq (hn : 2 * n < Word.modulus) (hlength : files.length + left = n)
    (hs : s + (complete n (partials n left files)).length < Word.modulus)
    (hp : p + (partials n left files).length < Word.modulus) :
    place n left (of n (queensOf files) s p) =
      .ok (tallied n (queensOf files) s p (partials n left files)) := by
  induction left generalizing files s p with
  | zero =>
    have hcomplete := complete_partials_zero hlength
    rw [hcomplete] at hs
    rw [place, countPosition_of hp, tallied, hcomplete]
    exact countSolution_of hs
  | succ left ih =>
    have hrank : files.length < n := by omega
    have hsafe : (List.range n).filter (· ∈ safeFiles n files) = safeFiles n files := by
      rw [safeFiles, List.filter_congr]
      intro j hj
      simp [List.mem_range.mp hj]
    rw [complete_partials_succ hrank] at hs
    rw [partials, List.length_cons] at hp
    have hgoes := foldlM_tryCell (s := s) (p := p + 1) hn hrank
      (fun j (hj : j ∈ List.range n) => List.mem_range.mp hj)
      (fun j s p hs hp => ih (by rw [List.length_append, List.length_singleton]; omega) hs hp)
      (by rwa [hsafe]) (by rw [hsafe]; omega)
    have hnext : files.length = n - (left + 1) := by omega
    rw [hsafe, hnext] at hgoes
    rw [place, countPosition_of (by omega)]
    refine hgoes.trans ?_
    rw [tallied, tallied, complete_partials_succ hrank, partials, List.length_cons, Nat.add_assoc,
      Nat.add_comm 1]

end Occupancy

/-- Plain backtracking counts the placements and the ways of beginning one. -/
theorem count_eq (hn : 2 * n < Word.modulus) (h : (partials n n []).length < Word.modulus) :
    count n = .ok ⟨(complete n (partials n n [])).length, (partials n n []).length⟩ := by
  have hcomplete : (complete n (partials n n [])).length < Word.modulus :=
    (List.length_filter_le _ _).trans_lt h
  have hplace := Occupancy.place_eq (s := 0) (p := 0) hn (Nat.zero_add n)
    (by rwa [Nat.zero_add]) (by rwa [Nat.zero_add])
  have hempty : Occupancy.of n (queensOf []) 0 0 = Occupancy.clear n :=
    (Occupancy.clear_eq_of n).symm
  rw [hempty, Occupancy.clear] at hplace
  simp only [count, diagonalCount_eq hn, hplace, bind, Except.bind, Occupancy.tallied,
    Occupancy.of, Nat.zero_add]
  rfl

end DancingLinks.Queens
