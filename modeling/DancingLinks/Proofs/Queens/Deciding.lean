import DancingLinks.Proofs.Queens.Attacks
import Mathlib.Algebra.GroupWithZero.Nat

/-! # Deciding whether queens solve the board

A list of queens is accepted exactly if it has as many queens as the board has ranks, all on the
board, and no two queens at different places of the list share a line, the anti-diagonals told by
the difference of file and rank. It makes no difference to the answer in which order the queens are
listed, nor that a queen which is turned down has marked some of its lines already.
-/
namespace DancingLinks.Queens

variable {n i j : Nat} {q q' : Nat × Nat} {qs queens queens' : List (Nat × Nat)}

/-- Two queens differ in rank, in file, and in the sum and the difference of the two. -/
structure Separate (q q' : Nat × Nat) : Prop where
  rank : q.1 ≠ q'.1
  file : q.2 ≠ q'.2
  sum : q.1 + q.2 ≠ q'.1 + q'.2
  difference : (q.2 : ℤ) - q.1 ≠ q'.2 - q'.1

theorem Apart.symm (h : Apart n q q') : Apart n q' q :=
  ⟨h.rank.symm, h.file.symm, h.diagonal.symm, h.antiDiagonal.symm⟩

theorem Separate.symm (h : Separate q q') : Separate q' q :=
  ⟨h.rank.symm, h.file.symm, h.sum.symm, h.difference.symm⟩

theorem antiDiagonal_eq_iff (h : OnBoard n q) (h' : OnBoard n q') :
    n - 1 - q.1 + q.2 = n - 1 - q'.1 + q'.2 ↔ (q.2 : ℤ) - q.1 = q'.2 - q'.1 := by
  obtain ⟨hi, -⟩ := h
  obtain ⟨hi', -⟩ := h'
  omega

theorem apart_iff_separate (h : OnBoard n q) (h' : OnBoard n q') :
    Apart n q q' ↔ Separate q q' := by
  have hanti := not_congr (antiDiagonal_eq_iff h h')
  constructor
  · intro ha
    exact ⟨ha.rank, ha.file, ha.diagonal, hanti.mp ha.antiDiagonal⟩
  · intro hs
    exact ⟨hs.rank, hs.file, hs.sum, hanti.mpr hs.difference⟩

theorem pairwise_iff_of_symm {α : Type} {R : α → α → Prop} (hR : ∀ a b, R a b → R b a)
    {xs : List α} : xs.Pairwise R ↔
      ∀ a b (ha : a < xs.length) (hb : b < xs.length), a ≠ b → R xs[a] xs[b] := by
  rw [List.pairwise_iff_getElem]
  constructor
  · intro h a b ha hb hab
    rcases Nat.lt_or_gt_of_ne hab with hlt | hlt
    · exact h a b ha hb hlt
    · exact hR _ _ (h b a hb ha hlt)
  · intro h a b ha hb hlt
    exact h a b ha hb (Nat.ne_of_lt hlt)

theorem solves_iff_separate : Solves n queens ↔ queens.length = n ∧ (∀ q ∈ queens, OnBoard n q) ∧
    ∀ a b (ha : a < queens.length) (hb : b < queens.length), a ≠ b →
      Separate queens[a] queens[b] := by
  have hsymm : ∀ q q', Separate q q' → Separate q' q := fun _ _ => Separate.symm
  rw [solves_iff, ← pairwise_iff_of_symm hsymm]
  refine and_congr_right fun _ => and_congr_right fun hboard => ?_
  exact List.Pairwise.iff_of_mem fun hq hq' => apart_iff_separate (hboard _ hq) (hboard _ hq')

theorem Solves.perm (h : Solves n queens) (hp : queens.Perm queens') : Solves n queens' where
  length := hp.length_eq ▸ h.length
  onBoard q hq := h.onBoard q (hp.mem_iff.mpr hq)
  apart := (hp.pairwise_iff fun ha => ha.symm).mp h.apart

def Table.replace (t : Table) (i : Nat) : Except Fault (Bool × Table) := do
  let marked ← Table.get t i
  let t ← Table.put t i true
  return (marked, t)

namespace Marks

def mark (m : Marks) (n rank file : Nat) : Except Fault (Bool × Marks) := do
  if ¬(rank < n ∧ file < n) then return (false, m)
  let (marked, ranks) ← m.ranks.replace rank
  let m := { m with ranks := ranks }
  if marked then return (false, m)
  let (marked, files) ← m.files.replace file
  let m := { m with files := files }
  if marked then return (false, m)
  let d ← Word.add rank file
  let (marked, diagonals) ← m.diagonals.replace d
  let m := { m with diagonals := diagonals }
  if marked then return (false, m)
  let a ← antiDiagonalOf n rank file
  let (marked, antiDiagonals) ← m.antiDiagonals.replace a
  return (!marked, { m with antiDiagonals := antiDiagonals })

def markAll (n : Nat) : List (Nat × Nat) → Marks → Except Fault Bool
  | [], _ => .ok true
  | (rank, file) :: rest, m => do
    match ← m.mark n rank file with
    | (true, m) => markAll n rest m
    | (false, _) => return false

theorem replace_marking {size k : Nat} {keys : List Nat} (h : k < size) :
    (Table.marking size keys).replace k =
      .ok (decide (k ∈ keys), Table.marking size (keys ++ [k])) := by
  simp only [Table.replace, Table.get_marking h, Table.put_true h, bind, Except.bind]
  rfl

/-- Line by line, a queen is marked if it is on the board and apart from those marked before; else
some of its lines may be marked, and the pass ends. -/
theorem exists_mark (hn : 2 * n < Word.modulus) (qs : List (Nat × Nat)) (i j : Nat) :
    ∃ m, (of n qs).mark n i j =
        .ok (decide (OnBoard n (i, j) ∧ ∀ q ∈ qs, Apart n q (i, j)), m) ∧
      (OnBoard n (i, j) → (∀ q ∈ qs, Apart n q (i, j)) → m = of n (qs ++ [(i, j)])) := by
  by_cases hboard : OnBoard n (i, j)
  · have hcell : i < n ∧ j < n := hboard
    simp only [mark, of, replace_marking hcell.1, replace_marking hcell.2,
      replace_marking (diagonal_lt hboard), replace_marking (antiDiagonal_lt hboard),
      diagonal_eq hn hboard, antiDiagonalOf_eq hn hboard, bind, Except.bind, pure, Except.pure]
    rw [if_neg (not_not.mpr hcell)]
    simp only [hboard, true_and, forall_apart_iff, decide_eq_true_eq, forall_const]
    by_cases hi : i ∈ qs.map (·.1)
    · rw [if_pos hi, decide_eq_false fun h => h.1 hi]
      exact ⟨_, rfl, fun h => absurd hi h.1⟩
    by_cases hj : j ∈ qs.map (·.2)
    · rw [if_neg hi, if_pos hj, decide_eq_false fun h => h.2.1 hj]
      exact ⟨_, rfl, fun h => absurd hj h.2.1⟩
    by_cases hd : i + j ∈ qs.map fun q => q.1 + q.2
    · rw [if_neg hi, if_neg hj, if_pos hd, decide_eq_false fun h => h.2.2.1 hd]
      exact ⟨_, rfl, fun h => absurd hd h.2.2.1⟩
    · refine ⟨of n (qs ++ [(i, j)]), ?_, fun _ => rfl⟩
      rw [if_neg hi, if_neg hj, if_neg hd]
      simp only [hi, hj, hd, not_false_eq_true, true_and, decide_not, of, List.map_append,
        List.map_cons, List.map_nil]
  · have hoff : ¬(i < n ∧ j < n) := hboard
    refine ⟨of n qs, ?_, fun h => absurd h hboard⟩
    rw [mark, if_pos hoff, decide_eq_false fun h => hboard h.1]
    rfl

/-- The marks that a queen leaves behind when it is turned down do not change the answer. -/
theorem markAll_eq (hn : 2 * n < Word.modulus) (queens qs : List (Nat × Nat)) :
    markAll n queens (of n qs) = addAll n queens (of n qs) := by
  induction queens generalizing qs with
  | nil => rfl
  | cons q rest ih =>
    rcases q with ⟨i, j⟩
    obtain ⟨m, hmark, hmarked⟩ := exists_mark hn qs i j
    rw [markAll, addAll, add?_eq hn, hmark]
    by_cases hfits : OnBoard n (i, j) ∧ ∀ q ∈ qs, Apart n q (i, j)
    · obtain rfl := hmarked hfits.1 hfits.2
      rw [if_pos hfits, decide_eq_true hfits]
      exact ih _
    · rw [if_neg hfits, decide_eq_false hfits]
      rfl

end Marks

/-- Whether the list holds `n` queens of an `n × n` board of which no two share a line, found with
tables that are marked while they are looked at. -/
def isValidInPlace (n : Nat) (queens : List (Nat × Nat)) : Except Fault Bool := do
  if queens.length ≠ n then return false
  let diagonals ← diagonalCount n
  Marks.markAll n queens (Marks.empty n diagonals)

theorem isValidInPlace_eq (hn : 2 * n < Word.modulus) (queens : List (Nat × Nat)) :
    isValidInPlace n queens = isValid n queens := by
  rw [isValidInPlace, isValid]
  simp only [diagonalCount_eq hn, bind, Except.bind, Marks.empty_eq_of, Marks.markAll_eq hn]

/-- Whatever cells are listed, there is an answer, the same for tables that are marked while they
are looked at: the list is valid if and only if it has `n` queens, all on the board, and any two at
different places differ in rank, in file, in the sum and in the difference of the two. The queens
may be listed in any order. -/
theorem isValid_decides (hn : n < 2 ^ 63) (queens : List (Nat × Nat)) :
    ∃ answer, isValid n queens = .ok answer ∧ isValidInPlace n queens = .ok answer ∧
      (answer = true ↔ queens.length = n ∧ (∀ q ∈ queens, q.1 < n ∧ q.2 < n) ∧
        ∀ a b (ha : a < queens.length) (hb : b < queens.length), a ≠ b →
          Separate queens[a] queens[b]) ∧
      ∀ queens', queens.Perm queens' → isValid n queens' = .ok answer := by
  have hword : 2 * n < Word.modulus := by
    rw [Word.modulus_eq]
    omega
  refine ⟨decide (Solves n queens), isValid_eq hword queens, ?_, ?_, fun queens' hp => ?_⟩
  · rw [isValidInPlace_eq hword, isValid_eq hword]
  · rw [decide_eq_true_eq, solves_iff_separate]
    rfl
  · rw [isValid_eq hword, Except.ok.injEq, decide_eq_decide]
    exact ⟨fun h => h.perm hp.symm, fun h => h.perm hp⟩

/-- Four queens on a board of four ranks, and the same ones in another order. -/
theorem isValid_decides_four : isValid 4 [(0, 1), (1, 3), (2, 0), (3, 2)] = .ok true ∧
    isValid 4 [(3, 2), (2, 0), (1, 3), (0, 1)] = .ok true ∧
    Separate (0, 1) (3, 2) := by
  have hfour : (4 : Nat) < 2 ^ 63 := by decide
  obtain ⟨answer, hvalid, -, hiff, hperm⟩ :=
    isValid_decides hfour [(0, 1), (1, 3), (2, 0), (3, 2)]
  have hrun : isValid 4 [(0, 1), (1, 3), (2, 0), (3, 2)] = .ok true := by decide
  obtain rfl : answer = true := Except.ok.inj (hvalid.symm.trans hrun)
  exact ⟨hrun, hperm _ (by decide), (hiff.mp rfl).2.2 0 3 (by decide) (by decide) (by decide)⟩

end DancingLinks.Queens
