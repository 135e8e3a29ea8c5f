import DancingLinks.Proofs.Queens.Counting
import Mathlib.Algebra.BigOperators.Group.Finset.Sigma
import Mathlib.Data.Fintype.Pi

/-! # Sequences of files

Queens on the first ranks of a board are a sequence of files. Plain backtracking counts the
sequences in which no two queens attack each other: the long ones, which are its solutions, and all
of them, which are its subproblems.
-/
namespace DancingLinks.Queens

variable {n k : ℕ} {f : Fin k → Fin n} {gs : List ℕ}

/-- No two queens share a file or a diagonal of either kind. -/
def Peaceful (f : Fin k → Fin n) : Prop :=
  ∀ r s, r ≠ s → f r ≠ f s ∧ (r : ℕ) + f r ≠ s + f s ∧ (f r : ℤ) - (r : ℤ) ≠ f s - s

instance (f : Fin k → Fin n) : Decidable (Peaceful f) :=
  inferInstanceAs (Decidable (∀ r s, r ≠ s → _))

/-- The peaceful ways to put queens on the first `k` ranks of an `n × n` board. -/
def sequences (n k : ℕ) : Finset (Fin k → Fin n) := {f | Peaceful f}

def listing (f : Fin k → Fin n) : List ℕ := List.ofFn fun r => (f r : ℕ)

theorem length_listing (f : Fin k → Fin n) : (listing f).length = k := List.length_ofFn

theorem listing_injective : Function.Injective (listing : (Fin k → Fin n) → List ℕ) := by
  intro f g h
  funext r
  exact Fin.ext (congrFun (List.ofFn_injective h) r)

theorem queensOf_listing (f : Fin k → Fin n) :
    queensOf (listing f) = List.ofFn fun r => ((r : ℕ), (f r : ℕ)) := by
  apply List.ext_getElem
  · rw [length_queensOf, length_listing, List.length_ofFn]
  · intro r hr hr'
    simp [queensOf, listing]

/-- A line of either kind is told apart by the sum or by the difference of rank and file. -/
theorem apart_iff_of_lt {r r' j j' : ℕ} (hr : r < n) (hr' : r' < n) (hne : r ≠ r') :
    Apart n (r, j) (r', j') ↔ j ≠ j' ∧ r + j ≠ r' + j' ∧ (j : ℤ) - r ≠ j' - r' := by
  have hanti : n - 1 - r + j ≠ n - 1 - r' + j' ↔ (j : ℤ) - r ≠ j' - r' := by omega
  rw [apart_iff, hanti]
  exact and_iff_right hne

theorem nonAttacking_listing (hk : k ≤ n) : NonAttacking n (listing f) ↔ Peaceful f := by
  have hinRange : ∀ j ∈ listing f, j < n := by
    intro j hj
    obtain ⟨r, rfl⟩ := List.mem_ofFn.mp hj
    exact (f r).isLt
  have hlines (r s : Fin k) (hne : r ≠ s) : Apart n (r, f r) (s, f s) ↔
      (f r : ℕ) ≠ f s ∧ (r : ℕ) + f r ≠ s + f s ∧ (f r : ℤ) - (r : ℤ) ≠ f s - s :=
    apart_iff_of_lt (r.isLt.trans_le hk) (s.isLt.trans_le hk) (Fin.val_ne_iff.mpr hne)
  constructor
  · intro h r s hne
    have hall := h.apart
    rw [queensOf_listing, List.pairwise_ofFn] at hall
    rcases lt_or_gt_of_ne hne with hlt | hlt
    · obtain ⟨hfile, hsum, hdifference⟩ := (hlines r s hne).mp (hall hlt)
      exact ⟨Fin.val_ne_iff.mp hfile, hsum, hdifference⟩
    · obtain ⟨hfile, hsum, hdifference⟩ := (hlines s r hne.symm).mp (hall hlt)
      exact ⟨(Fin.val_ne_iff.mp hfile).symm, hsum.symm, hdifference.symm⟩
  · intro h
    refine ⟨hinRange, ?_⟩
    rw [queensOf_listing, List.pairwise_ofFn]
    intro r s hlt
    obtain ⟨hfile, hsum, hdifference⟩ := h r s hlt.ne
    exact (hlines r s hlt.ne).mpr ⟨Fin.val_ne_iff.mpr hfile, hsum, hdifference⟩

theorem exists_listing_eq (h : ∀ j ∈ gs, j < n) : ∃ f : Fin gs.length → Fin n, listing f = gs :=
  ⟨fun r => ⟨gs[r], h _ (List.getElem_mem r.isLt)⟩, List.ofFn_getElem⟩

theorem nodup_partials (n : ℕ) : (partials n n []).Nodup :=
  (partials_ascending (.nil n)).imp fun h => h.ne

theorem filter_partials (hk : k ≤ n) :
    (partials n n []).toFinset.filter (·.length = k) = (sequences n k).image listing := by
  ext gs
  simp only [Finset.mem_filter, List.mem_toFinset, mem_partials (NonAttacking.nil n),
    List.nil_prefix, List.length_nil, Nat.zero_add, true_and, Finset.mem_image, sequences,
    Finset.mem_univ]
  constructor
  · rintro ⟨⟨-, h⟩, rfl⟩
    obtain ⟨f, hf⟩ := exists_listing_eq h.inRange
    have hlist : NonAttacking n (listing f) := by rwa [hf]
    exact ⟨f, (nonAttacking_listing hk).mp hlist, hf⟩
  · rintro ⟨f, h, rfl⟩
    rw [length_listing]
    exact ⟨⟨hk, (nonAttacking_listing hk).mpr h⟩, rfl⟩

theorem card_sequences (hk : k ≤ n) :
    (sequences n k).card = ((partials n n []).filter (·.length = k)).length := by
  have hcard := List.toFinset_card_of_nodup ((nodup_partials n).filter (·.length = k))
  rw [← hcard, List.toFinset_filter, ← Finset.card_image_of_injective _ listing_injective,
    ← filter_partials hk]
  simp

theorem length_partials (n : ℕ) :
    (partials n n []).length = ∑ k ∈ Finset.range (n + 1), (sequences n k).card := by
  have hmaps : Set.MapsTo List.length ((partials n n []).toFinset : Set (List ℕ))
      (Finset.range (n + 1)) := by
    intro gs hgs
    have h := (mem_partials (NonAttacking.nil n)).mp (List.mem_toFinset.mp hgs)
    simpa [Nat.lt_succ_iff] using h.2.1
  rw [← List.toFinset_card_of_nodup (nodup_partials n),
    Finset.card_eq_sum_card_fiberwise hmaps]
  refine Finset.sum_congr rfl fun k hk => ?_
  rw [filter_partials (Nat.lt_succ_iff.mp (Finset.mem_range.mp hk)),
    Finset.card_image_of_injective _ listing_injective]

/-- Plain backtracking counts the peaceful sequences of full length as solutions and all of them as
subproblems, and a part of it that starts with the marks of the queens on the earlier ranks ends
with the same marks. -/
theorem count_eq_card_sequences (hn : 2 * n < Word.modulus)
    (hcount : ∑ k ∈ Finset.range (n + 1), (sequences n k).card < Word.modulus) :
    count n = .ok ⟨(sequences n n).card, ∑ k ∈ Finset.range (n + 1), (sequences n k).card⟩ ∧
      ∀ files left s p, files.length + left = n →
        s + (complete n (partials n left files)).length < Word.modulus →
        p + (partials n left files).length < Word.modulus →
        ∃ o, Occupancy.place n left (.of n (queensOf files) s p) = .ok o ∧
          o.files = (Occupancy.of n (queensOf files) s p).files ∧
          o.diagonals = (Occupancy.of n (queensOf files) s p).diagonals ∧
          o.antiDiagonals = (Occupancy.of n (queensOf files) s p).antiDiagonals := by
  constructor
  · rw [card_sequences le_rfl, ← length_partials]
    rw [← length_partials] at hcount
    exact count_eq hn hcount
  · intro files left s p hlength hs hp
    exact ⟨_, Occupancy.place_eq hn hlength hs hp, rfl, rfl, rfl⟩

/-- The board of four has two placements, one of which begins on the second file. -/
theorem count_eq_card_sequences_four :
    count 4 = .ok ⟨2, 17⟩ ∧ (sequences 4 4).card = 2 ∧
      ∃ o, Occupancy.place 4 3 (.of 4 (queensOf [1]) 0 1) = .ok o ∧
        o.files = #[false, true, false, false] := by
  have hlength : ∑ k ∈ Finset.range 5, (sequences 4 k).card = 17 := (length_partials 4).symm
  have hcard : (sequences 4 4).card = 2 := card_sequences le_rfl
  obtain ⟨hcount, hplace⟩ :=
    count_eq_card_sequences (n := 4) (by decide) (by rw [hlength]; decide)
  rw [hlength, hcard] at hcount
  obtain ⟨o, ho, hfiles, -⟩ := hplace [1] 3 0 1 rfl (by decide) (by decide)
  exact ⟨hcount, hcard, o, ho, hfiles⟩

end DancingLinks.Queens
