import DancingLinks.Proofs.Surveying
import DancingLinks.Proofs.Queens.Cells
import Mathlib.Data.Finset.Card
import Mathlib.Data.List.Sort

/-! # Covers and placements

The exact covers of the matrix of a board are the placements of its queens, and a cover is decoded
to its placement in the order of the ranks.
-/
namespace DancingLinks.Queens

open CoverMatrix Search

variable {n k : Nat} {q : Nat × Nat} {P : Finset (Nat × Nat)} {R : Finset Nat} {rows : List Nat}

/-- `n` cells of the board, no two of which share a line. -/
structure IsPlacement (n : Nat) (P : Finset (Nat × Nat)) : Prop where
  card : P.card = n
  onBoard : ∀ q ∈ P, OnBoard n q
  apart : ∀ q ∈ P, ∀ q' ∈ P, q ≠ q' → Apart n q q'

/-- `n` cells with different indices below `n` have every such index. -/
theorem IsPlacement.exists_index (h : IsPlacement n P) {index : Nat × Nat → Nat}
    (hlt : ∀ q ∈ P, index q < n) (hinj : ∀ q ∈ P, ∀ q' ∈ P, index q = index q' → q = q')
    (hk : k < n) : ∃ q ∈ P, index q = k := by
  have hcard : (P.image index).card = n := by
    rw [Finset.card_image_of_injOn hinj, h.card]
  have hsub : P.image index ⊆ Finset.range n := by
    intro d hd
    rcases Finset.mem_image.mp hd with ⟨q, hq, rfl⟩
    exact Finset.mem_range.mpr (hlt q hq)
  have himage : P.image index = Finset.range n :=
    Finset.eq_of_subset_of_card_le hsub (by rw [Finset.card_range, hcard])
  rw [← Finset.mem_image, himage]
  exact Finset.mem_range.mpr hk

theorem IsPlacement.rank_inj (h : IsPlacement n P) :
    ∀ q ∈ P, ∀ q' ∈ P, q.1 = q'.1 → q = q' := by
  intro q hq q' hq' he
  by_contra hne
  exact (h.apart q hq q' hq' hne).rank he

theorem IsPlacement.file_inj (h : IsPlacement n P) :
    ∀ q ∈ P, ∀ q' ∈ P, q.2 = q'.2 → q = q' := by
  intro q hq q' hq' he
  by_contra hne
  exact (h.apart q hq q' hq' hne).file he

theorem row_lt_of_isCover (h : (boardTable n).IsCover [] R) : ∀ r ∈ R, r < n * n := by
  intro r hr
  rw [← rowCount_boardTable n]
  exact h.rows r hr

theorem isPlacement_of_isCover (h : (boardTable n).IsCover [] R) :
    IsPlacement n (R.image (cellAt n)) := by
  have hlt := row_lt_of_isCover h
  have hcells : ∀ r ∈ R, OnBoard n (cellAt n r) := fun r hr => onBoard_cellAt (hlt r hr)
  have hapart : ∀ r ∈ R, ∀ r' ∈ R, r ≠ r' → Apart n (cellAt n r) (cellAt n r') := by
    intro r hr r' hr' hne
    rw [← lines_disjoint_iff (hcells r hr) (hcells r' hr'), ← row_boardTable (hlt r hr),
      ← row_boardTable (hlt r' hr')]
    exact h.disjoint r hr r' hr' hne
  have hranks : R.image (fun r => (cellAt n r).1) = Finset.range n := by
    ext k
    rw [Finset.mem_image, Finset.mem_range]
    constructor
    · rintro ⟨r, hr, rfl⟩
      exact (hcells r hr).1
    · intro hk
      rcases h.once k (isPrimary_boardTable.mpr (by omega)) List.not_mem_nil with
        ⟨r, ⟨hr, hkr⟩, -⟩
      rw [row_boardTable (hlt r hr), rank_mem_lines (hcells r hr) hk] at hkr
      exact ⟨r, hr, hkr.symm⟩
  have hinj : ∀ r ∈ R, ∀ r' ∈ R, (cellAt n r).1 = (cellAt n r').1 → r = r' := by
    intro r hr r' hr' he
    by_contra hne
    exact (hapart r hr r' hr' hne).rank he
  constructor
  · rw [Finset.card_image_of_injective R (cellAt_injective n), ← Finset.card_image_of_injOn hinj,
      hranks, Finset.card_range]
  · intro q hq
    rcases Finset.mem_image.mp hq with ⟨r, hr, rfl⟩
    exact hcells r hr
  · intro q hq q' hq' hne
    rcases Finset.mem_image.mp hq with ⟨r, hr, rfl⟩
    rcases Finset.mem_image.mp hq' with ⟨r', hr', rfl⟩
    exact hapart r hr r' hr' fun he => hne (congrArg (cellAt n) he)

theorem IsPlacement.existsUnique_row (h : IsPlacement n (R.image (cellAt n)))
    {index : Nat × Nat → Nat} (hlt : ∀ q ∈ R.image (cellAt n), index q < n)
    (hinj : ∀ q ∈ R.image (cellAt n), ∀ q' ∈ R.image (cellAt n), index q = index q' → q = q')
    (hk : k < n) : ∃! r, r ∈ R ∧ k = index (cellAt n r) := by
  rcases h.exists_index hlt hinj hk with ⟨q, hq, hindex⟩
  rcases Finset.mem_image.mp hq with ⟨r, hr, rfl⟩
  apply ExistsUnique.intro r ⟨hr, hindex.symm⟩
  rintro r' ⟨hr', hk'⟩
  apply cellAt_injective n
  exact hinj _ (Finset.mem_image_of_mem _ hr') _ hq (hk'.symm.trans hindex.symm)

theorem IsPlacement.isCover (h : IsPlacement n (R.image (cellAt n))) (hlt : ∀ r ∈ R, r < n * n) :
    (boardTable n).IsCover [] R := by
  have hmem : ∀ r ∈ R, cellAt n r ∈ R.image (cellAt n) := fun r hr =>
    Finset.mem_image_of_mem _ hr
  have hcells : ∀ r ∈ R, OnBoard n (cellAt n r) := fun r hr => h.onBoard _ (hmem r hr)
  constructor
  · intro r hr
    rw [rowCount_boardTable]
    exact hlt r hr
  · intro r hr
    refine ⟨(cellAt n r).1, ?_, isPrimary_boardTable.mpr ?_⟩
    · rw [row_boardTable (hlt r hr), mem_lines]
      exact Or.inl rfl
    · have hrank := (hcells r hr).1
      omega
  · intro r _ c _
    exact List.not_mem_nil
  · intro r hr r' hr' hne
    rw [row_boardTable (hlt r hr), row_boardTable (hlt r' hr'),
      lines_disjoint_iff (hcells r hr) (hcells r' hr')]
    exact h.apart _ (hmem r hr) _ (hmem r' hr') fun he => hne (cellAt_injective n he)
  · intro c hc _
    rw [isPrimary_boardTable] at hc
    rcases Nat.lt_or_ge c n with hcn | hcn
    · have hone := h.existsUnique_row (fun q hq => (h.onBoard q hq).1) h.rank_inj hcn
      refine (existsUnique_congr fun r => and_congr_right fun hr => ?_).mpr hone
      rw [row_boardTable (hlt r hr), rank_mem_lines (hcells r hr) hcn]
    · obtain ⟨k, rfl⟩ := Nat.exists_eq_add_of_le hcn
      have hk : k < n := by omega
      have hone := h.existsUnique_row (fun q hq => (h.onBoard q hq).2) h.file_inj hk
      refine (existsUnique_congr fun r => and_congr_right fun hr => ?_).mpr hone
      rw [row_boardTable (hlt r hr), file_mem_lines (hcells r hr) hk]

/-- Every placement is the cells of a cover. -/
theorem IsPlacement.exists_cover (h : IsPlacement n P) :
    ∃ R, (boardTable n).IsCover [] R ∧ R.image (cellAt n) = P := by
  have himage : (P.image (rowOf n)).image (cellAt n) = P := by
    rw [Finset.image_image]
    refine (Finset.image_congr fun q hq => ?_).trans Finset.image_id
    exact cellAt_rowOf (h.onBoard q hq).2
  have hlt : ∀ r ∈ P.image (rowOf n), r < n * n := by
    intro r hr
    rcases Finset.mem_image.mp hr with ⟨q, hq, rfl⟩
    exact rowOf_lt (h.onBoard q hq)
  refine ⟨P.image (rowOf n), IsPlacement.isCover ?_ hlt, himage⟩
  rwa [himage]

theorem cellLe_trans (a b c : Nat × Nat) (h : cellLe a b = true) (h' : cellLe b c = true) :
    cellLe a c = true := by
  simp only [cellLe, Bool.or_eq_true, Bool.and_eq_true, decide_eq_true_eq, beq_iff_eq] at h h' ⊢
  omega

theorem cellLe_total (a b : Nat × Nat) : (cellLe a b || cellLe b a) = true := by
  simp only [cellLe, Bool.or_eq_true, Bool.and_eq_true, decide_eq_true_eq, beq_iff_eq]
  omega

def cellsOf (n : Nat) (rows : List Nat) : List (Nat × Nat) :=
  (rows.map (cellAt n)).mergeSort cellLe

theorem decode_eq (h : ∀ r ∈ rows, r < n * n) : decode n rows = .ok (cellsOf n rows) := by
  rw [decode, mapM_eq_map fun r hr => cellOf_eq (h r hr)]
  rfl

theorem mapM_decode {sols : List (Solution Constraint)}
    (h : ∀ rows ∈ sols.map (·.rows), ∀ r ∈ rows, r < n * n) :
    sols.mapM (fun s => decode n s.rows) = .ok ((sols.map (·.rows)).map (cellsOf n)) := by
  rw [List.map_map]
  exact mapM_eq_map fun s hs => decode_eq (h s.rows (List.mem_map_of_mem hs))

theorem toFinset_cellsOf (n : Nat) (rows : List Nat) :
    (cellsOf n rows).toFinset = rows.toFinset.image (cellAt n) := by
  rw [cellsOf, List.toFinset_eq_of_perm _ _ (List.mergeSort_perm _ _)]
  ext q
  simp

theorem sorted_cellsOf (n : Nat) (rows : List Nat) :
    (cellsOf n rows).Pairwise fun a b => cellLe a b = true :=
  List.pairwise_mergeSort cellLe_trans cellLe_total _

theorem solves_of_isCover (h : (boardTable n).IsCover [] rows.toFinset) (hn : rows.Nodup) :
    Solves n (cellsOf n rows) := by
  have hperm : (cellsOf n rows).Perm (rows.map (cellAt n)) := List.mergeSort_perm _ _
  have hnodup : (cellsOf n rows).Nodup :=
    hperm.nodup_iff.mpr (hn.map (cellAt_injective n))
  have hplacement := isPlacement_of_isCover h
  rw [← toFinset_cellsOf] at hplacement
  constructor
  · exact (List.toFinset_card_of_nodup hnodup).symm.trans hplacement.card
  · intro q hq
    exact hplacement.onBoard q (List.mem_toFinset.mpr hq)
  · apply List.Nodup.pairwise_of_forall_ne hnodup
    intro q hq q' hq' hne
    exact hplacement.apart q (List.mem_toFinset.mpr hq) q' (List.mem_toFinset.mpr hq') hne

/-- Sorted queens that solve the board stand on the ranks in their order. -/
theorem Solves.ranks {queens : List (Nat × Nat)} (h : Solves n queens)
    (hsorted : queens.Pairwise fun a b => cellLe a b = true) :
    queens.map Prod.fst = List.range n := by
  have hlt : (queens.map Prod.fst).Pairwise (· < ·) := by
    rw [List.pairwise_map]
    apply (hsorted.and h.apart).imp
    rintro a b ⟨hle, hapart⟩
    have hne := hapart.rank
    simp only [cellLe, Bool.or_eq_true, Bool.and_eq_true, decide_eq_true_eq, beq_iff_eq] at hle
    omega
  have hsub : queens.map Prod.fst ⊆ List.range n := by
    intro k hk
    rcases List.mem_map.mp hk with ⟨q, hq, rfl⟩
    exact List.mem_range.mpr (h.onBoard q hq).1
  have hsublist := List.sublist_of_subperm_of_pairwise (List.subperm_of_subset hlt.nodup hsub) hlt
    List.pairwise_lt_range
  apply hsublist.eq_of_length
  rw [List.length_map, h.length, List.length_range]

variable {lists : List (List Nat)}

theorem row_lt_of_enumerates (h : Enumerates lists ((boardTable n).IsCover [])) :
    ∀ rows ∈ lists, ∀ r ∈ rows, r < n * n := fun _ hrows r hr =>
  row_lt_of_isCover ((h.mem_iff _).mp (List.mem_map_of_mem hrows)) r (List.mem_toFinset.mpr hr)

/-- Lists of rows that enumerate the covers are decoded to lists of cells that enumerate the
placements. -/
theorem decoded_of_enumerates (h : Enumerates lists ((boardTable n).IsCover [])) :
    ((lists.map (cellsOf n)).map List.toFinset).Nodup ∧
      ∀ P, P ∈ (lists.map (cellsOf n)).map List.toFinset ↔ IsPlacement n P := by
  have hsets : (lists.map (cellsOf n)).map List.toFinset =
      (lists.map List.toFinset).map (Finset.image (cellAt n)) := by
    rw [List.map_map, List.map_map]
    exact List.map_congr_left fun rows _ => toFinset_cellsOf n rows
  rw [hsets]
  constructor
  · exact h.once.map (Finset.image_injective (cellAt_injective n))
  · intro P
    rw [List.mem_map]
    constructor
    · rintro ⟨R, hR, rfl⟩
      exact isPlacement_of_isCover ((h.mem_iff R).mp hR)
    · intro hP
      rcases hP.exists_cover with ⟨R, hR, rfl⟩
      exact ⟨R, (h.mem_iff R).mpr hR, rfl⟩

end DancingLinks.Queens
