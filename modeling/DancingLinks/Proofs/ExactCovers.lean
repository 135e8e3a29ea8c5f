import DancingLinks.Proofs.Table
import Mathlib.Data.Finset.Basic

/-! # Exact covers of a table

While some columns are covered, an exact cover is a set of rows without covered columns, each with a
primary column and no two with a column in common, that meets every other primary column once. The
exact covers with a given row are the ones of what is left after covering the columns of this row.
-/
namespace DancingLinks

namespace Table

variable {t : Table} {cs : List Nat} {c d r : Nat} {R : Finset Nat}

/-- The rows form an exact cover of the columns that are left while `cs` are covered. -/
structure IsCover (t : Table) (cs : List Nat) (R : Finset Nat) : Prop where
  rows : ∀ r ∈ R, r < t.rowCount
  primary : ∀ r ∈ R, ∃ c ∈ t.row r, t.IsPrimary c
  apart : ∀ r ∈ R, ∀ c ∈ t.row r, c ∉ cs
  disjoint : ∀ r ∈ R, ∀ r' ∈ R, r ≠ r' → ∀ c ∈ t.row r, c ∉ t.row r'
  once : ∀ c, t.IsPrimary c → c ∉ cs → ∃! r, r ∈ R ∧ c ∈ t.row r

/-- With every primary column covered, only the empty set is a cover. -/
theorem isCover_of_active_eq_nil (h : t.active cs = []) : t.IsCover cs R ↔ R = ∅ := by
  rw [active_eq_nil] at h
  constructor
  · intro hR
    apply Finset.eq_empty_of_forall_notMem
    intro r hr
    rcases hR.primary r hr with ⟨c, hc, hp⟩
    exact hR.apart r hr c hc (h c hp)
  · rintro rfl
    exact ⟨by simp, by simp, by simp, by simp, fun c hp hc => absurd (h c hp) hc⟩

/-- Covering a column of a row and then the others covers the columns of the row. -/
theorem Ordered.mem_append_others (ho : t.Ordered) (hc : c ∈ t.row r) :
    d ∈ cs ++ [c] ++ t.others r c ↔ d ∈ cs ∨ d ∈ t.row r := by
  rw [List.mem_append, List.mem_append, List.mem_singleton, ho.mem_others hc]
  by_cases hdc : d = c
  · subst hdc
    simp [hc]
  · simp [hdc]

theorem IsCover.notMem (h : t.IsCover cs R) (hc : c ∈ t.row r) (hcs : c ∈ cs) : r ∉ R :=
  fun hr => h.apart r hr c hc hcs

theorem IsCover.insert (h : t.IsCover (cs ++ [c] ++ t.others r c) R) (ho : t.Ordered)
    (hp : t.IsPrimary c) (hcs : c ∉ cs) (hr : r ∈ t.rowsUnder cs c) :
    t.IsCover cs (insert r R) := by
  have hrow := (mem_rowsUnder hcs).mp hr
  have hmem (d : Nat) : d ∈ cs ++ [c] ++ t.others r c ↔ d ∈ cs ∨ d ∈ t.row r :=
    ho.mem_append_others hrow.1
  have happart : ∀ i ∈ R, ∀ d ∈ t.row i, d ∉ cs ∧ d ∉ t.row r := by
    intro i hi d hd
    have hn := h.apart i hi d hd
    rw [hmem] at hn
    exact not_or.mp hn
  constructor
  · intro i hi
    rcases Finset.mem_insert.mp hi with rfl | hi
    · exact lt_rowCount_of_mem hrow.1
    · exact h.rows i hi
  · intro i hi
    rcases Finset.mem_insert.mp hi with rfl | hi
    · exact ⟨c, hrow.1, hp⟩
    · exact h.primary i hi
  · intro i hi d hd
    rcases Finset.mem_insert.mp hi with rfl | hi
    · exact fun hm => hrow.2 d hm hd
    · exact (happart i hi d hd).1
  · intro i hi j hj hij d hd hd'
    rcases Finset.mem_insert.mp hi with rfl | hiR
    · rcases Finset.mem_insert.mp hj with rfl | hjR
      · exact hij rfl
      · exact (happart j hjR d hd').2 hd
    · rcases Finset.mem_insert.mp hj with rfl | hjR
      · exact (happart i hiR d hd).2 hd'
      · exact h.disjoint i hiR j hjR hij d hd hd'
  · intro d hd hdcs
    by_cases hdr : d ∈ t.row r
    · apply ExistsUnique.intro r ⟨Finset.mem_insert_self r R, hdr⟩
      rintro i ⟨hi, hdi⟩
      rcases Finset.mem_insert.mp hi with rfl | hi
      · rfl
      · exact absurd hdr (happart i hi d hdi).2
    · have hleft : d ∉ cs ++ [c] ++ t.others r c := by
        rw [hmem]
        exact not_or.mpr ⟨hdcs, hdr⟩
      rcases h.once d hd hleft with ⟨i, ⟨hi, hdi⟩, huniq⟩
      apply ExistsUnique.intro i ⟨Finset.mem_insert_of_mem hi, hdi⟩
      rintro j ⟨hj, hdj⟩
      rcases Finset.mem_insert.mp hj with rfl | hj
      · exact absurd hdj hdr
      · exact huniq j ⟨hj, hdj⟩

theorem IsCover.erase (h : t.IsCover cs R) (ho : t.Ordered) (hc : c ∈ t.row r) (hr : r ∈ R) :
    t.IsCover (cs ++ [c] ++ t.others r c) (R.erase r) := by
  constructor
  · intro i hi
    exact h.rows i (Finset.mem_of_mem_erase hi)
  · intro i hi
    exact h.primary i (Finset.mem_of_mem_erase hi)
  · intro i hi d hd
    rw [ho.mem_append_others hc, not_or]
    have hi' := Finset.mem_erase.mp hi
    exact ⟨h.apart i hi'.2 d hd, h.disjoint i hi'.2 r hr hi'.1 d hd⟩
  · intro i hi j hj
    exact h.disjoint i (Finset.mem_of_mem_erase hi) j (Finset.mem_of_mem_erase hj)
  · intro d hd hdcs
    rw [ho.mem_append_others hc, not_or] at hdcs
    rcases h.once d hd hdcs.1 with ⟨i, ⟨hi, hdi⟩, huniq⟩
    have hir : i ≠ r := by
      rintro rfl
      exact hdcs.2 hdi
    apply ExistsUnique.intro i ⟨Finset.mem_erase.mpr ⟨hir, hi⟩, hdi⟩
    rintro j ⟨hj, hdj⟩
    exact huniq j ⟨Finset.mem_of_mem_erase hj, hdj⟩

/-- The covers are those with one of the rows that an active column shows. -/
theorem isCover_iff (ho : t.Ordered) (hc : c ∈ t.active cs) :
    t.IsCover cs R ↔ ∃ r ∈ t.rowsUnder cs c, r ∈ R ∧
      t.IsCover (cs ++ [c] ++ t.others r c) (R.erase r) := by
  rw [mem_active] at hc
  constructor
  · intro h
    rcases h.once c hc.1 hc.2 with ⟨r, ⟨hr, hcr⟩, -⟩
    have hunder : r ∈ t.rowsUnder cs c := by
      rw [mem_rowsUnder hc.2]
      exact ⟨hcr, fun d hd hm => h.apart r hr d hm hd⟩
    exact ⟨r, hunder, hr, h.erase ho hcr hr⟩
  · rintro ⟨r, hr, hrR, h⟩
    rw [← Finset.insert_erase hrR]
    exact h.insert ho hc.1 hc.2 hr

end Table

/-- The lists, which repeat nothing, name the sets with a property, each set once. -/
structure Enumerates (lists : List (List Nat)) (P : Finset Nat → Prop) : Prop where
  nodup : ∀ q ∈ lists, q.Nodup
  once : (lists.map List.toFinset).Nodup
  mem_iff : ∀ R, R ∈ lists.map List.toFinset ↔ P R

/-- The lists of `qs`, which repeat nothing, name sets with a property, each set once; every other
set with the property includes one of the lists of `ds`. -/
structure Surveys (qs ds : List (List Nat)) (P : Finset Nat → Prop) : Prop where
  nodup : ∀ q ∈ qs, q.Nodup
  once : (qs.map List.toFinset).Nodup
  sound : ∀ R ∈ qs.map List.toFinset, P R
  complete : ∀ R, P R → R ∈ qs.map List.toFinset ∨ ∃ d ∈ ds, ∀ r ∈ d, r ∈ R

namespace Surveys

variable {xs ys ds es : List (List Nat)} {P Q : Finset Nat → Prop} {r : Nat}

theorem enumerates (h : Surveys xs [] P) : Enumerates xs P := by
  refine ⟨h.nodup, h.once, fun R => ⟨h.sound R, fun hP => ?_⟩⟩
  rcases h.complete R hP with hR | ⟨d, hd, -⟩
  · exact hR
  · exact absurd hd List.not_mem_nil

theorem congr (h : Surveys xs ds P) (hPQ : ∀ R, P R ↔ Q R) : Surveys xs ds Q :=
  ⟨h.nodup, h.once, fun R hR => (hPQ R).mp (h.sound R hR),
    fun R hQ => h.complete R ((hPQ R).mpr hQ)⟩

theorem nil (h : ∀ R, P R → ∃ d ∈ ds, ∀ r ∈ d, r ∈ R) : Surveys [] ds P :=
  ⟨fun _ hq => absurd hq List.not_mem_nil, List.nodup_nil,
    fun _ hR => absurd hR List.not_mem_nil, fun R hP => Or.inr (h R hP)⟩

theorem singleton (h : ∀ R, P R ↔ R = ∅) : Surveys [[]] [] P :=
  ⟨by simp, List.nodup_singleton _, by simp [h], by simp [h]⟩

theorem append (h : Surveys xs ds P) (h' : Surveys ys es Q) (hd : ∀ R, P R → ¬ Q R) :
    Surveys (xs ++ ys) (ds ++ es) fun R => P R ∨ Q R := by
  constructor
  · intro q hq
    rcases List.mem_append.mp hq with hq | hq
    · exact h.nodup q hq
    · exact h'.nodup q hq
  · rw [List.map_append]
    apply h.once.append h'.once
    intro R hR hR'
    exact hd R (h.sound R hR) (h'.sound R hR')
  · intro R hR
    rw [List.map_append] at hR
    exact (List.mem_append.mp hR).imp (h.sound R) (h'.sound R)
  · intro R hR
    rw [List.map_append, List.mem_append]
    rcases hR with hR | hR
    · rcases h.complete R hR with hR | ⟨d, hd, hall⟩
      · exact Or.inl (Or.inl hR)
      · exact Or.inr ⟨d, List.mem_append_left es hd, hall⟩
    · rcases h'.complete R hR with hR | ⟨d, hd, hall⟩
      · exact Or.inl (Or.inr hR)
      · exact Or.inr ⟨d, List.mem_append_right ds hd, hall⟩

theorem cons (h : Surveys xs ds P) (hr : ∀ R, P R → r ∉ R) :
    Surveys (xs.map (r :: ·)) (ds.map (r :: ·)) fun R => r ∈ R ∧ P (R.erase r) := by
  have hfresh : ∀ q ∈ xs, r ∉ q.toFinset := fun q hq =>
    hr _ (h.sound _ (List.mem_map_of_mem hq))
  have hmap : (xs.map (r :: ·)).map List.toFinset = (xs.map List.toFinset).map (insert r) := by
    simp
  constructor
  · intro q hq
    rcases List.mem_map.mp hq with ⟨tail, ht, rfl⟩
    exact List.nodup_cons.mpr ⟨by simpa using hfresh tail ht, h.nodup tail ht⟩
  · rw [hmap]
    apply List.Nodup.map_on _ h.once
    intro R hR R' hR' heq
    rw [← Finset.erase_insert (hr R (h.sound R hR)), heq,
      Finset.erase_insert (hr R' (h.sound R' hR'))]
  · intro R hR
    rw [hmap, List.mem_map] at hR
    rcases hR with ⟨R, hR, rfl⟩
    have hP := h.sound R hR
    rw [Finset.erase_insert (hr R hP)]
    exact ⟨Finset.mem_insert_self r R, hP⟩
  · rintro R ⟨hrR, hP⟩
    rcases h.complete _ hP with hR | ⟨d, hd, hall⟩
    · left
      rw [hmap, List.mem_map]
      exact ⟨R.erase r, hR, Finset.insert_erase hrR⟩
    · right
      refine ⟨r :: d, List.mem_map_of_mem hd, ?_⟩
      simp only [List.mem_cons, forall_eq_or_imp]
      exact ⟨hrR, fun x hx => Finset.mem_of_mem_erase (hall x hx)⟩

end Surveys

end DancingLinks
