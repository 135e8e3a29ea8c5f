import DancingLinks.Proofs.Sweeps
import DancingLinks.Proofs.Table

/-! # Linked matrices of a table

What it means that a linked matrix stands for a table of which some entries are out of sight, and
that hiding one more entry keeps this and can be undone.
-/
namespace DancingLinks

open Links

variable {L : Type} {t : Table} {shown : Table.Shown} {r c c' : Nat} {active : List Nat}

/-- Each column rings through its header and the entries it shows, from top to bottom. -/
def Links.IsDown (links : Links) (t : Table) (shown : Table.Shown) : Prop :=
  ∀ c < t.columnCount, IsRing links ↑((c + 1) :: t.columnNodes shown c)

theorem Table.mem_columnNodes {x : Nat} :
    x ∈ t.columnNodes shown c ↔ ∃ r, c ∈ t.row r ∧ shown r c = true ∧ t.entry r c = x := by
  simp [Table.columnNodes, Table.mem_shownRows, and_assoc]

theorem Table.columns_disjoint (hc : c < t.columnCount) (hc' : c' < t.columnCount) (h : c' ≠ c) :
    ∀ x ∈ (c' + 1) :: t.columnNodes shown c', x ∉ (c + 1) :: t.columnNodes shown c := by
  intro x hx' hx
  rw [List.mem_cons, Table.mem_columnNodes] at hx hx'
  rcases hx' with rfl | ⟨r', hr', -, rfl⟩
  · rcases hx with hx | ⟨r, hr, -, hx⟩
    · omega
    · have := t.columnCount_lt_entry r c
      omega
  · rcases hx with hx | ⟨r, hr, -, hx⟩
    · have := t.columnCount_lt_entry r' c'
      omega
    · exact h (Table.entry_inj hr hr' hx).2.symm

/-- Unlinking a shown entry hides it, and relinking undoes that. -/
theorem Links.IsDown.unlink {links : Links} (h : IsDown links t shown) (hc : c < t.columnCount)
    (hr : r ∈ t.shownRows shown c) :
    ∃ links', links.unlink (t.entry r c) = .ok links' ∧ links'.relink (t.entry r c) = .ok links ∧
      links'.size = links.size ∧ IsDown links' t (shown.minus [(r, c)]) := by
  rcases Table.shownRows_minus hr with ⟨above, below, hab, hab'⟩
  have hring : IsRing links ↑(t.entry r c ::
      (below.map (t.entry · c) ++ (c + 1) :: above.map (t.entry · c))) := by
    have hcol := h c hc
    rw [Table.columnNodes, hab, List.map_append, List.map_cons, ← List.cons_append] at hcol
    exact hcol.rotate
  rcases hring.unlink with ⟨links', hu, hre, hs, hleft, hother⟩
  have hdown : IsDown links' t (shown.minus [(r, c)]) := by
    intro d hd
    by_cases hdc : d = c
    · subst hdc
      rw [Table.columnNodes, hab', List.map_append, ← List.cons_append]
      exact hleft.rotate
    · rw [Table.columnNodes, Table.shownRows_minus_of_ne (by simpa using Ne.symm hdc)]
      apply hother _ (h d hd)
      intro x hx hm
      apply Table.columns_disjoint hc hd hdc x hx
      rw [Table.columnNodes, hab]
      simp only [List.mem_cons, List.mem_append, List.map_append, List.map_cons] at hm ⊢
      tauto
  exact ⟨links', hu, hre, hs, hdown⟩

/-- The entries of every row ring, the root rings with the headers of the active columns, and the
header of a column that is not primary is a ring by itself. -/
structure Links.IsAcross (links : Links) (t : Table) (active : List Nat) : Prop where
  rows : ∀ r, IsRing links ↑(t.rowNodes r)
  root : IsRing links ↑(0 :: active.map (· + 1))
  aside : ∀ c < t.columnCount, ¬ t.IsPrimary c → IsRing links ↑[c + 1]

theorem Table.columnCount_lt_of_mem_rowNodes {x : Nat} (h : x ∈ t.rowNodes r) :
    t.columnCount < x := by
  rcases List.mem_map.mp h with ⟨c, -, rfl⟩
  exact t.columnCount_lt_entry r c

theorem Links.IsAcross.row_ring {links : Links} (h : IsAcross links t active) (hc : c ∈ t.row r) :
    IsRing links ↑(t.entry r c :: (t.others r c).map (t.entry r)) := by
  have hr := h.rows r
  rwa [Table.rowNodes, Cycle.coe_eq_coe.mpr ((Table.row_isRotated hc).map _)] at hr

/-- Taking the header of an active column out of the root's ring, and putting it back. -/
theorem Links.IsAcross.unlink {links : Links} (h : IsAcross links t active)
    (hp : ∀ a ∈ active, t.IsPrimary a) (hc : c ∈ active) :
    ∃ links', links.unlink (c + 1) = .ok links' ∧ links'.relink (c + 1) = .ok links ∧
      links.isUnlinked (c + 1) = .ok false ∧ links'.size = links.size ∧
      IsAcross links' t (active.filter (· ≠ c)) := by
  rcases List.append_of_mem hc with ⟨as, bs, rfl⟩
  have hring : IsRing links ↑((c + 1) :: (bs.map (· + 1) ++ 0 :: as.map (· + 1))) := by
    have hroot := h.root
    rw [List.map_append, List.map_cons, ← List.cons_append] at hroot
    exact hroot.rotate
  rcases hring.unlink with ⟨links', hu, hre, hs, hleft, hother⟩
  have hmem : ∀ x ∈ (c + 1) :: (bs.map (· + 1) ++ 0 :: as.map (· + 1)),
      x = 0 ∨ ∃ a, t.IsPrimary a ∧ x = a + 1 := by
    intro x hx
    simp only [List.mem_cons, List.mem_append, List.mem_map] at hx
    rcases hx with rfl | ⟨a, ha, rfl⟩ | rfl | ⟨a, ha, rfl⟩
    · exact Or.inr ⟨c, hp c (by simp), rfl⟩
    · exact Or.inr ⟨a, hp a (by simp [ha]), rfl⟩
    · exact Or.inl rfl
    · exact Or.inr ⟨a, hp a (by simp [ha]), rfl⟩
  refine ⟨links', hu, hre, hring.isUnlinked, hs, ?_⟩
  constructor
  · intro r
    apply hother _ (h.rows r)
    intro x hx hm
    have hlt := Table.columnCount_lt_of_mem_rowNodes hx
    rcases hmem x hm with rfl | ⟨a, ha, rfl⟩
    · omega
    · have := ha.lt
      omega
  · have hn : (as ++ c :: bs).Nodup := by
      have hn := h.root.nodup_cons.of_cons
      exact hn.of_map _
    rw [filter_ne_middle hn, List.map_append, ← List.cons_append]
    exact hleft.rotate
  · intro d hd hdp
    apply hother _ (h.aside d hd hdp)
    intro x hx hm
    rw [Cycle.mem_coe_iff, List.mem_singleton] at hx
    rcases hmem x hm with rfl | ⟨a, ha, rfl⟩
    · omega
    · have had : a = d := by omega
      exact hdp (had ▸ ha)

namespace CoverMatrix

variable {m : CoverMatrix L} {removed : Nat}

/-- What covering never changes. -/
structure IsFrame (m : CoverMatrix L) (t : Table) : Prop where
  ordered : t.Ordered
  primary : m.headers.toList.map (·.primary) = t.primary
  across_size : m.across.size = t.nodeCount
  down_size : m.down.size = t.nodeCount
  column_size : m.column.size = t.nodeCount
  row_size : m.row.size = t.nodeCount
  column : ∀ r c, c ∈ t.row r → m.column[t.entry r c]? = some c
  row : ∀ r c, c ∈ t.row r → m.row[t.entry r c]? = some (some r)
  rowHeads : m.rowHeads.toList = (List.range t.rowCount).map t.start
  nodeCount_lt : t.nodeCount < Word.modulus

theorem IsFrame.headers_size (h : m.IsFrame t) : m.headers.size = t.columnCount := by
  rw [Table.columnCount, ← h.primary, List.length_map, Array.length_toList]

/-- The linked matrix stands for the table as far as it is shown, with the given active columns and
the given number of removed rows. -/
structure Represents (m : CoverMatrix L) (t : Table) (shown : Table.Shown) (active : List Nat)
    (removed : Nat) : Prop extends IsFrame m t where
  across : IsAcross m.across t active
  down : IsDown m.down t shown
  sizes : ∀ c (h : c < m.headers.size), m.headers[c].size = (t.shownRows shown c).length
  removedRows : m.removedRows = removed

end CoverMatrix

end DancingLinks
