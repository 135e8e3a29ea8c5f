import DancingLinks.Proofs.BreakingOff

/-! # The order of a search

A search enters its positions in lexicographic order of their paths, a path before those that go on
from it, whatever columns are chosen and whatever branches are abandoned. No two paths have the same
rows: two rows of one column never stand on one path, so no path that goes on from a row has a row
that was tried before it.
-/
namespace DancingLinks

variable {t : Table} {cs q : List Nat}

namespace Table

/-- Rows that can be chosen one after the other while the columns `cs` are covered: each is shown by
an active column, and choosing it covers its columns. -/
inductive Selection (t : Table) : List Nat → List Nat → Prop
  | nil {cs : List Nat} : Selection t cs []
  | cons {cs q : List Nat} {c r : Nat} (hc : c ∈ t.active cs) (hr : r ∈ t.rowsUnder cs c)
    (h : Selection t (cs ++ [c] ++ t.others r c) q) : Selection t cs (r :: q)

namespace Selection

theorem lt_rowCount (h : t.Selection cs q) : ∀ r ∈ q, r < t.rowCount := by
  induction h with
  | nil => simp
  | cons hc hr _ ih =>
    rw [List.forall_mem_cons]
    exact ⟨lt_rowCount_of_mem ((mem_rowsUnder (mem_active.mp hc).2).mp hr).1, ih⟩

theorem apart (h : t.Selection cs q) (ho : t.Ordered) : ∀ r ∈ q, ∀ d ∈ t.row r, d ∉ cs := by
  induction h with
  | nil => simp
  | cons hc hr _ ih =>
    have hrow := (mem_rowsUnder (mem_active.mp hc).2).mp hr
    rw [List.forall_mem_cons]
    constructor
    · exact fun d hd hm => hrow.2 d hm hd
    · exact fun i hi d hd hm => ih i hi d hd ((ho.mem_append_others hrow.1).mpr (Or.inl hm))

theorem disjoint (h : t.Selection cs q) (ho : t.Ordered) :
    q.Pairwise fun r r' => ∀ d ∈ t.row r, d ∉ t.row r' := by
  induction h with
  | nil => exact List.Pairwise.nil
  | cons hc hr h ih =>
    have hrow := (mem_rowsUnder (mem_active.mp hc).2).mp hr
    refine List.pairwise_cons.mpr ⟨fun i hi d hd hm => ?_, ih⟩
    exact h.apart ho i hi d hm ((ho.mem_append_others hrow.1).mpr (Or.inr hd))

theorem nodup (h : t.Selection cs q) (ho : t.Ordered) : q.Nodup := by
  induction h with
  | nil => exact List.nodup_nil
  | cons hc hr h ih =>
    have hrow := (mem_rowsUnder (mem_active.mp hc).2).mp hr
    refine List.nodup_cons.mpr ⟨fun hm => ?_, ih⟩
    exact h.apart ho _ hm _ hrow.1 ((ho.mem_append_others hrow.1).mpr (Or.inr hrow.1))

theorem length_le (h : t.Selection cs q) : q.length ≤ (t.active cs).length := by
  induction h with
  | nil => exact Nat.zero_le _
  | cons hc _ _ ih => exact Nat.succ_le_of_lt (ih.trans_lt (length_active_others_lt hc _))

end Selection

end Table

/-- Lists with a property, in lexicographic order and no two with the same members. -/
structure Ascends (qs : List (List Nat)) (P : List Nat → Prop) : Prop where
  ascending : qs.Pairwise (· < ·)
  once : (qs.map List.toFinset).Nodup
  all : ∀ q ∈ qs, P q

namespace Ascends

variable {xs ys qs : List (List Nat)} {P Q : List Nat → Prop} {r : Nat}

theorem imp (h : Ascends qs P) (hPQ : ∀ q, P q → Q q) : Ascends qs Q :=
  ⟨h.ascending, h.once, fun q hq => hPQ q (h.all q hq)⟩

theorem nil : Ascends [] P :=
  ⟨List.Pairwise.nil, List.nodup_nil, fun _ hq => absurd hq List.not_mem_nil⟩

theorem root (h : Ascends qs P) (hP : ∀ q, P q → q ≠ []) :
    Ascends ([] :: qs) fun q => q = [] ∨ P q := by
  have hne : ∀ q ∈ qs, q ≠ [] := fun q hq => hP q (h.all q hq)
  refine ⟨List.pairwise_cons.mpr ⟨fun q hq => ?_, h.ascending⟩, ?_, ?_⟩
  · obtain ⟨a, l, rfl⟩ := List.exists_cons_of_ne_nil (hne q hq)
    exact List.nil_lt_cons a l
  · rw [List.map_cons, List.nodup_cons]
    refine ⟨fun hm => ?_, h.once⟩
    obtain ⟨q, hq, hempty⟩ := List.mem_map.mp hm
    exact hne q hq (List.toFinset_eq_empty_iff q |>.mp hempty)
  · simpa using fun q hq => Or.inr (h.all q hq)

theorem cons (h : Ascends qs P) (hr : ∀ q, P q → r ∉ q) :
    Ascends (qs.map (r :: ·)) fun q => ∃ q', q = r :: q' ∧ P q' := by
  refine ⟨List.pairwise_map.mpr (h.ascending.imp List.Lex.cons), ?_, ?_⟩
  · rw [List.map_map]
    refine List.pairwise_map.mpr ((List.pairwise_map.mp h.once).imp_of_mem ?_)
    intro a b ha hb hab heq
    have hra : r ∉ a.toFinset := by simpa using hr a (h.all a ha)
    have hrb : r ∉ b.toFinset := by simpa using hr b (h.all b hb)
    simp only [Function.comp_apply, List.toFinset_cons] at heq
    exact hab (by rw [← Finset.erase_insert hra, heq, Finset.erase_insert hrb])
  · intro q hq
    obtain ⟨q', hq', rfl⟩ := List.mem_map.mp hq
    exact ⟨q', rfl, h.all q' hq'⟩

theorem append (h : Ascends xs P) (h' : Ascends ys Q)
    (hlt : ∀ x y, P x → Q y → x < y ∧ x.toFinset ≠ y.toFinset) :
    Ascends (xs ++ ys) fun q => P q ∨ Q q := by
  refine ⟨?_, ?_, ?_⟩
  · exact List.pairwise_append.mpr ⟨h.ascending, h'.ascending,
      fun x hx y hy => (hlt x y (h.all x hx) (h'.all y hy)).1⟩
  · rw [List.map_append]
    refine h.once.append h'.once fun R hR hR' => ?_
    obtain ⟨x, hx, rfl⟩ := List.mem_map.mp hR
    obtain ⟨y, hy, heq⟩ := List.mem_map.mp hR'
    exact (hlt x y (h.all x hx) (h'.all y hy)).2 heq.symm
  · intro q hq
    exact (List.mem_append.mp hq).imp (h.all q) (h'.all q)

end Ascends

namespace Search

open CoverMatrix

variable {L σ ω : Type} {rule : BranchingRule L σ} {visit : Visitor L ω} {task : Task}
  {m : CoverMatrix L} {p p' : Progress σ ω} {left : Except Rejection Signal}

namespace Task

def Sorted : Task → Prop
  | .rows _ _ _ rs => rs.Pairwise (· < ·)
  | _ => True

/-- The rows by which a part of a search may go on from the path before it. -/
def Leads (t : Table) : Task → List Nat → Prop
  | .position _ cs, q => t.Selection cs q
  | .row _ cs c r, q => ∃ q', q = r :: q' ∧ t.Selection (cs ++ t.others r c) q'
  | .rows _ cs c rs, q => ∃ r ∈ rs, ∃ q', q = r :: q' ∧ t.Selection (cs ++ t.others r c) q'

end Task

/-- What goes on from a row comes before what goes on from a later row of the column, and has other
rows. -/
theorem lt_of_leads {path cs rs q q' : List Nat} {c r : Nat} (ho : t.Ordered)
    (hfit : Task.Fits t (.rows path cs c (r :: rs))) (hs : Task.Sorted (.rows path cs c (r :: rs)))
    (h : Task.Leads t (.row path cs c r) q) (h' : Task.Leads t (.rows path cs c rs) q') :
    q < q' ∧ q.toFinset ≠ q'.toFinset := by
  obtain ⟨tail, rfl, -⟩ := h
  obtain ⟨i, hi, tail', rfl, hsel⟩ := h'
  have hri : r < i := (List.pairwise_cons.mp hs).1 i hi
  refine ⟨List.Lex.rel hri, fun heq => ?_⟩
  have hr : r ∈ (i :: tail').toFinset := heq ▸ List.mem_toFinset.mpr List.mem_cons_self
  rcases List.mem_cons.mp (List.mem_toFinset.mp hr) with rfl | hr
  · exact lt_irrefl _ hri
  · exact hsel.apart ho r hr c (hfit.2.2 r List.mem_cons_self) (List.mem_append_left _ hfit.1)

/-- The positions of a part of a search go on from the path before it in lexicographic order, and no
two of them by the same rows; the covers are among them. -/
theorem Explores.ascends (ho : t.Ordered) (h : Explores rule visit t task m p left p')
    (hfit : task.Fits t) (hs : task.Sorted) :
    ∃ qs fs : List (List Nat),
      positions p'.events = (qs.map (task.path ++ ·)).reverse ++ positions p.events ∧
      found p'.events = (fs.map (task.path ++ ·)).reverse ++ found p.events ∧
      fs.Sublist qs ∧ Ascends qs (task.Leads t) := by
  have hhere (path cs : List Nat) : Ascends [[]] (Task.Leads t (.position path cs)) := by
    refine (Ascends.nil (P := fun _ => False)).root (by simp) |>.imp fun q hq => ?_
    obtain rfl := hq.resolve_right id
    exact .nil
  induction h with
  | @solved path cs m p signal w _ _ _ =>
    refine ⟨[[]], [[]], ?_, ?_, .refl _, hhere path cs⟩
    · rw [List.map_singleton, Task.path, List.append_nil]
      rfl
    · rw [List.map_singleton, Task.path, List.append_nil]
      rfl
  | @rejected path cs m p r s _ _ _ =>
    refine ⟨[[]], [], ?_, rfl, List.nil_sublist _, hhere path cs⟩
    rw [List.map_singleton, Task.path, List.append_nil]
    rfl
  | @branched path cs m m₁ p p' s c left _ _ hc _ _ ih =>
    have hsorted : (t.rowsUnder cs c).Pairwise (· < ·) := List.pairwise_lt_range.filter _
    obtain ⟨qs, fs, hpos, hfound, hsub, hasc⟩ := ih (Task.fits_rowsUnder hc) hsorted
    refine ⟨[] :: qs, fs, ?_, hfound, hsub.cons _, ?_⟩
    · rw [hpos, List.map_cons, List.reverse_cons, List.append_assoc, Task.path, Task.path,
        List.append_nil]
      rfl
    · refine (hasc.root ?_).imp ?_
      · rintro q ⟨r, -, q', rfl, -⟩
        exact List.cons_ne_nil r q'
      · rintro q (rfl | ⟨r, hr, q', rfl, hsel⟩)
        · exact .nil
        · exact .cons hc hr hsel
  | @searched path cs m m₁ p p₁ p' c r left _ ha _ ih =>
    obtain ⟨samples, rfl, -⟩ := Progress.accept_eq ha
    obtain ⟨qs, fs, hpos, hfound, hsub, hasc⟩ := ih trivial trivial
    refine ⟨qs.map (r :: ·), fs.map (r :: ·), ?_, ?_, hsub.map _, hasc.cons fun q hq hr => ?_⟩
    · rw [hpos, Task.path, Task.map_path_concat]
      rfl
    · rw [hfound, Task.path, Task.map_path_concat]
      rfl
    · exact hq.apart ho r hr c hfit.2 (List.mem_append_left _ hfit.1)
  | abandoned _ ha =>
    obtain ⟨samples, rfl, -⟩ := Progress.accept_eq ha
    exact ⟨[], [], rfl, rfl, .refl _, .nil⟩
  | exhausted => exact ⟨[], [], rfl, rfl, .refl _, .nil⟩
  | @next path cs rs m p p₁ p' c r left _ _ ih ihrest =>
    obtain ⟨xs, fs, hpx, hfx, hsx, hx⟩ := ih hfit.head trivial
    obtain ⟨ys, gs, hpy, hfy, hsy, hy⟩ := ihrest hfit.tail (List.pairwise_cons.mp hs).2
    refine ⟨xs ++ ys, fs ++ gs, ?_, ?_, hsx.append hsy, ?_⟩
    · rw [hpy, hpx, List.map_append, List.reverse_append, List.append_assoc]
      rfl
    · rw [hfy, hfx, List.map_append, List.reverse_append, List.append_assoc]
      rfl
    · refine (hx.append hy fun q q' hq hq' => lt_of_leads ho hfit hs hq hq').imp ?_
      rintro q (⟨q', rfl, hsel⟩ | ⟨i, hi, hq⟩)
      · exact ⟨r, List.mem_cons_self, q', rfl, hsel⟩
      · exact ⟨i, List.mem_cons_of_mem r hi, hq⟩
  | @ended path cs rs m p p' c r left _ _ ih =>
    obtain ⟨qs, fs, hpos, hfound, hsub, hasc⟩ := ih hfit.head trivial
    refine ⟨qs, fs, hpos, hfound, hsub, hasc.imp ?_⟩
    rintro q ⟨q', rfl, hsel⟩
    exact ⟨r, List.mem_cons_self, q', rfl, hsel⟩

/-- Events of a search that tries the rows that are left in their order. -/
structure Orderly (t : Table) (cs : List Nat) (events : List Event) : Prop where
  /-- Paths come in lexicographic order, each before those that go on from it. -/
  ascending : (positions events).Pairwise (· < ·)
  once : ((positions events).map List.toFinset).Nodup
  left : ∀ path ∈ positions events, ∀ r ∈ path, r < t.rowCount ∧ ∀ d ∈ t.row r, d ∉ cs
  disjoint : ∀ path ∈ positions events,
    path.Nodup ∧ path.Pairwise fun r r' => ∀ d ∈ t.row r, d ∉ t.row r'
  covers : (found events).Pairwise (· < ·)

/-- The positions of a search are selections in lexicographic order, and the covers are among
them. -/
theorem Searches.ascends {state : σ} {visitor : ω} (hm : m.Under t cs)
    (hs : Searches rule state visit visitor t cs m left p') :
    ∃ qs fs : List (List Nat), (positions p'.events).reverse = qs ∧
      (found p'.events).reverse = fs ∧ fs.Sublist qs ∧ Ascends qs (t.Selection cs) := by
  obtain ⟨qs, fs, hpos, hfound, hsub, hasc⟩ :=
    Explores.ascends hm.ordered hs trivial trivial
  have hpath (xs : List (List Nat)) : xs.map ([] ++ ·) = xs := List.map_id' xs
  rw [positions_begin, List.append_nil, Task.path, hpath] at hpos
  rw [found_begin, List.append_nil, Task.path, hpath] at hfound
  exact ⟨qs, fs, by rw [hpos, List.reverse_reverse], by rw [hfound, List.reverse_reverse], hsub,
    hasc⟩

theorem Searches.orderly {state : σ} {visitor : ω} {events : List Event} (hm : m.Under t cs)
    (hs : Searches rule state visit visitor t cs m left p')
    (hpos : positions events <+: (positions p'.events).reverse)
    (hfound : found events <+: (found p'.events).reverse) : Orderly t cs events := by
  obtain ⟨qs, fs, rfl, rfl, hsub, hasc⟩ := hs.ascends hm
  have hsel : ∀ path ∈ positions events, t.Selection cs path := fun path hp =>
    hasc.all path (hpos.subset hp)
  exact {
    ascending := hasc.ascending.sublist hpos.sublist
    once := hasc.once.sublist (hpos.sublist.map _)
    left := fun path hp r hr =>
      ⟨(hsel path hp).lt_rowCount r hr, (hsel path hp).apart hm.ordered r hr⟩
    disjoint := fun path hp => ⟨(hsel path hp).nodup hm.ordered, (hsel path hp).disjoint hm.ordered⟩
    covers := hasc.ascending.sublist (hfound.sublist.trans hsub) }

/-- Every run enters its positions in lexicographic order and no two with the same rows, up to a
fault if there is one, and so come the covers that the visitor is called with. The positions are all
those that a tally counts. -/
theorem run_ascends [DecidableEq L] {state : σ} (hm : m.Reached t cs)
    (hr : ChoosesActive rule t state) (visit : Visitor L ω) (visitor : ω) :
    Orderly t cs (happened (rule.run state visit visitor m)) ∧
      ∀ out, rule.run state visit visitor m = .ok out → ∃ sols : List (Solution L),
        callAll visit sols visitor = .ok out.visitor ∧ sols.map (·.rows) = found out.events ∧
        (sols.map (·.rows)).Pairwise (· < ·) ∧
        ∀ tally, out.result = .ok tally → tally.nodes = (positions out.events).length := by
  obtain ⟨left, p', hs, hpick⟩ := exists_searches_spared hm.under hr visit visitor
  have horder : Orderly t cs (happened (rule.run state visit visitor m)) :=
    hs.orderly hm.under (hpick _ fun _ => rfl) (hpick _ fun _ => rfl)
  refine ⟨horder, fun out hrun => ?_⟩
  obtain ⟨left, p', hs, rfl⟩ := (run_follows hr hm.under visitor).2 out hrun
  obtain ⟨sols, hvisits⟩ := hs.visits
  have hrows : sols.map (·.rows) = found (conclude left m.close p').events := by
    rw [found_conclude, hvisits.found, found_begin, List.append_nil, List.reverse_reverse]
  refine ⟨sols, ?_, hrows, ?_, fun tally hres => ?_⟩
  · rw [visitor_conclude]
    exact hvisits.calls
  · rw [hrun] at horder
    rw [hrows]
    exact horder.covers
  · have hnodes := (hs.sound (sound_begin rule state visitor m)).nodes
    rw [(tally_eq hr hm.under hrun hres hs).2.1, hnodes, calls_eq, positions_conclude,
      List.length_reverse]

/-- Two columns that two rows cover, and so does one row alone. -/
theorem run_ascends_three_rows : ∃ (m : CoverMatrix Char) (out : Outcome Char Unit _),
    m.Reached ⟨[true, true], [[0], [1], [0, 1]]⟩ [] ∧
    BranchingRule.leftmost.run () collect [] m = .ok out ∧
    positions out.events = [[], [0], [0, 1], [2]] ∧ out.visitor = [[0, 1], [2]] ∧
    Orderly ⟨[true, true], [[0], [1], [0, 1]]⟩ [] out.events := by
  have h₀ := @Built.ofColumns Char _ [('a', true), ('b', true)] _ rfl
  have h₁ := @Built.addRow Char _ _ _ _ [0] 0 h₀ rfl
  have h₂ := @Built.addRow Char _ _ _ _ [1] 1 h₁ rfl
  have h₃ := @Built.addRow Char _ _ _ _ [0, 1] 2 h₂ rfl
  have hm : Reached _ ⟨[true, true], [[0], [1], [0, 1]]⟩ [] := ⟨_, [], h₃, .nil, rfl⟩
  have hactive := alwaysChooses_leftmost (L := Char) ⟨[true, true], [[0], [1], [0, 1]]⟩ ()
  obtain ⟨horder, -⟩ := run_ascends hm hactive.choosesActive collect []
  exact ⟨_, _, hm, rfl, rfl, rfl, horder⟩

end Search

end DancingLinks
