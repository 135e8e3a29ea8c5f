import DancingLinks.Proofs.Overrunning
import DancingLinks.Proofs.Queens.Simulating
import Mathlib.Data.Finset.Prod
import Mathlib.Data.Finset.Powerset

/-! # The placements that a search yields

A search of the matrix of a board yields every placement of its queens once, however the columns are
chosen. There are as many placements as backtracking completes.
-/
namespace DancingLinks.Queens

open CoverMatrix Search

variable {n : Nat} {P : Finset (Nat × Nat)} {lists ds : List (List Nat)}

theorem isPlacement_iff : IsPlacement n P ↔
    P.card = n ∧ (∀ q ∈ P, OnBoard n q) ∧ ∀ q ∈ P, ∀ q' ∈ P, q ≠ q' → Apart n q q' :=
  ⟨fun h => ⟨h.card, h.onBoard, h.apart⟩, fun h => ⟨h.1, h.2.1, h.2.2⟩⟩

instance (n : Nat) (P : Finset (Nat × Nat)) : Decidable (IsPlacement n P) :=
  decidable_of_iff _ isPlacement_iff.symm

def placements (n : Nat) : Finset (Finset (Nat × Nat)) :=
  (Finset.range n ×ˢ Finset.range n).powerset.filter (IsPlacement n)

/-- A search of the matrix of a board that neither prunes nor is stopped finds every placement of
its queens once and nothing else, decoded in the order of the ranks. The program follows it to its
end, or up to a call that cannot be counted in words. -/
theorem search_yields_placements {σ ω : Type} {rule : BranchingRule Constraint σ}
    {visit : Visitor Constraint ω} {state : σ} (hn : n < 2 ^ 31) (hp : rule.pruning = none)
    (hr : AlwaysChooses rule (boardTable n) state) (hv : AlwaysProceeds visit) (visitor : ω) :
    ∃ m, matrix n = .ok (.ok m) ∧
      (∃ left p', Searches rule state visit visitor (boardTable n) [] m left p') ∧
      ∀ left p', Searches rule state visit visitor (boardTable n) [] m left p' →
        left = .ok .proceed ∧
        (∃ sols : List (Solution Constraint), ∃ decoded,
          callAll visit sols visitor = .ok p'.visitor ∧
          found p'.events = (sols.map (·.rows)).reverse ∧
          p'.solutions = sols.length ∧ p'.pruned = 0 ∧
          sols.mapM (fun s => decode n s.rows) = .ok decoded ∧
          (decoded.map List.toFinset).Nodup ∧
          (∀ P, P ∈ decoded.map List.toFinset ↔ IsPlacement n P) ∧
          ∀ queens ∈ decoded, queens.length = n ∧
            (queens.Pairwise fun a b => cellLe a b = true) ∧
            queens.map Prod.fst = List.range n ∧ isValid n queens = .ok true) ∧
        (p'.nodes < Word.modulus →
          rule.run state visit visitor m = .ok (conclude left m.close p')) ∧
        (Word.modulus ≤ p'.nodes → Overflows (rule.run state visit visitor m)) := by
  rcases exists_matrix hn with ⟨m, hm, hbuilt, -⟩
  refine ⟨m, hm, exists_searches hr.choosesActive hr.answers hv.returns hbuilt.under visitor, ?_⟩
  intro left p' hs
  refine ⟨hs.proceeds hr hv, ?_, hs.run_of_lt hbuilt.under hp, hs.overflows_of_le hbuilt.under hp⟩
  rcases searches_enumerate hbuilt.under hp hr hv hs with
    ⟨sols, hcalls, hfound, hsolutions, henum⟩
  rcases decoded_of_enumerates henum with ⟨honce, hall⟩
  refine ⟨sols, _, hcalls, hfound, hsolutions, pruned_of_searches hp hs,
    mapM_decode (row_lt_of_enumerates henum), honce, hall, ?_⟩
  intro queens hq
  rcases List.mem_map.mp hq with ⟨rows, hmem, rfl⟩
  have hcover := (henum.mem_iff _).mp (List.mem_map_of_mem hmem)
  have hsolves := solves_of_isCover hcover (henum.nodup rows hmem)
  have hsorted := sorted_cellsOf n rows
  refine ⟨hsolves.length, hsorted, hsolves.ranks hsorted, ?_⟩
  rw [isValid_eq (two_mul_lt_modulus hn), decide_eq_true hsolves]

/-- Of the cells of a board with four ranks, the leftmost search places queens in two ways. -/
theorem search_yields_placements_four : ∃ m out, matrix 4 = .ok (.ok m) ∧
    BranchingRule.leftmost.run () collect [] m = .ok out ∧
    found out.events = [[1, 7, 8, 14], [2, 4, 11, 13]] ∧
    ∀ P, IsPlacement 4 P ↔
      P = {(0, 1), (1, 3), (2, 0), (3, 2)} ∨ P = {(0, 2), (1, 0), (2, 3), (3, 1)} := by
  rcases search_yields_placements (n := 4) (by decide) rfl (alwaysChooses_leftmost _ ())
    alwaysProceeds_collect [] with ⟨m, hm, ⟨left, p', hs⟩, hall⟩
  rcases hall left p' hs with
    ⟨rfl, ⟨sols, decoded, -, hfound, -, -, hdecode, -, hplacements, -⟩, hruns, -⟩
  rcases leftmost_goes hs with ⟨-, hgone, hnodes⟩
  have hlength : (partials 4 4 []).length = 17 := by decide +kernel
  have hcomplete : (complete 4 (partials 4 4 [])).map (rowsOf 4) =
      [[1, 7, 8, 14], [2, 4, 11, 13]] := by decide +kernel
  have hrows : sols.map (·.rows) = [[1, 7, 8, 14], [2, 4, 11, 13]] :=
    (List.reverse_inj.mp (hfound.symm.trans hgone)).trans hcomplete
  have hrun := hruns (by rw [hnodes, hlength]; decide)
  refine ⟨m, _, hm, hrun, ?_, fun P => ?_⟩
  · rw [found_conclude, hfound, List.reverse_reverse, hrows]
  have hlt : ∀ rows ∈ sols.map (·.rows), ∀ r ∈ rows, r < 4 * 4 := by
    rw [hrows]
    decide
  have hdecoded := Except.ok.inj (hdecode.symm.trans (mapM_decode hlt))
  rw [← hplacements P, hdecoded, hrows, List.map_cons, List.map_cons, List.map_cons,
    List.map_cons, toFinset_cellsOf, toFinset_cellsOf]
  simp [cellAt]

end DancingLinks.Queens
