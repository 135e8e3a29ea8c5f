import DancingLinks.Proofs.Queens.Counting
import DancingLinks.Proofs.Queens.Placements

/-! # The leftmost search of a board

On the matrix of a board the leftmost rule covers the ranks in their order, and the rows that it
tries for a rank are the cells that plain backtracking finds safe there. So the search goes through
the same lists of files as backtracking and counts the same.
-/
namespace DancingLinks

namespace Queens

open CoverMatrix

variable {n j c : Nat} {q : Nat × Nat} {files cs : List Nat}

/-- The columns `cs` are those of the lines of the queens on the first ranks. -/
structure Stands (n : Nat) (files cs : List Nat) : Prop where
  nonAttacking : NonAttacking n files
  length : files.length ≤ n
  covered : ∀ c, c ∈ cs ↔ ∃ q ∈ queensOf files, c ∈ lines n q

theorem Stands.nil (n : Nat) : Stands n [] [] where
  nonAttacking := .nil n
  length := n.zero_le
  covered := by simp [queensOf]

theorem Stands.onBoard (h : Stands n files cs) (hq : q ∈ queensOf files) : OnBoard n q :=
  h.nonAttacking.onBoard h.length hq

theorem Stands.rank_mem (h : Stands n files cs) (hc : c < n) : c ∈ cs ↔ c < files.length := by
  rw [h.covered]
  constructor
  · rintro ⟨q, hq, hcq⟩
    rw [rank_mem_lines (h.onBoard hq) hc] at hcq
    exact hcq ▸ rank_lt_of_mem hq
  · intro hlt
    rw [← List.mem_range, ← map_fst_queensOf] at hlt
    rcases List.mem_map.mp hlt with ⟨q, hq, hqc⟩
    exact ⟨q, hq, (rank_mem_lines (h.onBoard hq) hc).mpr hqc.symm⟩

/-- As long as a rank has no queen, the first of those is the leftmost active column. -/
theorem Stands.active_eq_cons (h : Stands n files cs) (hlt : files.length < n) :
    ∃ rest, (boardTable n).active cs = files.length :: rest := by
  have hcolumns : (boardTable n).columnCount =
      files.length + ((boardTable n).columnCount - files.length - 1 + 1) := by
    rw [columnCount_boardTable]
    omega
  have hranks : ((List.range files.length).filter fun c =>
      (boardTable n).IsPrimary c ∧ c ∉ cs) = [] := by
    rw [List.filter_eq_nil_iff]
    intro c hc
    have hc := List.mem_range.mp hc
    simp [(h.rank_mem (hc.trans hlt)).mpr hc]
  have hfirst : (boardTable n).IsPrimary files.length ∧ files.length ∉ cs := by
    rw [isPrimary_boardTable, h.rank_mem hlt]
    omega
  rw [DancingLinks.Table.active, hcolumns, List.range_add, List.filter_append, hranks,
    List.nil_append, List.range_succ_eq_map, List.map_cons, Nat.add_zero,
    List.filter_cons_of_pos (by simpa using hfirst)]
  exact ⟨_, rfl⟩

theorem Stands.active_eq_nil (h : Stands n files cs) (hlength : files.length = n) :
    (boardTable n).active cs = [] := by
  have hnodup : files.Nodup := by
    rw [← map_snd_queensOf files]
    exact List.pairwise_map.mpr (h.nonAttacking.apart.imp Apart.file)
  have hperm : files.Perm (List.range n) := by
    have hsub : files ⊆ List.range n := fun j hj => List.mem_range.mpr (h.nonAttacking.inRange j hj)
    apply (List.subperm_of_subset hnodup hsub).perm_of_length_le
    rw [List.length_range, hlength]
  rw [DancingLinks.Table.active_eq_nil]
  intro c hc
  rw [isPrimary_boardTable] at hc
  rcases Nat.lt_or_ge c n with hcn | hcn
  · exact (h.rank_mem hcn).mpr (hlength ▸ hcn)
  · obtain ⟨j, rfl⟩ := Nat.exists_eq_add_of_le hcn
    have hj : j < n := by omega
    have hmem : j ∈ (queensOf files).map Prod.snd := by
      rw [map_snd_queensOf]
      exact hperm.mem_iff.mpr (List.mem_range.mpr hj)
    rcases List.mem_map.mp hmem with ⟨q, hq, rfl⟩
    exact (h.covered _).mpr ⟨q, hq, (file_mem_lines (h.onBoard hq) hj).mpr rfl⟩

/-- A cell meets no covered column exactly if it is apart from the queens. -/
theorem Stands.disjoint_iff (h : Stands n files cs) (hq : OnBoard n q) :
    (∀ c ∈ cs, c ∉ lines n q) ↔ ∀ q' ∈ queensOf files, Apart n q' q := by
  constructor
  · intro hcs q' hq'
    rw [← lines_disjoint_iff (h.onBoard hq') hq]
    exact fun c hc => hcs c ((h.covered c).mpr ⟨q', hq', hc⟩)
  · intro hapart c hc
    rcases (h.covered c).mp hc with ⟨q', hq', hcq⟩
    exact (lines_disjoint_iff (h.onBoard hq') hq).mpr (hapart q' hq') c hcq

/-- The rows that the next rank shows are its safe cells, in the order of their files. -/
theorem Stands.rowsUnder_eq (h : Stands n files cs) (hlt : files.length < n) :
    (boardTable n).rowsUnder cs files.length =
      (safeFiles n files).map fun j => rowOf n (files.length, j) := by
  have hfree : files.length ∉ cs := by
    rw [h.rank_mem hlt]
    exact lt_irrefl _
  have hshown : ((boardTable n).rowsUnder cs files.length).Pairwise (· < ·) :=
    List.pairwise_lt_range.filter _
  have hsafe : ((safeFiles n files).map fun j => rowOf n (files.length, j)).Pairwise (· < ·) :=
    List.pairwise_map.mpr ((safeFiles_ascending n files).imp fun hj => Nat.add_lt_add_left hj _)
  apply hshown.eq_of_mem_iff hsafe
  intro r
  rw [DancingLinks.Table.mem_rowsUnder hfree, rank_mem_row hlt, List.mem_map]
  constructor
  · rintro ⟨⟨j, hj, rfl⟩, hcs⟩
    have hcell : OnBoard n (files.length, j) := ⟨hlt, hj⟩
    rw [row_rowOf hcell, h.disjoint_iff hcell] at hcs
    exact ⟨j, mem_safeFiles.mpr ⟨hj, hcs⟩, rfl⟩
  · rintro ⟨j, hj, rfl⟩
    rcases mem_safeFiles.mp hj with ⟨hjn, hapart⟩
    have hcell : OnBoard n (files.length, j) := ⟨hlt, hjn⟩
    rw [row_rowOf hcell, h.disjoint_iff hcell]
    exact ⟨⟨j, hjn, rfl⟩, hapart⟩

theorem Stands.concat (h : Stands n files cs) (hlt : files.length < n)
    (hj : j ∈ safeFiles n files) : Stands n (files ++ [j])
      (cs ++ [files.length] ++ (boardTable n).others (rowOf n (files.length, j)) files.length) := by
  have hcell : OnBoard n (files.length, j) := ⟨hlt, (mem_safeFiles.mp hj).1⟩
  have hrow : files.length ∈ (boardTable n).row (rowOf n (files.length, j)) :=
    (rank_mem_row hlt).mpr ⟨j, hcell.2, rfl⟩
  constructor
  · exact nonAttacking_concat.mpr ⟨h.nonAttacking, hj⟩
  · rwa [List.length_append, List.length_singleton]
  · intro c
    rw [(ordered_boardTable n).mem_append_others hrow, row_rowOf hcell, h.covered, queensOf_concat]
    simp only [List.mem_append, List.mem_singleton, or_and_right, exists_or, exists_eq_left]

def rowsOf (n : Nat) (files : List Nat) : List Nat := (queensOf files).map (rowOf n)

theorem rowsOf_concat (n : Nat) (files : List Nat) (j : Nat) :
    rowsOf n (files ++ [j]) = rowsOf n files ++ [rowOf n (files.length, j)] := by
  rw [rowsOf, queensOf_concat, List.map_append]
  rfl

theorem files_of_rowsOf (h : ∀ j ∈ files, j < n) :
    (rowsOf n files).map (fun r => (cellAt n r).2) = files := by
  rw [rowsOf, List.map_map]
  refine Eq.trans (List.map_congr_left fun q hq => ?_) (map_snd_queensOf files)
  exact congrArg Prod.snd (cellAt_rowOf (h _ (file_mem_of_mem hq)))

theorem rowsOf_inj {gs : List Nat} (h : ∀ j ∈ files, j < n) (h' : ∀ j ∈ gs, j < n)
    (he : rowsOf n files = rowsOf n gs) : files = gs := by
  rw [← files_of_rowsOf h, he, files_of_rowsOf h']

theorem added?_rowsOf {gs : List Nat} (h : ∀ j ∈ files, j < n) (h' : ∀ j ∈ gs, j < n) :
    added? (rowsOf n files) (rowsOf n gs) =
      (added? files gs).map fun j => rowOf n (files.length, j) := by
  ext r
  simp only [Option.map_eq_some_iff, added?_eq_some]
  constructor
  · intro hr
    rcases List.eq_nil_or_concat gs with rfl | ⟨hs, j, rfl⟩
    · simp [rowsOf, queensOf] at hr
    · rw [List.concat_eq_append] at h' hr ⊢
      rw [rowsOf_concat] at hr
      rcases List.append_inj' hr rfl with ⟨hrows, hlast⟩
      obtain rfl : hs = files :=
        rowsOf_inj (fun d hd => h' d (List.mem_append_left [j] hd)) h hrows
      exact ⟨j, rfl, List.singleton_inj.mp hlast⟩
  · rintro ⟨j, rfl, rfl⟩
    exact rowsOf_concat n files j

theorem cellsOf_rowsOf (h : NonAttacking n files) (hlength : files.length = n) :
    cellsOf n (rowsOf n files) = queensOf files := by
  have hcells : (rowsOf n files).map (cellAt n) = queensOf files := by
    rw [rowsOf, List.map_map]
    refine Eq.trans (List.map_congr_left fun q hq => ?_) (List.map_id _)
    exact cellAt_rowOf (h.onBoard hlength.le hq).2
  have hsorted : (queensOf files).Pairwise fun a b => cellLe a b = true := by
    have hranks : ((queensOf files).map Prod.fst).Pairwise (· < ·) := by
      rw [map_fst_queensOf]
      exact List.pairwise_lt_range
    refine (List.pairwise_map.mp hranks).imp fun hab => ?_
    simp [cellLe, hab]
  rw [cellsOf, hcells, List.mergeSort_of_pairwise hsorted]

end Queens

namespace Search

open Queens

variable {ω : Type} {visit : Visitor Constraint ω} {n : Nat} {task : Task}
  {m : CoverMatrix Constraint} {p p' : Progress Unit ω} {left : Except Rejection Signal}
  {gone : List (List Nat)}

inductive Goes (n : Nat) : Task → List (List Nat) → Prop
  | position {files cs : List Nat} {left : Nat} (h : Stands n files cs)
    (hleft : files.length + left = n) :
    Goes n (.position (rowsOf n files) cs) (partials n left files)
  | row {files cs : List Nat} {left j : Nat} (h : Stands n files cs)
    (hleft : files.length + (left + 1) = n) (hj : j ∈ safeFiles n files) :
    Goes n (.row (rowsOf n files) (cs ++ [files.length]) files.length (rowOf n (files.length, j)))
      (partials n left (files ++ [j]))
  | rows {files cs js rs : List Nat} {left : Nat} (h : Stands n files cs)
    (hleft : files.length + (left + 1) = n) (hjs : ∀ j ∈ js, j ∈ safeFiles n files)
    (hrs : rs = js.map fun j => rowOf n (files.length, j)) :
    Goes n (.rows (rowsOf n files) (cs ++ [files.length]) files.length rs)
      (js.flatMap fun j => partials n left (files ++ [j]))

/-- The leftmost search of a board enters the positions of the lists that it is to go through, in
this order, and finds those that reach the last rank. -/
theorem Explores.goes (h : Explores .leftmost visit (boardTable n) task m p left p')
    (hl : left = .ok .proceed) (hs : p.samples = none) (hg : Goes n task gone) :
    positions p'.events = (gone.map (rowsOf n)).reverse ++ positions p.events ∧
      found p'.events = ((complete n gone).map (rowsOf n)).reverse ++ found p.events := by
  induction h generalizing gone with
  | solved hu hactive _ =>
    cases hg with
    | @position files cs left hstands hleft =>
      cases left with
      | zero =>
        rw [complete_partials_zero hleft]
        exact ⟨rfl, rfl⟩
      | succ left =>
        rcases hstands.active_eq_cons (by omega) with ⟨rest, hrest⟩
        simp [hactive] at hrest
  | rejected _ _ _ => cases hl
  | @branched path cs m m₁ p p' s c left hu hr hc _ _ ih =>
    cases hg with
    | @position files _ left hstands hleft =>
      cases left with
      | zero =>
        rw [hstands.active_eq_nil hleft] at hc
        exact absurd hc List.not_mem_nil
      | succ left =>
        have hlt : files.length < n := by omega
        rcases hstands.active_eq_cons hlt with ⟨rest, hrest⟩
        obtain rfl : files.length = c := by
          simp only [BranchingRule.leftmost, hu.firstColumn hrest, bind, Except.bind, pure,
            Except.pure, Except.ok.injEq, Prod.mk.injEq] at hr
          exact hr.1
        rcases ih hl hs (.rows hstands hleft (fun j hj => hj) (hstands.rowsUnder_eq hlt)) with
          ⟨hpositions, hfound⟩
        rw [complete_partials_succ hlt]
        refine ⟨?_, hfound⟩
        rw [hpositions, partials, List.map_cons, List.reverse_cons, List.append_assoc]
        rfl
  | searched _ ha _ ih =>
    rcases Progress.accept_eq ha with ⟨samples, rfl, hsamples⟩
    cases hg with
    | @row files cs left j hstands hleft hj =>
      have hlt : files.length < n := by omega
      have hlength : (files ++ [j]).length + left = n := by
        rw [List.length_append, List.length_singleton]
        omega
      have hnext := Goes.position (hstands.concat hlt hj) hlength
      rw [rowsOf_concat] at hnext
      exact ih hl (hsamples hs).1 hnext
  | abandoned _ ha =>
    rcases Progress.accept_eq ha with ⟨samples, -, hsamples⟩
    exact Bool.noConfusion (hsamples hs).2
  | exhausted =>
    cases hg with
    | @rows files cs js _ left hstands hleft hjs hrs =>
      obtain rfl : js = [] := List.map_eq_nil_iff.mp hrs.symm
      exact ⟨rfl, rfl⟩
  | next hrow _ ih ihrest =>
    cases hg with
    | @rows files cs js _ left hstands hleft hjs hrs =>
      cases js with
      | nil => cases hrs
      | cons j js =>
        simp only [List.mem_cons, forall_eq_or_imp] at hjs
        rw [List.map_cons, List.cons.injEq] at hrs
        rcases hrs with ⟨rfl, rfl⟩
        rcases ih rfl hs (.row hstands hleft hjs.1) with ⟨hposition, hfound⟩
        rcases ihrest hl (hrow.unpruned hs).1 (.rows hstands hleft hjs.2 rfl) with
          ⟨hpositions, hfounds⟩
        rw [List.flatMap_cons]
        refine ⟨?_, ?_⟩
        · rw [hpositions, hposition, List.map_append, List.reverse_append, List.append_assoc]
        · rw [hfounds, hfound, complete_append, List.map_append, List.reverse_append,
            List.append_assoc]
  | ended _ hne _ => exact absurd hl hne

/-- The leftmost search of a board goes through the lists that backtracking goes through. -/
theorem leftmost_goes {visitor : ω}
    (hs : Searches .leftmost () visit visitor (boardTable n) [] m (.ok .proceed) p') :
    positions p'.events = ((partials n n []).map (rowsOf n)).reverse ∧
      found p'.events = ((complete n (partials n n [])).map (rowsOf n)).reverse ∧
      p'.nodes = (partials n n []).length := by
  rcases hs.goes rfl rfl (.position (.nil n) (Nat.zero_add n)) with ⟨hpositions, hfound⟩
  rw [positions_begin, List.append_nil] at hpositions
  rw [found_begin, List.append_nil] at hfound
  refine ⟨hpositions, hfound, ?_⟩
  rw [(hs.sound (sound_begin _ _ _ _)).nodes, calls_eq, hpositions, List.length_reverse,
    List.length_map]

theorem exists_leftmost_run (hm : m.Under (boardTable n) []) (hv : AlwaysProceeds visit)
    (visitor : ω) (hcount : (partials n n []).length < Word.modulus) :
    ∃ out, ∃ sols : List (Solution Constraint),
      BranchingRule.leftmost.run () visit visitor m = .ok out ∧
      out.result = .ok ⟨(complete n (partials n n [])).length, (partials n n []).length, 0, false⟩ ∧
      callAll visit sols visitor = .ok out.visitor ∧
      sols.map (·.rows) = (complete n (partials n n [])).map (rowsOf n) ∧
      Enumerates (sols.map (·.rows)) ((boardTable n).IsCover []) ∧
      positions out.events = (partials n n []).map (rowsOf n) := by
  have hr := alwaysChooses_leftmost (L := Constraint) (boardTable n) ()
  rcases exists_whole_search hm hr hv visitor with ⟨p', hs⟩
  rcases leftmost_goes hs with ⟨hpositions, hfound, hnodes⟩
  rcases searches_enumerate hm rfl hr hv hs with ⟨sols, hcalls, hvisited, hsolutions, henum⟩
  have hrows : sols.map (·.rows) = (complete n (partials n n [])).map (rowsOf n) :=
    List.reverse_inj.mp (hvisited.symm.trans hfound)
  have hlength : sols.length = (complete n (partials n n [])).length := by
    simpa using congrArg List.length hrows
  refine ⟨_, sols, hs.run_of_lt hm rfl (hnodes ▸ hcount), ?_, hcalls, hrows, henum, ?_⟩
  · simp [conclude, Progress.tally, hnodes, pruned_of_searches rfl hs, hsolutions, hlength]
  · rw [positions_conclude, hpositions, List.reverse_reverse]

/-- The rows that the search tried at the position with the given path, in order. -/
def offered (events : List Event) (path : List Nat) : List Nat :=
  (positions events).filterMap (added? path)

/-- At a position that the leftmost search enters before the last rank, the queens stand on the
first ranks, and it tries the cells of the next rank that backtracking finds safe. -/
theorem offered_rowsOf {events : List Event} {files : List Nat}
    (h : positions events = (partials n n []).map (rowsOf n)) (hfiles : NonAttacking n files)
    (hlt : files.length < n) : offered events (rowsOf n files) =
      (safeFiles n files).map fun j => rowOf n (files.length, j) := by
  have hadded : ∀ gs ∈ partials n n [], added? (rowsOf n files) (rowsOf n gs) =
      (added? files gs).map fun j => rowOf n (files.length, j) := fun gs hgs =>
    added?_rowsOf hfiles.inRange ((mem_partials (.nil n)).mp hgs).2.2.inRange
  rw [offered, h, List.filterMap_map, ← filterMap_added?_partials hfiles hlt, List.map_filterMap]
  exact List.filterMap_congr hadded

end Search

namespace Queens

open CoverMatrix Search

variable {n : Nat} {files : List Nat}

/-- At the position with the given path, the queens stand on the first ranks, and the rows tried are
the cells of the next rank that backtracking finds safe with these queens placed, file by file. -/
def TriesSafeCells (n : Nat) (events : List Event) (path : List Nat) : Prop :=
  ∃ (files safe : List Nat) (o : Occupancy), path = (queensOf files).map (rowOf n) ∧
    (∀ j ∈ files, j < n) ∧ (Occupancy.clear n).setAll n (queensOf files) = .ok o ∧
    offered events path = safe.map (fun j => rowOf n (path.length, j)) ∧ safe.Pairwise (· < ·) ∧
    ∀ j, j ∈ safe ↔ j < n ∧ o.isSafe n path.length j = .ok true

theorem triesSafeCells {events : List Event} {path : List Nat} (hn : 2 * n < Word.modulus)
    (h : positions events = (partials n n []).map (rowsOf n)) (hpath : path ∈ positions events)
    (hlt : path.length < n) : TriesSafeCells n events path := by
  rw [h] at hpath
  rcases List.mem_map.mp hpath with ⟨files, hfiles, rfl⟩
  have hnone : NonAttacking n files := ((mem_partials (.nil n)).mp hfiles).2.2
  have hlength : (rowsOf n files).length = files.length := by
    rw [rowsOf, List.length_map, length_queensOf]
  rw [hlength] at hlt
  refine ⟨files, safeFiles n files, Occupancy.of n (queensOf files) 0 0, rfl, hnone.inRange, ?_, ?_,
    safeFiles_ascending n files, ?_⟩
  · rw [Occupancy.clear_eq_of, Occupancy.setAll_of hn fun q => hnone.onBoard hlt.le]
    rfl
  · rw [offered_rowsOf h hnone hlt, hlength]
  · intro j
    rw [mem_safeFiles, hlength]
    apply and_congr_right
    intro hj
    have hfree : ∀ q ∈ queensOf files, q.1 ≠ files.length := fun q hq => (rank_lt_of_mem hq).ne
    rw [Occupancy.isSafe_of hn ⟨hlt, hj⟩ hfree, Except.ok.injEq, decide_eq_true_eq]

/-- The leftmost search of a board simulates plain backtracking: it counts the same, it goes rank by
rank through the cells that backtracking finds safe, and it visits the placements in lexicographic
order. -/
theorem leftmost_simulates_backtracking (hn : n < 2 ^ 31)
    (hcount : (partials n n []).length < Word.modulus) :
    ∃ m c, matrix n = .ok (.ok m) ∧ Queens.count n = .ok c ∧
      (∃ out, BranchingRule.leftmost.count () m = .ok out ∧
        out.result = .ok ⟨c.solutions, c.subproblems, 0, false⟩) ∧
      ∀ {ω : Type} {visit : Visitor Constraint ω} (visitor : ω), AlwaysProceeds visit →
        ∃ out, ∃ sols : List (Solution Constraint), ∃ placements,
          BranchingRule.leftmost.run () visit visitor m = .ok out ∧
          out.result = .ok ⟨c.solutions, c.subproblems, 0, false⟩ ∧
          callAll visit sols visitor = .ok out.visitor ∧
          (∀ path ∈ positions out.events, path.length < n → TriesSafeCells n out.events path) ∧
          sols.mapM (fun s => decode n s.rows) = .ok placements ∧
          (placements.map (·.map Prod.snd)).Pairwise (· < ·) := by
  have hword := two_mul_lt_modulus hn
  rcases exists_matrix hn with ⟨m, hm, hbuilt, -⟩
  have hall {ω : Type} {visit : Visitor Constraint ω} (visitor : ω) (hv : AlwaysProceeds visit) :=
    exists_leftmost_run hbuilt.under hv visitor hcount
  refine ⟨m, _, hm, count_eq hword hcount, ?_, ?_⟩
  · have hproceeds : AlwaysProceeds fun (_ : Solution Constraint) (_ : Unit) =>
        .ok (.proceed, ()) := fun _ _ => ⟨(), rfl⟩
    rcases hall () hproceeds with ⟨out, -, hrun, hresult, -⟩
    exact ⟨out, hrun, hresult⟩
  · intro ω visit visitor hv
    rcases hall visitor hv with ⟨out, sols, hrun, hresult, hcalls, hrows, henum, hpositions⟩
    have hlt := row_lt_of_enumerates henum
    refine ⟨out, sols, _, hrun, hresult, hcalls, fun path => triesSafeCells hword hpositions,
      mapM_decode hlt, ?_⟩
    have hfiles : ∀ files ∈ complete n (partials n n []),
        (cellsOf n (rowsOf n files)).map Prod.snd = files := by
      intro files hfiles
      rw [complete, List.mem_filter, mem_partials (.nil n), decide_eq_true_eq] at hfiles
      rw [cellsOf_rowsOf hfiles.1.2.2 hfiles.2, map_snd_queensOf]
    have hplaced : ((sols.map (·.rows)).map (cellsOf n)).map (·.map Prod.snd) =
        complete n (partials n n []) := by
      rw [hrows, List.map_map, List.map_map]
      exact (List.map_congr_left hfiles).trans (List.map_id' _)
    rw [hplaced]
    exact (partials_ascending (.nil n)).filter _

/-- On the board of four ranks, backtracking and the leftmost search look at 17 positions and count
two placements. -/
theorem leftmost_simulates_backtracking_four : (partials 4 4 []).length = 17 ∧
    ∃ m, matrix 4 = .ok (.ok m) ∧ Queens.count 4 = .ok ⟨2, 17⟩ ∧
      ∃ out, BranchingRule.leftmost.count () m = .ok out ∧ out.result = .ok ⟨2, 17, 0, false⟩ := by
  have hlength : (partials 4 4 []).length = 17 := by decide +kernel
  have hcount : (partials 4 4 []).length < Word.modulus := by
    rw [hlength]
    decide
  have hbacktracking : Queens.count 4 = .ok ⟨2, 17⟩ := by decide +kernel
  rcases leftmost_simulates_backtracking (by decide) hcount with
    ⟨m, c, hm, hc, ⟨out, hrun, hresult⟩, -⟩
  obtain rfl : ⟨2, 17⟩ = c := Except.ok.inj (hbacktracking.symm.trans hc)
  exact ⟨hlength, m, hm, hc, out, hrun, hresult⟩

end Queens

end DancingLinks
