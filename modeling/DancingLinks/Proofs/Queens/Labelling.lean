import DancingLinks.Proofs.Accepting
import DancingLinks.Proofs.Queens.Cells
import DancingLinks.Proofs.Queens.Deciding

/-! # The lines of the columns

The columns of the matrix of a board are laid end to end: ranks, files, diagonals, anti-diagonals.
The row of a cell has its entries in the columns of its own four lines, in this order.
-/
namespace DancingLinks.Queens

open CoverMatrix

variable {n d : Nat} {q q' : Nat × Nat} {m : CoverMatrix Constraint} {t : DancingLinks.Table}
  {l : Constraint}

/-- A stretch of numbered columns among others. -/
theorem getElem?_stretch {α : Type} (before : List α) (column : Nat → α) (after : List α)
    {k size : Nat} (hk : k < size) :
    (before ++ (List.range size).map column ++ after)[before.length + k]? = some (column k) := by
  rw [List.append_assoc, List.getElem?_append_right (Nat.le_add_right _ _),
    Nat.add_sub_cancel_left, List.getElem?_append_left (by simpa using hk), List.getElem?_map,
    List.getElem?_range hk]
  rfl

theorem columnList_rank {i : Nat} (hi : i < n) : (columnList n)[i]? = some (.rank i, true) := by
  have h := getElem?_stretch [] (fun i => (Constraint.rank i, true))
    ((List.range n).map (fun j => (.file j, true)) ++
      ((List.range (2 * n - 1)).map (fun d => (.diagonal d, false)) ++
        (List.range (2 * n - 1)).map fun d => (.antiDiagonal d, false))) hi
  rw [columnList, List.append_assoc, List.append_assoc]
  simpa using h

theorem columnList_file {j : Nat} (hj : j < n) : (columnList n)[n + j]? = some (.file j, true) := by
  have h := getElem?_stretch ((List.range n).map fun i => (Constraint.rank i, true))
    (fun j => (Constraint.file j, true))
    ((List.range (2 * n - 1)).map (fun d => (.diagonal d, false)) ++
      (List.range (2 * n - 1)).map fun d => (.antiDiagonal d, false)) hj
  rw [List.length_map, List.length_range] at h
  rw [columnList, List.append_assoc]
  exact h

theorem columnList_diagonal (hd : d < 2 * n - 1) :
    (columnList n)[2 * n + d]? = some (.diagonal d, false) := by
  have h := getElem?_stretch ((List.range n).map (fun i => (Constraint.rank i, true)) ++
    (List.range n).map fun j => (.file j, true)) (fun d => (Constraint.diagonal d, false))
    ((List.range (2 * n - 1)).map fun d => (.antiDiagonal d, false)) hd
  rwa [List.length_append, List.length_map, List.length_map, List.length_range, ← Nat.two_mul] at h

theorem columnList_antiDiagonal (hd : d < 2 * n - 1) :
    (columnList n)[4 * n - 1 + d]? = some (.antiDiagonal d, false) := by
  have h := getElem?_stretch ((List.range n).map (fun i => (Constraint.rank i, true)) ++
    (List.range n).map (fun j => (.file j, true)) ++
    (List.range (2 * n - 1)).map fun d => (.diagonal d, false))
    (fun d => (Constraint.antiDiagonal d, false)) [] hd
  have hlength : n + n + (2 * n - 1) = 4 * n - 1 := by omega
  simp only [List.length_append, List.length_map, List.length_range, hlength,
    List.append_nil] at h
  exact h

theorem length_columnList (n : Nat) : (columnList n).length = if n = 0 then 0 else 6 * n - 2 := by
  simp only [columnList, List.length_append, List.length_map, List.length_range]
  split <;> omega

theorem primary_columnList {p : Bool} (h : (l, p) ∈ columnList n) :
    p = true ↔ ∃ k < n, l = .rank k ∨ l = .file k := by
  simp only [columnList, List.mem_append, List.mem_map, List.mem_range, Prod.mk.injEq] at h
  rcases h with ((⟨i, hi, rfl, rfl⟩ | ⟨j, hj, rfl, rfl⟩) | ⟨d, -, rfl, rfl⟩) | ⟨d, -, rfl, rfl⟩
  · simpa using hi
  · simpa using hj
  · simp
  · simp

def cellLines (n : Nat) (q : Nat × Nat) : List Constraint :=
  [.rank q.1, .file q.2, .diagonal (q.1 + q.2), .antiDiagonal (n - 1 - q.1 + q.2)]

def lineColumn (n : Nat) : Constraint → Nat
  | .rank i => i
  | .file j => n + j
  | .diagonal d => 2 * n + d
  | .antiDiagonal d => 4 * n - 1 + d

theorem lines_eq_map (h : OnBoard n q) : lines n q = (cellLines n q).map (lineColumn n) := by
  have hanti : 5 * n - 2 - q.1 + q.2 = 4 * n - 1 + (n - 1 - q.1 + q.2) := by
    obtain ⟨hi, -⟩ := h
    omega
  rw [lines, hanti, Nat.add_assoc (2 * n)]
  rfl

/-- The column of each line of a cell bears this line. -/
theorem columnList_lineColumn (h : OnBoard n q) (hl : l ∈ cellLines n q) :
    ∃ primary, (columnList n)[lineColumn n l]? = some (l, primary) := by
  simp only [cellLines, List.mem_cons, List.not_mem_nil, or_false] at hl
  rcases hl with rfl | rfl | rfl | rfl
  · exact ⟨true, columnList_rank h.1⟩
  · exact ⟨true, columnList_file h.2⟩
  · exact ⟨false, columnList_diagonal (diagonal_lt h)⟩
  · exact ⟨false, columnList_antiDiagonal (antiDiagonal_lt h)⟩

theorem label_lineColumn (hm : m.Shows (columnList n) t) (h : OnBoard n q)
    (hl : l ∈ cellLines n q) : m.label (lineColumn n l) = .ok l := by
  obtain ⟨primary, hc⟩ := columnList_lineColumn h hl
  simp only [CoverMatrix.label, hm.header _ l primary hc, bind, Except.bind]
  rfl

theorem shared_column_iff (hm : m.Shows (columnList n) t) (h : OnBoard n q) (h' : OnBoard n q') :
    (∃ c ∈ lines n q, c ∈ lines n q' ∧ m.label c = .ok l) ↔
      l ∈ cellLines n q ∧ l ∈ cellLines n q' := by
  have hline {q : Nat × Nat} {c : Nat} (h : OnBoard n q) (hc : c ∈ lines n q)
      (hl : m.label c = .ok l) : l ∈ cellLines n q := by
    rw [lines_eq_map h, List.mem_map] at hc
    obtain ⟨l', hl', rfl⟩ := hc
    obtain rfl := Except.ok.inj ((label_lineColumn hm h hl').symm.trans hl)
    exact hl'
  constructor
  · rintro ⟨c, hc, hc', hl⟩
    exact ⟨hline h hc hl, hline h' hc' hl⟩
  · rintro ⟨hl, hl'⟩
    rw [lines_eq_map h, lines_eq_map h']
    exact ⟨_, List.mem_map_of_mem hl, List.mem_map_of_mem hl', label_lineColumn hm h hl⟩

theorem labels_addCells {cells : List (Nat × Nat)} {m' : CoverMatrix Constraint}
    (h : addCells n cells m = .ok (.ok m')) : m'.labels = m.labels := by
  induction cells generalizing m with
  | nil =>
    cases h
    rfl
  | cons q rest ih =>
    rw [addCells] at h
    obtain ⟨entries, -, h⟩ := bind_eq_ok.mp h
    obtain ⟨⟨answer, m₁⟩, h₁, h⟩ := bind_eq_ok.mp h
    cases answer with
    | error r => cases h
    | ok id => exact (ih h).trans (labels_addRow h₁)

theorem exists_matrix_keeps (hn : n < 2 ^ 31) :
    ∃ m, matrix n = .ok (.ok m) ∧ m.Keeps (columnList n) ⟨boardTable n, true⟩ := by
  obtain ⟨m, hm, hbuilt, hclosed⟩ := exists_matrix hn
  refine ⟨m, hm, hbuilt.under, ?_, (map_primary_columnList n).symm, hbuilt.row_ne_nil, hclosed⟩
  rw [matrix, openMatrix, columns_eq hn] at hm
  obtain ⟨answer, hopen, hm⟩ := bind_eq_ok.mp hm
  obtain ⟨_, ⟨⟩, hopen⟩ := bind_eq_ok.mp hopen
  obtain ⟨start, hstart, hopen⟩ := bind_eq_ok.mp hopen
  cases start with
  | error r =>
    cases hopen
    cases hm
  | ok m₀ =>
    cases answer with
    | error r => cases hm
    | ok m₁ =>
      cases hm
      exact (labels_addCells hopen).trans (labels_ofColumns hstart)

/-- The row of a cell, as it is computed and as the matrix has it. -/
structure IsCellRow (n : Nat) (m : CoverMatrix Constraint) (i j : Nat) (entries : List Nat) :
    Prop where
  computed : rowFor n i j = .ok entries
  ascending : entries.Pairwise (· < ·)
  inRange : ∀ c ∈ entries, c < m.columnCount
  labels : entries.mapM m.label =
    .ok [.rank i, .file j, .diagonal (i + j), .antiDiagonal (n - 1 - i + j)]
  row : m.rowColumns (i * n + j) = .ok entries
  cell : cellOf n (i * n + j) = .ok (i, j)

theorem isCellRow_lines {i j : Nat} (hn : n < 2 ^ 31) (hm : m.Shows (columnList n) (boardTable n))
    (h : OnBoard n (i, j)) : IsCellRow n m i j (lines n (i, j)) where
  computed := by
    apply rowFor_eq _ h
    rw [Word.modulus_eq]
    omega
  ascending := lines_ascending h
  inRange := by
    have hi : i < n := h.1
    rw [hm.columnCount, length_columnList, if_neg (by omega)]
    exact fun c hc => lt_of_mem_lines h hc
  labels := by
    rw [lines_eq_map h]
    exact mapM_map_eq_self fun l hl => label_lineColumn hm h hl
  row := by
    have hrow := hm.row (rowOf n (i, j)) ((rowOf_lt h).trans_eq (rowCount_boardTable n).symm)
    rwa [row_rowOf h] at hrow
  cell := (cellOf_eq (rowOf_lt h)).trans (congrArg _ (cellAt_rowOf h.2))

/-- Every board has a closed matrix with a row for each cell and a column for each line, no two with
the same label, of which the ranks and files are primary. The row of a cell is computed without a
fault, it is the one whose id is that of the cell, and its entries stand in the columns of the
cell's rank, file, diagonal and anti-diagonal, in this order. -/
theorem matrix_labels_lines (hn : n < 2 ^ 31) : ∃ m, matrix n = .ok (.ok m) ∧
    m.isClosed = true ∧ m.rowCount = n * n ∧ m.columnCount = (if n = 0 then 0 else 6 * n - 2) ∧
    m.labels.Nodup ∧ m.primaryCount = 2 * n ∧
    (∀ c < m.columnCount, ∃ h, m.header c = .ok h ∧
      (h.primary = true ↔ ∃ k < n, h.label = .rank k ∨ h.label = .file k)) ∧
    (∀ i j, i < n → j < n → ∃ entries, IsCellRow n m i j entries) ∧
    ∀ i j i' j' entries entries', i < n → j < n → i' < n → j' < n →
      IsCellRow n m i j entries → IsCellRow n m i' j' entries' →
      ((∃ d, ∃ c ∈ entries, c ∈ entries' ∧ m.label c = .ok (.diagonal d)) ↔ i + j = i' + j') ∧
      ((∃ d, ∃ c ∈ entries, c ∈ entries' ∧ m.label c = .ok (.antiDiagonal d)) ↔
        (j : ℤ) - i = j' - i') := by
  obtain ⟨m, hm, hkeeps⟩ := exists_matrix_keeps hn
  have hshows := hkeeps.shows
  refine ⟨m, hm, hkeeps.isClosed, ?_, ?_, ?_, ?_, ?_, ?_, ?_⟩
  · exact hshows.rowCount.trans (rowCount_boardTable n)
  · exact hshows.columnCount.trans (length_columnList n)
  · rw [hkeeps.labels]
    exact nodup_columnList n
  · have hcount : m.primaryCount = (m.headers.toList.map (·.primary)).countP id := by
      rw [List.countP_map, primaryCount, ← Array.countP_toList]
      rfl
    rw [hcount, hkeeps.under.primary, boardTable, List.countP_append, List.countP_replicate,
      List.countP_replicate]
    simp
  · intro c hc
    rw [hshows.columnCount] at hc
    have hcolumn : (columnList n)[c]? = some (columnList n)[c] := List.getElem?_eq_getElem hc
    exact ⟨_, hshows.header c _ _ hcolumn, primary_columnList (List.getElem_mem hc)⟩
  · exact fun i j hi hj => ⟨_, isCellRow_lines hn hshows ⟨hi, hj⟩⟩
  · intro i j i' j' entries entries' hi hj hi' hj' h h'
    obtain rfl :=
      Except.ok.inj (h.computed.symm.trans (isCellRow_lines hn hshows ⟨hi, hj⟩).computed)
    obtain rfl :=
      Except.ok.inj (h'.computed.symm.trans (isCellRow_lines hn hshows ⟨hi', hj'⟩).computed)
    have hboard : OnBoard n (i, j) := ⟨hi, hj⟩
    have hboard' : OnBoard n (i', j') := ⟨hi', hj'⟩
    rw [← antiDiagonal_eq_iff hboard hboard']
    simp only [shared_column_iff hshows hboard hboard']
    simp [cellLines]

/-- The cell on rank 1 and file 2 of a board of four ranks. -/
theorem matrix_labels_lines_four : ∃ m, matrix 4 = .ok (.ok m) ∧ m.columnCount = 22 ∧
    m.primaryCount = 8 ∧ IsCellRow 4 m 1 2 [1, 6, 11, 19] := by
  have hfour : (4 : Nat) < 2 ^ 31 := by decide
  obtain ⟨m, hm, -, -, hcolumns, -, hprimary, -, hcells, -⟩ := matrix_labels_lines hfour
  obtain ⟨entries, h⟩ := hcells 1 2 (by decide) (by decide)
  have hrow : rowFor 4 1 2 = .ok [1, 6, 11, 19] := rfl
  obtain rfl : entries = [1, 6, 11, 19] := Except.ok.inj (h.computed.symm.trans hrow)
  exact ⟨m, hm, hcolumns, hprimary, h⟩

end DancingLinks.Queens
