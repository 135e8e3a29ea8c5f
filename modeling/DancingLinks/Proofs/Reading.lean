import DancingLinks.CoverMatrix.Choice
import DancingLinks.Proofs.Covering

/-! # What can be read off

A linked matrix of a table with some columns covered answers every question as the table does: which
columns are left, whether any is left, and which rows a column shows from top to bottom and from
bottom to top.
-/
namespace DancingLinks.CoverMatrix

open Links

variable {L : Type} {m : CoverMatrix L} {t : Table} {r c : Nat} {cs : List Nat}

theorem mapM_eq_map {α β : Type} {f : α → Except Fault β} {g : α → β} {xs : List α}
    (h : ∀ x ∈ xs, f x = .ok (g x)) : xs.mapM f = .ok (xs.map g) := by
  induction xs with
  | nil => rfl
  | cons x xs ih =>
    simp only [List.mem_cons, forall_eq_or_imp] at h
    rw [List.mapM_cons, h.1, ih h.2]
    rfl

theorem mapM_map_eq_self {α β : Type} {f : α → Except Fault β} {g : β → α} {xs : List β}
    (h : ∀ x ∈ xs, f (g x) = .ok x) : (xs.map g).mapM f = .ok xs := by
  have hself := @mapM_eq_map β β (f ∘ g) id xs h
  rw [List.mapM_map, hself, List.map_id]

theorem Under.activeColumns (h : m.Under t cs) : m.activeColumns = .ok (t.active cs) := by
  have hf : m.across.forward root = .ok ((t.active cs).map (· + 1)) := h.across.root.forward
  simp only [CoverMatrix.activeColumns, hf, bind, Except.bind, pure, Except.pure, List.map_map]
  congr 1
  exact List.map_id' _

def activeBackward (m : CoverMatrix L) : Except Fault (List Nat) := do
  let nodes ← m.across.backward root
  return nodes.map (· - 1)

theorem Under.activeBackward (h : m.Under t cs) :
    m.activeBackward = .ok (t.active cs).reverse := by
  have hb : m.across.backward root = .ok ((t.active cs).map (· + 1)).reverse :=
    h.across.root.backward
  simp only [CoverMatrix.activeBackward, hb, bind, Except.bind, pure, Except.pure,
    List.map_reverse, List.map_map]
  congr 2
  exact List.map_id' _

theorem Under.isSolved (h : m.Under t cs) : m.isSolved = .ok (decide (t.active cs = [])) := by
  rcases h.across.root.next_head with ⟨l, hl, hn⟩
  have hroot : m.across.link root = .ok l := hl
  simp only [CoverMatrix.isSolved, hroot, bind, Except.bind, pure, Except.pure]
  congr 1
  rw [hn]
  cases t.active cs <;> simp [root]

theorem Under.firstColumn {active : List Nat} (h : m.Under t cs) (ha : t.active cs = c :: active) :
    m.firstColumn = .ok (.ok c) := by
  rcases h.across.root.next_head with ⟨l, hl, hn⟩
  rw [ha] at hn
  have hnext : l.next = c + 1 := hn
  simp [CoverMatrix.firstColumn, root, hl, bind, Except.bind, pure, Except.pure, hnext]

theorem IsFrame.rowOf (h : m.IsFrame t) (hc : c ∈ t.row r) : m.rowOf (t.entry r c) = .ok r := by
  rw [CoverMatrix.rowOf, h.row r c hc]

theorem IsFrame.mapM_columnOf {ds : List Nat} (h : m.IsFrame t) (hd : ∀ d ∈ ds, d ∈ t.row r) :
    (ds.map (t.entry r)).mapM m.columnOf = .ok ds :=
  mapM_map_eq_self fun d hm => h.columnOf (hd d hm)

theorem Under.rowRing (h : m.Under t cs) (hr : r < t.rowCount)
    (hne : t.row r ≠ []) : ∃ first rest, m.rowHeads[r]? = some first ∧
      m.across.forward first = .ok rest ∧ m.across.backward first = .ok rest.reverse ∧
      (first :: rest).mapM m.columnOf = .ok (t.row r) ∧
      ∀ node ∈ first :: rest, m.rowOf node = .ok r := by
  obtain ⟨c, ds, hrow⟩ := List.exists_cons_of_ne_nil hne
  have hhead : m.rowHeads[r]? = some (t.start r) := by
    rw [← Array.getElem?_toList, h.rowHeads, List.getElem?_map, List.getElem?_range hr]
    rfl
  have hfirst : t.start r = t.entry r c := by
    rw [Table.entry, hrow, List.idxOf_cons_self, Nat.add_zero]
  have hring := h.across.rows r
  rw [Table.rowNodes, hrow, List.map_cons] at hring
  refine ⟨t.entry r c, ds.map (t.entry r), hfirst ▸ hhead, hring.forward, hring.backward, ?_, ?_⟩
  · rw [← List.map_cons, hrow]
    exact h.mapM_columnOf fun d hd => hrow ▸ hd
  · rw [← List.map_cons]
    intro node hnode
    obtain ⟨d, hd, rfl⟩ := List.mem_map.mp hnode
    exact h.rowOf (hrow ▸ hd)

/-- A row is read off from its first entry, if it has one. -/
theorem Under.rowColumns (h : m.Under t cs) (hr : r < t.rowCount) (hne : t.row r ≠ []) :
    m.rowColumns r = .ok (t.row r) := by
  obtain ⟨first, rest, hhead, hforward, -, hcolumns, -⟩ := h.rowRing hr hne
  simp only [CoverMatrix.rowColumns, hhead, hforward, hcolumns, bind, Except.bind]

/-- What comes after a node that is followed by the entries of `below`. -/
theorem IsFrame.nextInColumn_of_link (h : m.IsFrame t) {node : Nat} {below : List Nat}
    (hc : c < t.columnCount)
    (hl : ∃ l, m.down.link node = .ok l ∧ l.next = (below.map (t.entry · c)).head?.getD (c + 1)) :
    m.nextInColumn node = .ok (below.head?.map (t.entry · c)) := by
  rcases hl with ⟨l, hl, hn⟩
  simp only [CoverMatrix.nextInColumn, hl, bind, Except.bind, pure, Except.pure, hn,
    h.headers_size]
  cases below with
  | nil =>
    have hle : ¬ t.columnCount < c + 1 := by omega
    simp [hle]
  | cons r rs => simp [t.columnCount_lt_entry r c]

/-- The top entry of a column is the first row that it shows. -/
theorem Under.firstInColumn (h : m.Under t cs) (hc : c < t.columnCount) :
    m.firstInColumn c = .ok ((t.rowsUnder cs c).head?.map (t.entry · c)) := by
  have hlt := h.nodeCount_lt
  have hn : t.columnCount < t.nodeCount := t.columnCount_lt_start _
  simp only [CoverMatrix.firstInColumn, Word.add_of_lt (show c + 1 < Word.modulus by omega), bind,
    Except.bind]
  exact h.nextInColumn_of_link hc (h.down c hc).next_head

/-- The entry below another is the next row that the column shows. -/
theorem Under.nextInColumn {above below : List Nat} (h : m.Under t cs) (hc : c < t.columnCount)
    (hr : t.rowsUnder cs c = above ++ r :: below) :
    m.nextInColumn (t.entry r c) = .ok (below.head?.map (t.entry · c)) := by
  have hring := h.down c hc
  rw [Table.columnNodes, ← Table.rowsUnder, hr, List.map_append, List.map_cons] at hring
  exact h.nextInColumn_of_link hc hring.next_inside

/-- The top entry of the column covered last is the first row that it showed before. -/
theorem Under.firstInColumn_last (h : m.Under t (cs ++ [c])) (hc : c < t.columnCount)
    (hcs : c ∉ cs) : m.firstInColumn c = .ok ((t.rowsUnder cs c).head?.map (t.entry · c)) := by
  rw [h.firstInColumn hc, Table.rowsUnder_concat_self hcs]

theorem Under.length_rowsUnder_le (h : m.Under t cs) (hc : c < t.columnCount) :
    (t.rowsUnder cs c).length ≤ m.down.size := by
  rw [h.down_size]
  exact (h.length_shownRows_lt hc).le

theorem Under.length_rowsUnder_last_le (h : m.Under t (cs ++ [c])) (hc : c < t.columnCount)
    (hcs : c ∉ cs) : (t.rowsUnder cs c).length ≤ m.down.size := by
  rw [← Table.rowsUnder_concat_self hcs]
  exact h.length_rowsUnder_le hc

def rowsFrom (m : CoverMatrix L) : Nat → Option Nat → Except Fault (List Nat)
  | _, none => .ok []
  | 0, some _ => .error .endlessWalk
  | fuel + 1, some node => do
    let row ← m.rowOf node
    let next ← m.nextInColumn node
    let rest ← rowsFrom m fuel next
    return row :: rest

def rowsDown (m : CoverMatrix L) (column : Nat) : Except Fault (List Nat) := do
  let first ← m.firstInColumn column
  m.rowsFrom m.down.size first

def rowsUp (m : CoverMatrix L) (column : Nat) : Except Fault (List Nat) := do
  let nodes ← m.down.backward (column + 1)
  nodes.mapM m.rowOf

theorem Under.rowsFrom {above below : List Nat} {fuel : Nat} (h : m.Under t cs)
    (hc : c < t.columnCount) (hr : t.rowsUnder cs c = above ++ below) (hf : below.length ≤ fuel) :
    m.rowsFrom fuel (below.head?.map (t.entry · c)) = .ok below := by
  induction below generalizing above fuel with
  | nil => cases fuel <;> rfl
  | cons r rs ih =>
    cases fuel with
    | zero => simp at hf
    | succ fuel =>
      have hrow : c ∈ t.row r := Table.mem_row_of_rowsUnder hr
      have hrest : m.rowsFrom fuel (rs.head?.map (t.entry · c)) = .ok rs := by
        have hr' : t.rowsUnder cs c = (above ++ [r]) ++ rs := by rw [hr, List.append_cons]
        exact ih hr' (Nat.le_of_succ_le_succ hf)
      simp only [List.head?_cons, Option.map_some, CoverMatrix.rowsFrom, h.rowOf hrow,
        h.nextInColumn hc hr, hrest, bind, Except.bind]
      rfl

theorem Under.rowsDown (h : m.Under t cs) (hc : c < t.columnCount) :
    m.rowsDown c = .ok (t.rowsUnder cs c) := by
  simp only [CoverMatrix.rowsDown, h.firstInColumn hc, bind, Except.bind]
  exact h.rowsFrom hc (List.nil_append _).symm (h.length_rowsUnder_le hc)

theorem IsFrame.mapM_rowOf {rs : List Nat} (h : m.IsFrame t) (hr : ∀ r ∈ rs, c ∈ t.row r) :
    (rs.map (t.entry · c)).mapM m.rowOf = .ok rs :=
  mapM_map_eq_self fun i hi => h.rowOf (hr i hi)

theorem Under.rowsUp (h : m.Under t cs) (hc : c < t.columnCount) :
    m.rowsUp c = .ok (t.rowsUnder cs c).reverse := by
  have hb : m.down.backward (c + 1) = .ok ((t.rowsUnder cs c).map (t.entry · c)).reverse :=
    (h.down c hc).backward
  simp only [CoverMatrix.rowsUp, hb, bind, Except.bind]
  rw [← List.map_reverse]
  apply h.mapM_rowOf
  intro r hr
  exact (Table.mem_shownRows.mp (List.mem_reverse.mp hr)).1

end DancingLinks.CoverMatrix
