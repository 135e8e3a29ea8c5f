import DancingLinks.Proofs.Covering

/-! # Building a matrix

A matrix built from a list of columns by adding rows stands for the table of its columns and its
accepted rows, with nothing covered. A row is added entry by entry, so between two entries the
table ends with a row that is not complete.
-/
namespace DancingLinks.CoverMatrix

open Links

variable {L : Type} {m m' : CoverMatrix L} {t : Table} {c removed : Nat} {active done : List Nat}
  {shown : Table.Shown}

/-- A matrix is built by listing its columns, adding rows and closing it. -/
inductive Built [DecidableEq L] : CoverMatrix L → Table → Prop
  | ofColumns {columns : List (L × Bool)} {m : CoverMatrix L}
    (h : CoverMatrix.ofColumns columns = .ok (.ok m)) : Built m (.ofColumns (columns.map Prod.snd))
  | addRow {m m' : CoverMatrix L} {t : Table} {entries : List Nat} {id : Nat} (hm : Built m t)
    (h : m.addRow entries = .ok (.ok id, m')) : Built m' (t.push entries)
  | close {m : CoverMatrix L} {t : Table} (hm : Built m t) : Built m.close t

theorem isAcross_appendHeader {across : Links} {ps : List Bool} (hs : across.size = ps.length + 1)
    (h : IsAcross across (.ofColumns ps) ((Table.ofColumns ps).active [])) (p : Bool) :
    ∃ across', appendHeader across p = .ok across' ∧ across'.size = (ps ++ [p]).length + 1 ∧
      IsAcross across' (.ofColumns (ps ++ [p])) ((Table.ofColumns (ps ++ [p])).active []) := by
  have hnode : IsRing across.addNode ↑[across.size] := isRing_addNode
  have hrows (links : Links) (r : Nat) :
      IsRing links ↑((Table.ofColumns (ps ++ [p])).rowNodes r) := by
    rw [Table.rowNodes, Table.row_ofColumns]
    exact isRing_nil _
  cases p with
  | true =>
    have hfresh : across.size ∉ 0 :: ((Table.ofColumns ps).active []).map (· + 1) := by
      rw [List.mem_cons, List.mem_map]
      rintro (h0 | ⟨a, ha, hsa⟩)
      · omega
      · have hlt := (Table.mem_active.mp ha).1.lt
        rw [Table.columnCount_ofColumns] at hlt
        omega
    rcases h.root.addNode.insertBefore hnode hfresh with ⟨across', hi, hs', hroot, hother⟩
    refine ⟨across', ?_, ?_, hrows across', ?_, ?_⟩
    · simp only [appendHeader, if_true]
      exact hi
    · simp [hs', hs]
    · rw [Table.active_ofColumns_concat, if_pos rfl, List.map_append, List.map_singleton, ← hs]
      exact hroot
    · intro d hd hdp
      rw [Table.isPrimary_ofColumns_concat, not_or] at hdp
      have hdlt : d < ps.length := by
        have hne : d ≠ ps.length := fun heq => hdp.2 ⟨heq, rfl⟩
        simp at hd
        omega
      apply hother _ (h.aside d hdlt hdp.1).addNode
      intro x hx
      rw [Cycle.mem_coe_iff, List.mem_singleton] at hx
      subst hx
      constructor
      · rw [List.mem_cons, List.mem_map]
        rintro (h0 | ⟨a, ha, had⟩)
        · omega
        · have had' : a = d := by omega
          exact hdp.1 (had' ▸ (Table.mem_active.mp ha).1)
      · omega
  | false =>
    refine ⟨across.addNode, rfl, by simp [hs], hrows _, ?_, ?_⟩
    · rw [Table.active_ofColumns_concat]
      simpa using h.root.addNode
    · intro d hd hdp
      rw [Table.isPrimary_ofColumns_concat, not_or] at hdp
      by_cases hdl : d = ps.length
      · subst hdl
        rw [← hs]
        exact hnode
      · have hdlt : d < ps.length := by
          simp at hd
          omega
        exact (h.aside d hdlt hdp.1).addNode

theorem isAcross_foldlM {across : Links} {ps : List Bool} (qs : List Bool)
    (hs : across.size = ps.length + 1)
    (h : IsAcross across (.ofColumns ps) ((Table.ofColumns ps).active [])) :
    ∃ across', qs.foldlM appendHeader across = .ok across' ∧
      across'.size = (ps ++ qs).length + 1 ∧
      IsAcross across' (.ofColumns (ps ++ qs)) ((Table.ofColumns (ps ++ qs)).active []) := by
  induction qs generalizing across ps with
  | nil =>
    rw [List.append_nil]
    exact ⟨across, rfl, hs, h⟩
  | cons q qs ih =>
    rcases isAcross_appendHeader hs h q with ⟨across₁, ha, hs₁, h₁⟩
    rcases ih hs₁ h₁ with ⟨across', hf, hs', h'⟩
    rw [List.append_assoc, List.singleton_append] at hs' h'
    rw [List.foldlM_cons, ha]
    exact ⟨across', hf, hs', h'⟩

theorem ordered_ofColumns (ps : List Bool) : (Table.ofColumns ps).Ordered :=
  ⟨fun _ h => absurd h List.not_mem_nil, fun _ h => absurd h List.not_mem_nil⟩

theorem isAcross_root : IsAcross #[Link.alone root] (.ofColumns []) ((Table.ofColumns []).active [])
    := by
  constructor
  · intro r
    rw [Table.rowNodes, Table.row_ofColumns]
    exact isRing_nil _
  · exact isRing_singleton.mpr rfl
  · intro c hc
    exact absurd hc (Nat.not_lt_zero c)

theorem represents_ofColumns [DecidableEq L] {columns : List (L × Bool)}
    (h : CoverMatrix.ofColumns columns = .ok (.ok m)) :
    m.Represents (.ofColumns (columns.map Prod.snd)) (fun _ _ => true)
      ((Table.ofColumns (columns.map Prod.snd)).active []) 0 := by
  rcases isAcross_foldlM (columns.map Prod.snd) rfl isAcross_root with ⟨across, hf, hs, hacross⟩
  rw [List.nil_append] at hs hacross
  rw [CoverMatrix.ofColumns] at h
  cases hrep : firstRepeat [] (columns.map Prod.fst) with
  | some index => simp [hrep] at h
  | none =>
    simp only [hrep] at h
    split at h
    case isFalse => simp at h
    case isTrue hnodes =>
      simp only [hf, bind, Except.bind, pure, Except.pure, Except.ok.injEq] at h
      subst h
      exact {
        ordered := ordered_ofColumns _
        primary := by simp [Table.ofColumns]
        across_size := hs
        down_size := by simp
        column_size := by simp
        row_size := by simp
        column := by simp
        row := by simp
        rowHeads := rfl
        nodeCount_lt := by
          rw [Table.nodeCount_ofColumns, List.length_map]
          exact hnodes
        across := hacross
        down := by
          intro c hc
          rw [Table.columnCount_ofColumns, List.length_map] at hc
          rw [Table.columnNodes, Table.shownRows_ofColumns, List.map_nil, isRing_singleton]
          simp [hc]
        sizes := by simp
        removedRows := rfl }

/-- No label stands twice in a list without a repeat, nor does one seen before. -/
theorem firstRepeat_eq_none [DecidableEq L] {seen labels : List L} :
    firstRepeat seen labels = none ↔ labels.Nodup ∧ ∀ l ∈ labels, l ∉ seen := by
  induction labels generalizing seen with
  | nil => simp [firstRepeat]
  | cons l rest ih =>
    rw [firstRepeat]
    split_ifs with hl
    · simp [hl]
    · rw [ih, List.nodup_cons]
      simp only [List.mem_cons, not_or, forall_eq_or_imp]
      constructor
      · rintro ⟨hn, hrest⟩
        exact ⟨⟨fun hm => (hrest l hm).1 rfl, hn⟩, hl, fun x hx => (hrest x hx).2⟩
      · rintro ⟨⟨hlr, hn⟩, -, hrest⟩
        exact ⟨hn, fun x hx => ⟨fun he => hlr (he ▸ hx), hrest x hx⟩⟩

theorem exists_ofColumns [DecidableEq L] {columns : List (L × Bool)}
    (hl : (columns.map Prod.fst).Nodup) (hnodes : columns.length + 1 < Word.modulus) :
    ∃ m, CoverMatrix.ofColumns columns = .ok (.ok m) ∧ m.isClosed = false := by
  rcases isAcross_foldlM (columns.map Prod.snd) rfl isAcross_root with ⟨across, hf, -, -⟩
  have hrep : firstRepeat [] (columns.map Prod.fst) = none :=
    firstRepeat_eq_none.mpr ⟨hl, fun _ _ => List.not_mem_nil⟩
  simp only [CoverMatrix.ofColumns, hrep, if_pos hnodes, hf, bind, Except.bind]
  exact ⟨_, rfl, rfl⟩

/-- A new entry at the bottom of its column. -/
theorem isDown_append {down : Links} (hs : down.size = (t.push done).nodeCount)
    (h : IsDown down (t.push done) shown) (hc : c < t.columnCount) (hcd : c ∉ done)
    (hshown : shown t.rowCount c = true) :
    ∃ down', down.addNode.insertBefore (c + 1) down.size = .ok down' ∧
      down'.size = (t.push (done ++ [c])).nodeCount ∧
      IsDown down' (t.push (done ++ [c])) shown := by
  have hnode : IsRing down.addNode ↑[down.size] := isRing_addNode
  have hold : ∀ d < t.columnCount, down.size ∉ (d + 1) :: (t.push done).columnNodes shown d :=
    fun d hd hm => (lt_irrefl _ ((h d hd).lt_size _ hm)).elim
  rcases (h c hc).addNode.insertBefore hnode (hold c hc) with ⟨down', hi, hs', hring, hother⟩
  have hcount : down'.size = (t.push (done ++ [c])).nodeCount := by
    rw [hs', size_addNode, hs, Table.nodeCount_push, Table.nodeCount_push, List.length_append]
    rfl
  have hdown : IsDown down' (t.push (done ++ [c])) shown := by
    intro d hd
    rw [Table.columnNodes_push_concat hcd hshown]
    by_cases hdc : d = c
    · subst hdc
      rw [if_pos rfl, ← hs]
      exact hring
    · rw [if_neg hdc, List.append_nil]
      apply hother _ (h d hd).addNode
      intro x hx
      constructor
      · exact Table.columns_disjoint (t := t.push done) hc hd hdc x hx
      · rintro rfl
        exact hold d hd hx
  exact ⟨down', hi, hcount, hdown⟩

/-- The links across after an entry more, if the last row rings with it and the nodes before that
row ring as they did. -/
theorem isAcross_concat {across across' : Links} (hs : across.size = (t.push done).nodeCount)
    (h : IsAcross across (t.push done) active) (hp : ∀ a ∈ active, t.IsPrimary a)
    (hcd : c ∉ done)
    (hlast : IsRing across' ↑((t.push done).rowNodes t.rowCount ++ [across.size]))
    (hrest : ∀ xs : List Nat, IsRing across ↑xs → (∀ x ∈ xs, x < t.nodeCount) →
      IsRing across' ↑xs) : IsAcross across' (t.push (done ++ [c])) active := by
  have hheaders : t.columnCount < t.nodeCount := t.columnCount_lt_start _
  constructor
  · intro r
    by_cases hr : r = t.rowCount
    · subst hr
      rwa [Table.rowNodes_push_concat_self hcd, ← hs]
    · rw [Table.rowNodes_push_concat hr]
      apply hrest _ (h.rows r)
      intro x hx
      rw [Table.rowNodes, Table.row_push, if_neg hr, List.mem_map] at hx
      rcases hx with ⟨d, hd, rfl⟩
      rw [Table.entry_push _ (Table.lt_rowCount_of_mem hd)]
      exact Table.entry_lt_nodeCount hd
  · apply hrest _ h.root
    intro x hx
    rw [List.mem_cons, List.mem_map] at hx
    rcases hx with rfl | ⟨a, ha, rfl⟩
    · omega
    · have := (hp a ha).lt
      omega
  · intro d hd hdp
    apply hrest _ (h.aside d hd hdp)
    intro x hx
    rw [List.mem_singleton] at hx
    rw [Table.columnCount_push] at hd
    omega

/-- A new entry at the end of its row. -/
theorem isAcross_append {across : Links} (hs : across.size = (t.push done).nodeCount)
    (h : IsAcross across (t.push done) active) (hp : ∀ a ∈ active, t.IsPrimary a)
    (hcd : c ∉ done) :
    ∃ across', (if across.size = t.nodeCount then pure across.addNode
        else across.addNode.insertBefore t.nodeCount across.size) = Except.ok (ε := Fault) across' ∧
      across'.size = (t.push (done ++ [c])).nodeCount ∧
      IsAcross across' (t.push (done ++ [c])) active := by
  have hnode : IsRing across.addNode ↑[across.size] := isRing_addNode
  have hsize : across.size + 1 = (t.push (done ++ [c])).nodeCount := by
    rw [hs, Table.nodeCount_push, Table.nodeCount_push, List.length_append]
    rfl
  cases done with
  | nil =>
    have hfirst : across.size = t.nodeCount := hs.trans (Table.nodeCount_push t [])
    rw [if_pos hfirst]
    refine ⟨across.addNode, rfl, by rw [size_addNode, hsize], ?_⟩
    apply isAcross_concat hs h hp hcd
    · rw [Table.rowNodes, Table.row_push, if_pos rfl]
      exact hnode
    · exact fun _ hxs _ => hxs.addNode
  | cons e es =>
    have hrow := t.rowNodes_push_self e es
    have hfirst : across.size ≠ t.nodeCount := by
      rw [hs, Table.nodeCount_push, List.length_cons]
      omega
    have hring := h.rows t.rowCount
    rw [hrow] at hring
    have hfresh : across.size ∉ t.nodeCount :: es.map ((t.push (e :: es)).entry t.rowCount) :=
      fun hm => (lt_irrefl _ (hring.lt_size _ hm)).elim
    rcases hring.addNode.insertBefore hnode hfresh with ⟨across', hi, hs', hlast, hother⟩
    rw [if_neg hfirst]
    refine ⟨across', hi, hs'.trans (size_addNode.trans hsize), ?_⟩
    apply isAcross_concat hs h hp hcd
    · rwa [hrow]
    · intro xs hxs hlt
      apply hother _ hxs.addNode
      intro x hx
      have hx := hlt x (Cycle.mem_coe_iff.mp hx)
      constructor
      · rw [List.mem_cons, List.mem_map]
        rintro (rfl | ⟨d, -, rfl⟩)
        · omega
        · rw [Table.entry_push_self] at hx
          omega
      · rw [hs, Table.nodeCount_push]
        omega

/-- What an array says about the entries, after the new entry is added to it. -/
theorem getElem?_push_entry {α : Type} {xs : Array α} {f : Nat → Nat → α} (hcd : c ∉ done)
    (hs : xs.size = (t.push done).nodeCount)
    (h : ∀ r d, d ∈ (t.push done).row r → xs[(t.push done).entry r d]? = some (f r d)) :
    ∀ r d, d ∈ (t.push (done ++ [c])).row r →
      (xs.push (f t.rowCount c))[(t.push (done ++ [c])).entry r d]? = some (f r d) := by
  intro r d hd
  rcases Table.mem_row_push_concat.mp hd with hd | ⟨rfl, rfl⟩
  · have hlt := Table.entry_lt_nodeCount hd
    rw [← hs] at hlt
    rw [Table.entry_push_concat hd, Array.getElem?_push_lt hlt, ← Array.getElem?_eq_getElem hlt]
    exact h r d hd
  · rw [Table.entry_push_new hcd, ← hs]
    exact Array.getElem?_push_size

def beginRow (m : CoverMatrix L) (first : Nat) : CoverMatrix L :=
  { m with rowHeads := m.rowHeads.push first }

theorem Represents.append_step
    (h : (m.beginRow t.nodeCount).Represents (t.push done) shown active removed)
    (hp : ∀ a ∈ active, t.IsPrimary a) (hc : c < t.columnCount) (hd : ∀ d ∈ done, d < c)
    (hshown : shown t.rowCount c = true)
    (hroom : m.down.size + 1 < Word.modulus) :
    ∃ m', appendEntry t.rowCount t.nodeCount m c = .ok m' ∧ m'.isClosed = m.isClosed ∧
      (m'.beginRow t.nodeCount).Represents (t.push (done ++ [c])) shown active removed := by
  have hcd : c ∉ done := fun hm => lt_irrefl c (hd c hm)
  have hcm : c < m.headers.size := hc.trans_eq h.headers_size.symm
  have hdown : m.down.size = (t.push done).nodeCount := h.down_size
  have hacross : m.across.size = (t.push done).nodeCount := h.across_size
  rcases isDown_append hdown h.down hc hcd hshown with ⟨down', hdi, hds, hd'⟩
  rcases isAcross_append hacross h.across hp hcd with ⟨across', hai, has, ha'⟩
  have hcount : (t.push (done ++ [c])).nodeCount = (t.push done).nodeCount + 1 := by
    rw [Table.nodeCount_push, Table.nodeCount_push, List.length_append]
    rfl
  have hresize : resize m.headers c (Word.add · 1) =
      .ok (setSize m.headers c (m.headers[c].size + 1)) := by
    apply resize_of_lt hcm
    apply Word.add_of_lt
    have hsize : m.headers[c].size = ((t.push done).shownRows shown c).length := h.sizes c hcm
    have hlt := h.length_shownRows_lt hc
    rw [hdown] at hroom
    omega
  rw [← hdown.trans hacross.symm] at hai
  refine ⟨⟨setSize m.headers c (m.headers[c].size + 1), across', down', m.column.push c,
    m.row.push (some t.rowCount), m.rowHeads, m.removedRows, m.isClosed⟩, ?_, rfl, ?_⟩
  · simp only [appendEntry, Word.add_of_lt hroom, hdi, hresize, bind, Except.bind]
    by_cases hf : m.down.size = t.nodeCount
    · rw [if_pos hf] at hai ⊢
      rw [hai]
      rfl
    · rw [if_neg hf] at hai ⊢
      rw [hai]
      rfl
  · exact {
      ordered := h.ordered.push_concat hd hc
      primary := by rw [beginRow, map_primary_setSize]; exact h.primary
      across_size := has
      down_size := hds
      column_size := by
        rw [hcount, ← h.column_size]
        exact Array.size_push c
      row_size := by
        rw [hcount, ← h.row_size]
        exact Array.size_push (some t.rowCount)
      column := getElem?_push_entry (f := fun _ d => d) hcd h.column_size h.column
      row := getElem?_push_entry (f := fun r _ => some r) hcd h.row_size h.row
      rowHeads := by
        rw [Table.map_start_push, ← t.map_start_push done]
        exact h.rowHeads
      nodeCount_lt := by rw [hcount, ← hdown]; exact hroom
      across := ha'
      down := hd'
      sizes := by
        intro i hi
        have hi' : i < m.headers.size := by simpa [beginRow] using hi
        have hold : m.headers[i].size = ((t.push done).shownRows shown i).length := h.sizes i hi'
        simp only [beginRow]
        rw [getElem_setSize hi', Table.shownRows_push_concat hcd hshown]
        by_cases hic : i = c
        · subst hic
          simp [hold]
        · simp [hic, Ne.symm hic, hold]
      removedRows := h.removedRows }

theorem Represents.append_row {rest : List Nat}
    (h : (m.beginRow t.nodeCount).Represents (t.push done) shown active removed)
    (hp : ∀ a ∈ active, t.IsPrimary a) (hasc : (done ++ rest).Pairwise (· < ·))
    (hc : ∀ c ∈ rest, c < t.columnCount) (hshown : ∀ c, shown t.rowCount c = true)
    (hm : rest.foldlM (appendEntry t.rowCount t.nodeCount) m = .ok m') :
    (m'.beginRow t.nodeCount).Represents (t.push (done ++ rest)) shown active removed := by
  induction rest generalizing m done with
  | nil =>
    cases hm
    rwa [List.append_nil]
  | cons c rest ih =>
    have hd : ∀ d ∈ done, d < c := fun d hd =>
      (List.pairwise_append.mp hasc).2.2 d hd c List.mem_cons_self
    by_cases hroom : m.down.size + 1 < Word.modulus
    · rcases h.append_step hp (hc c List.mem_cons_self) hd (hshown c) hroom with ⟨m₁, ha, -, h₁⟩
      rw [List.foldlM_cons, ha] at hm
      rw [List.append_cons] at hasc ⊢
      exact ih h₁ hasc (fun d hd => hc d (List.mem_cons_of_mem c hd)) hm
    · simp [appendEntry, Word.add, Word.check, hroom, bind, Except.bind] at hm

theorem Represents.exists_append_row {rest : List Nat}
    (h : (m.beginRow t.nodeCount).Represents (t.push done) shown active removed)
    (hp : ∀ a ∈ active, t.IsPrimary a) (hasc : (done ++ rest).Pairwise (· < ·))
    (hc : ∀ c ∈ rest, c < t.columnCount) (hshown : ∀ c, shown t.rowCount c = true)
    (hroom : m.down.size + rest.length < Word.modulus) :
    ∃ m', rest.foldlM (appendEntry t.rowCount t.nodeCount) m = .ok m' ∧
      m'.isClosed = m.isClosed := by
  induction rest generalizing m done with
  | nil => exact ⟨m, rfl, rfl⟩
  | cons c rest ih =>
    rw [List.length_cons] at hroom
    have hd : ∀ d ∈ done, d < c := fun d hd =>
      (List.pairwise_append.mp hasc).2.2 d hd c List.mem_cons_self
    rcases h.append_step hp (hc c List.mem_cons_self) hd (hshown c) (by omega) with
      ⟨m₁, ha, hopen, h₁⟩
    have hsize : m₁.down.size = m.down.size + 1 := by
      have h₀ : m.down.size = (t.push done).nodeCount := h.down_size
      have h₁ : m₁.down.size = (t.push (done ++ [c])).nodeCount := h₁.down_size
      rw [h₀, h₁, Table.nodeCount_push, Table.nodeCount_push, List.length_append]
      rfl
    rw [List.append_cons] at hasc
    rcases ih h₁ hasc (fun d hd => hc d (List.mem_cons_of_mem c hd)) (by omega) with
      ⟨m', hm, hopen'⟩
    rw [List.foldlM_cons, ha]
    exact ⟨m', hm, hopen'.trans hopen⟩

theorem ascending_of_entriesFlaw {columns position : Nat} {previous : Option Nat}
    {entries : List Nat} (h : entriesFlaw columns position previous entries = none) :
    (previous.toList ++ entries).Pairwise (· < ·) ∧ ∀ c ∈ entries, c < columns := by
  induction entries generalizing position previous with
  | nil => cases previous <;> simp
  | cons c rest ih =>
    rw [entriesFlaw] at h
    split_ifs at h with hrange hprev
    rcases ih h with ⟨hasc, hlt⟩
    constructor
    · cases previous with
      | none => exact hasc
      | some p =>
        rw [Option.any_some, decide_eq_true_eq, not_le] at hprev
        apply List.Pairwise.cons _ hasc
        intro x hx
        rcases List.mem_cons.mp hx with rfl | hx
        · exact hprev
        · exact hprev.trans (List.rel_of_pairwise_cons hasc hx)
    · simp only [List.mem_cons, forall_eq_or_imp]
      exact ⟨not_le.mp hrange, hlt⟩

/-- Beginning a row changes nothing about the entries. -/
theorem Represents.begin_row (h : m.Represents t shown active removed) :
    (m.beginRow t.nodeCount).Represents (t.push []) shown active removed := by
  have hcount : (t.push []).nodeCount = t.nodeCount := Table.nodeCount_push t []
  exact {
    ordered := h.ordered.push_nil
    primary := h.primary
    across_size := h.across_size.trans hcount.symm
    down_size := h.down_size.trans hcount.symm
    column_size := h.column_size.trans hcount.symm
    row_size := h.row_size.trans hcount.symm
    column := by
      intro r c hc
      rw [Table.row_push_nil] at hc
      rw [Table.entry_push_nil hc]
      exact h.column r c hc
    row := by
      intro r c hc
      rw [Table.row_push_nil] at hc
      rw [Table.entry_push_nil hc]
      exact h.row r c hc
    rowHeads := by
      rw [Table.map_start_push, List.range_succ, List.map_append, ← h.rowHeads]
      exact Array.toList_push
    nodeCount_lt := by
      rw [hcount]
      exact h.nodeCount_lt
    across := by
      constructor
      · intro r
        rw [Table.rowNodes_push_nil]
        exact h.across.rows r
      · exact h.across.root
      · exact h.across.aside
    down := by
      intro c hc
      rw [Table.columnNodes_push_nil]
      exact h.down c hc
    sizes := by
      intro c hc
      rw [Table.shownRows_push_nil]
      exact h.sizes c hc
    removedRows := h.removedRows }

theorem IsFrame.rowCount_eq (h : m.IsFrame t) : m.rowCount = t.rowCount := by
  rw [CoverMatrix.rowCount, ← Array.length_toList, h.rowHeads, List.length_map, List.length_range]

theorem addRow_eq {entries : List Nat} {id : Nat} (h : m.addRow entries = .ok (.ok id, m')) :
    m.rowFlaw entries = none ∧ ∃ m₁, m' = m₁.beginRow m.down.size ∧
      entries.foldlM (appendEntry m.rowCount m.down.size) m = .ok m₁ := by
  rw [addRow] at h
  split at h
  · simp at h
  · rename_i hflaw
    cases hm : entries.foldlM (appendEntry m.rowCount m.down.size) m with
    | error f => simp [hm, bind, Except.bind] at h
    | ok m₁ =>
      simp only [hm, bind, Except.bind, pure, Except.pure, Except.ok.injEq, Prod.mk.injEq] at h
      exact ⟨hflaw, m₁, h.2.symm, rfl⟩

theorem Represents.addRow {entries : List Nat} {id : Nat}
    (h : m.Represents t shown active removed) (hp : ∀ a ∈ active, t.IsPrimary a)
    (hshown : ∀ c, shown t.rowCount c = true) (hm : m.addRow entries = .ok (.ok id, m')) :
    m'.Represents (t.push entries) shown active removed := by
  rcases addRow_eq hm with ⟨hflaw, m₁, rfl, hm₁⟩
  have hentries : entriesFlaw m.columnCount 0 none entries = none := by
    rw [rowFlaw] at hflaw
    split_ifs at hflaw
    exact hflaw
  rcases ascending_of_entriesFlaw hentries with ⟨hasc, hlt⟩
  rw [CoverMatrix.columnCount, h.headers_size] at hlt
  rw [h.rowCount_eq, h.down_size] at hm₁
  rw [h.down_size]
  exact h.begin_row.append_row hp hasc hlt hshown hm₁

theorem entriesFlaw_append {columns position : Nat} {previous : Option Nat} {before : List Nat}
    (hasc : (previous.toList ++ before).Pairwise (· < ·)) (hlt : ∀ c ∈ before, c < columns)
    (rest : List Nat) :
    entriesFlaw columns position previous (before ++ rest) =
      entriesFlaw columns (position + before.length) (before.getLast?.or previous) rest := by
  induction before generalizing position previous with
  | nil => rfl
  | cons c before ih =>
    rw [List.forall_mem_cons] at hlt
    have hprev : ¬ previous.any (c ≤ ·) = true := by
      cases previous with
      | none => simp
      | some p =>
        have hpc : p < c := List.rel_of_pairwise_cons hasc List.mem_cons_self
        simpa using hpc
    have hrest : ((some c).toList ++ before).Pairwise (· < ·) := (List.pairwise_append.mp hasc).2.1
    rw [List.cons_append, entriesFlaw, if_neg (not_le.mpr hlt.1), if_neg hprev, ih hrest hlt.2,
      List.length_cons, Nat.add_assoc, Nat.add_comm 1, List.getLast?_cons]
    cases before.getLast? <;> rfl

theorem entriesFlaw_eq_none {columns position : Nat} {previous : Option Nat}
    {entries : List Nat} (hasc : (previous.toList ++ entries).Pairwise (· < ·))
    (hlt : ∀ c ∈ entries, c < columns) : entriesFlaw columns position previous entries = none := by
  have h := @entriesFlaw_append columns position previous entries hasc hlt []
  rwa [List.append_nil] at h

theorem Represents.exists_addRow {entries : List Nat}
    (h : m.Represents t shown active removed) (hp : ∀ a ∈ active, t.IsPrimary a)
    (hshown : ∀ c, shown t.rowCount c = true) (hopen : m.isClosed = false)
    (hne : entries ≠ []) (hasc : entries.Pairwise (· < ·))
    (hlt : ∀ c ∈ entries, c < t.columnCount)
    (hroom : t.nodeCount + entries.length < Word.modulus) :
    ∃ m', m.addRow entries = .ok (.ok t.rowCount, m') ∧ m'.isClosed = false := by
  have hflaw : m.rowFlaw entries = none := by
    rw [rowFlaw, hopen, if_neg Bool.false_ne_true, if_neg (by simpa using hne),
      CoverMatrix.columnCount, h.headers_size]
    exact entriesFlaw_eq_none hasc hlt
  rw [← h.down_size] at hroom
  rcases h.begin_row.exists_append_row hp hasc hlt hshown hroom with ⟨m₁, hm, hopen₁⟩
  rw [CoverMatrix.addRow, hflaw]
  simp only [h.rowCount_eq, h.down_size, hm, bind, Except.bind]
  exact ⟨_, rfl, hopen₁.trans hopen⟩

/-- A matrix that was built stands for its table with nothing covered. -/
theorem Built.under [DecidableEq L] (h : Built m t) : m.Under t [] := by
  induction h with
  | ofColumns h =>
    have hm := represents_ofColumns h
    rwa [← Table.removed_nil] at hm
  | addRow _ h ih =>
    have hm := Represents.addRow ih Table.primary_of_mem_active (fun _ => rfl) h
    rwa [Table.removed_nil, ← Table.removed_nil] at hm
  | close _ ih => exact { ih with }

theorem Built.row_ne_nil [DecidableEq L] (h : Built m t) : ∀ row ∈ t.rows, row ≠ [] := by
  induction h with
  | ofColumns _ => exact fun row hrow => absurd hrow List.not_mem_nil
  | @addRow m m' t entries id _ h ih =>
    rcases addRow_eq h with ⟨hflaw, -⟩
    intro row hrow
    rcases List.mem_append.mp hrow with hrow | hrow
    · exact ih row hrow
    · obtain rfl := List.mem_singleton.mp hrow
      rintro rfl
      rw [rowFlaw] at hflaw
      split at hflaw <;> simp at hflaw
  | close _ ih => exact ih

/-- Two columns that must be covered and one that need not be. -/
def sampleTable : Table := ⟨[true, true, false], [[0, 2], [1]]⟩

def sample : CoverMatrix Char where
  headers := #[⟨'a', true, 1⟩, ⟨'b', true, 1⟩, ⟨'x', false, 1⟩]
  across := #[⟨2, 1⟩, ⟨0, 2⟩, ⟨1, 0⟩, ⟨3, 3⟩, ⟨5, 5⟩, ⟨4, 4⟩, ⟨6, 6⟩]
  down := #[⟨0, 0⟩, ⟨4, 4⟩, ⟨6, 6⟩, ⟨5, 5⟩, ⟨1, 1⟩, ⟨3, 3⟩, ⟨2, 2⟩]
  column := #[0, 0, 1, 2, 0, 2, 1]
  row := #[none, none, none, none, some 0, some 0, some 1]
  rowHeads := #[4, 6]
  removedRows := 0
  isClosed := false

theorem built_sample : Built sample sampleTable := by
  have h₀ := @Built.ofColumns Char _ [('a', true), ('b', true), ('x', false)] _ rfl
  have h₁ := @Built.addRow Char _ _ _ _ [0, 2] 0 h₀ rfl
  exact @Built.addRow Char _ _ _ _ [1] 1 h₁ rfl

end DancingLinks.CoverMatrix
