import DancingLinks.Proofs.Torus

/-! # One cover and its undoing

Each operation of covering takes a matrix of a table to a matrix of the same table that shows less,
and its counterpart takes that matrix back to the very one before, field for field. The operations
are treated from the smallest to the largest: an entry, a row, a header, a column, and the other
columns of a row. Every loop among them is a track of the operation before it.
-/
namespace DancingLinks.CoverMatrix

open Links

variable {L : Type} {m : CoverMatrix L} {t : Table} {shown : Table.Shown} {r c removed : Nat}
  {active cs : List Nat}

def setSize (headers : Array (Header L)) (c s : Nat) : Array (Header L) :=
  headers.modify c fun h => ⟨h.label, h.primary, s⟩

@[simp] theorem size_setSize (headers : Array (Header L)) (c s : Nat) :
    (setSize headers c s).size = headers.size := by
  simp [setSize]

theorem getElem_setSize {headers : Array (Header L)} {s i : Nat} (hi : i < headers.size)
    (h : i < (setSize headers c s).size) :
    (setSize headers c s)[i] =
      ⟨headers[i].label, headers[i].primary, if c = i then s else headers[i].size⟩ := by
  simp only [setSize, Array.getElem_modify]
  split <;> rfl

theorem resize_of_lt {headers : Array (Header L)} {change : Nat → Except Fault Nat} {s : Nat}
    (h : c < headers.size) (hs : change headers[c].size = .ok s) :
    resize headers c change = .ok (setSize headers c s) := by
  simp only [resize, dif_pos h, hs, bind, Except.bind]
  rfl

theorem setSize_setSize {headers : Array (Header L)} {s : Nat} (h : c < headers.size) :
    setSize (setSize headers c s) c headers[c].size = headers := by
  apply Array.ext
  · simp
  · intro i _ hi
    rw [getElem_setSize (by simpa using hi), getElem_setSize hi]
    by_cases hci : c = i
    · subst hci
      simp
    · simp [hci]

theorem map_setSize {α : Type} {f : Header L → α}
    (hf : ∀ h s, f ⟨h.label, h.primary, s⟩ = f h) (headers : Array (Header L)) (c s : Nat) :
    (setSize headers c s).toList.map f = headers.toList.map f := by
  apply List.ext_getElem
  · simp
  · intro i hi hi'
    have hlt : i < headers.size := by simpa using hi'
    simp [getElem_setSize hlt, hf]

theorem map_primary_setSize (headers : Array (Header L)) (c s : Nat) :
    (setSize headers c s).toList.map (·.primary) = headers.toList.map (·.primary) :=
  map_setSize (fun _ _ => rfl) headers c s

theorem Represents.size_eq (h : m.Represents t shown active removed) (hc : c < t.columnCount) :
    m.size c = (t.shownRows shown c).length := by
  have hlt : c < m.headers.size := by rwa [h.headers_size]
  rw [CoverMatrix.size, Array.getElem?_eq_getElem hlt]
  exact h.sizes c hlt

theorem Represents.length_shownRows_lt (h : m.Represents t shown active removed)
    (hc : c < t.columnCount) : (t.shownRows shown c).length < t.nodeCount := by
  have hl := (h.down c hc).length_lt
  rwa [h.down_size, Table.columnNodes, List.length_map] at hl

theorem IsFrame.columnOf (h : m.IsFrame t) (hc : c ∈ t.row r) :
    m.columnOf (t.entry r c) = .ok c := by
  rcases Array.getElem?_eq_some_iff.mp (h.column r c hc) with ⟨hlt, he⟩
  rw [CoverMatrix.columnOf, dif_pos hlt, he]

def setRemoved (m : CoverMatrix L) (k : Nat) : CoverMatrix L := { m with removedRows := k }

/-- Hiding a shown entry, and showing it again, whatever the number of removed rows. -/
theorem Represents.entry_step (h : m.Represents t shown active removed)
    (hr : r ∈ t.shownRows shown c) :
    ∃ m' : CoverMatrix L, (∀ k, (m.setRemoved k).hideEntry (t.entry r c) = .ok (m'.setRemoved k) ∧
        (m'.setRemoved k).showEntry (t.entry r c) = .ok (m.setRemoved k)) ∧
      m'.Represents t (shown.minus [(r, c)]) active removed := by
  have hrow : c ∈ t.row r := (Table.mem_shownRows.mp hr).1
  have hct : c < t.columnCount := h.ordered.lt_columnCount hrow
  have hc : c < m.headers.size := by rwa [h.headers_size]
  rcases h.down.unlink hct hr with ⟨links', hu, hre, hls, hdown⟩
  rcases Table.shownRows_minus hr with ⟨above, below, hab, hab'⟩
  have hpos : m.headers[c].size = (above ++ below).length + 1 := by
    rw [h.sizes c hc, hab]
    simp
    omega
  have hlt : (above ++ below).length + 1 < Word.modulus := by
    rw [← hpos, h.sizes c hc]
    exact (h.length_shownRows_lt hct).trans h.nodeCount_lt
  have hhide : resize m.headers c (Word.sub · 1) =
      .ok (setSize m.headers c (above ++ below).length) := by
    apply resize_of_lt hc
    rw [Word.sub_of_le (by omega), hpos]
    rfl
  have hshow : resize (setSize m.headers c (above ++ below).length) c (Word.add · 1) =
      .ok m.headers := by
    rw [resize_of_lt (s := m.headers[c].size) (by simpa using hc), setSize_setSize hc]
    rw [getElem_setSize hc, if_pos rfl, Word.add_of_lt hlt, hpos]
  refine ⟨{ m with headers := setSize m.headers c (above ++ below).length, down := links' },
    fun k => ⟨?_, ?_⟩, ?_⟩
  · have hcol : (m.setRemoved k).columnOf (t.entry r c) = .ok c := h.columnOf hrow
    rw [CoverMatrix.hideEntry, hcol]
    simp only [setRemoved, bind, Except.bind, hu, hhide]
    rfl
  · have hcol : (setRemoved { m with headers := setSize m.headers c (above ++ below).length
                                     down := links' } k).columnOf (t.entry r c) = .ok c :=
      h.columnOf hrow
    rw [CoverMatrix.showEntry, hcol]
    simp only [setRemoved, bind, Except.bind, hshow, hre]
    rfl
  · exact {
      ordered := h.ordered
      primary := by rw [map_primary_setSize]; exact h.primary
      across_size := h.across_size
      down_size := hls.trans h.down_size
      column_size := h.column_size
      row_size := h.row_size
      column := h.column
      row := h.row
      rowHeads := h.rowHeads
      nodeCount_lt := h.nodeCount_lt
      across := h.across
      down := hdown
      sizes := by
        intro i hi
        have hi' : i < m.headers.size := by simpa using hi
        rw [getElem_setSize hi']
        by_cases hci : c = i
        · subst hci
          simp [hab']
        · rw [Table.shownRows_minus_of_ne (by simpa using hci)]
          simpa [hci] using h.sizes i hi'
      removedRows := h.removedRows }

theorem Represents.entries_track {ds : List Nat} (h : m.Represents t shown active removed)
    (hn : ds.Nodup) (hd : ∀ d ∈ ds, r ∈ t.shownRows shown d) :
    ∃ m' : CoverMatrix L, (∀ k, Track (fun m => IsAcross m.across t active) hideEntry showEntry
        (m.setRemoved k) (ds.map (t.entry r)) (m'.setRemoved k)) ∧
      m'.Represents t (shown.minus (ds.map (r, ·))) active removed := by
  induction ds generalizing m shown with
  | nil =>
    rw [List.map_nil, List.map_nil, Table.Shown.minus_nil]
    exact ⟨m, fun k => .nil h.across, h⟩
  | cons d ds ih =>
    rcases h.entry_step (hd d (by simp)) with ⟨m₁, hs, h₁⟩
    have hd₁ : ∀ e ∈ ds, r ∈ t.shownRows (shown.minus [(r, d)]) e := by
      intro e he
      have hne : e ≠ d := fun heq => (List.nodup_cons.mp hn).1 (heq ▸ he)
      exact Table.mem_shownRows_minus.mpr ⟨hd e (by simp [he]), by simpa using hne⟩
    rcases ih h₁ hn.of_cons hd₁ with ⟨m', ht, h'⟩
    rw [← Table.Shown.minus_append, List.singleton_append, ← List.map_cons] at h'
    exact ⟨m', fun k => .cons h.across (hs k).1 (hs k).2 (ht k), h'⟩

theorem Represents.setRemoved_eq (h : m.Represents t shown active removed) :
    m.setRemoved removed = m := by
  rw [setRemoved, ← h.removedRows]

/-- Hiding a row from all columns but one, and showing it again. -/
theorem Represents.row_step (h : m.Represents t shown active removed) (hc : c ∈ t.row r)
    (hd : ∀ d ∈ t.others r c, r ∈ t.shownRows shown d) (hroom : removed + 1 < Word.modulus) :
    ∃ m', m.hideRow (t.entry r c) = .ok m' ∧ m'.showRow (t.entry r c) = .ok m ∧
      m'.Represents t (shown.minus ((t.others r c).map (r, ·))) active (removed + 1) := by
  rcases h.entries_track (h.ordered.nodup_others hc).of_cons hd with ⟨m₁, ht, h₁⟩
  have hnext : m.around CoverMatrix.across Link.next hideEntry (t.entry r c) = .ok m₁ := by
    have hn := (ht removed).around_next fun m hm => hm.row_ring hc
    rwa [h.setRemoved_eq, h₁.setRemoved_eq] at hn
  have hprev := (ht (removed + 1)).around_prev fun m hm => hm.row_ring hc
  refine ⟨m₁.setRemoved (removed + 1), ?_, ?_, { h₁ with removedRows := rfl }⟩
  · simp only [CoverMatrix.hideRow, hnext, bind, Except.bind, h₁.removedRows,
      Word.add_of_lt hroom]
    rfl
  · simp only [CoverMatrix.showRow, hprev, bind, Except.bind]
    simp only [setRemoved, Word.sub_of_le (Nat.le_add_left 1 removed), Nat.add_sub_cancel]
    exact congrArg Except.ok h.setRemoved_eq

theorem Represents.rows_track {rs : List Nat} (h : m.Represents t shown active removed)
    (hc : c < t.columnCount) (hn : rs.Nodup)
    (hr : ∀ r ∈ rs, c ∈ t.row r ∧ ∀ d ∈ t.others r c, r ∈ t.shownRows shown d)
    (hroom : removed + rs.length < Word.modulus) :
    ∃ m', Track (fun m => IsRing m.down ↑((c + 1) :: t.columnNodes shown c)) hideRow showRow m
        (rs.map (t.entry · c)) m' ∧
      m'.Represents t (shown.minus (t.hiddenBy c rs)) active (removed + rs.length) := by
  induction rs generalizing m shown removed with
  | nil =>
    rw [Table.hiddenBy, List.flatMap_nil, Table.Shown.minus_nil]
    exact ⟨m, .nil (h.down c hc), h⟩
  | cons r rs ih =>
    rw [List.length_cons] at hroom
    have hrow : c ∈ t.row r := (hr r (by simp)).1
    rcases h.row_step hrow (hr r (by simp)).2 (by omega) with ⟨m₁, ha, hu, h₁⟩
    have hsame : t.columnNodes (shown.minus ((t.others r c).map (r, ·))) c =
        t.columnNodes shown c := by
      rw [Table.columnNodes, Table.columnNodes, Table.shownRows_minus_of_ne]
      intro e he
      rcases List.mem_map.mp he with ⟨d, hd, rfl⟩
      exact ((h.ordered.mem_others hrow).mp hd).2
    have hr₁ : ∀ i ∈ rs, c ∈ t.row i ∧ ∀ d ∈ t.others i c,
        i ∈ t.shownRows (shown.minus ((t.others r c).map (r, ·))) d := by
      intro i hi
      have hne : r ≠ i := fun heq => (List.nodup_cons.mp hn).1 (heq ▸ hi)
      have hri := hr i (by simp [hi])
      constructor
      · exact hri.1
      · intro d hd
        exact Table.mem_shownRows_minus.mpr ⟨hri.2 d hd, by simp [hne]⟩
    rcases ih h₁ hn.of_cons hr₁ (by omega) with ⟨m', ht, h'⟩
    rw [hsame] at ht
    have hall : m'.Represents t (shown.minus (t.hiddenBy c (r :: rs))) active
        (removed + (r :: rs).length) := by
      rw [Table.hiddenBy, List.flatMap_cons, Table.Shown.minus_append, List.length_cons,
        Nat.add_comm rs.length 1, ← Nat.add_assoc]
      exact h'
    exact ⟨m', .cons (h.down c hc) ha hu ht, hall⟩

theorem IsFrame.header_primary (h : m.IsFrame t) (hc : c < m.headers.size) :
    m.headers[c].primary = true ↔ t.IsPrimary c := by
  rw [Table.IsPrimary, ← h.primary, List.getElem?_map, Array.getElem?_toList,
    Array.getElem?_eq_getElem hc]
  simp

/-- Taking the header of a column that is not covered out of the root's ring, if it is in there,
and putting it back. -/
theorem Represents.header_step (h : m.Represents t shown active removed)
    (hc : c < t.columnCount) (hp : ∀ a ∈ active, t.IsPrimary a)
    (ha : t.IsPrimary c → c ∈ active) :
    ∃ m', m.unlinkHeader (c + 1) = .ok m' ∧ m'.relinkHeader (c + 1) = .ok m ∧
      m.isCoveredPrimary c (c + 1) = .ok false ∧
      m'.Represents t shown (active.filter (· ≠ c)) removed := by
  have hlt : c < m.headers.size := by rwa [h.headers_size]
  by_cases hcp : t.IsPrimary c
  · rcases h.across.unlink hp (ha hcp) with ⟨links', hu, hre, hcov, hs, hacross⟩
    refine ⟨{ m with across := links' }, ?_, ?_, ?_, ?_⟩
    · simp only [CoverMatrix.unlinkHeader, hu, bind, Except.bind]
      rfl
    · simp only [CoverMatrix.relinkHeader, hre, bind, Except.bind]
      rfl
    · simp only [CoverMatrix.isCoveredPrimary, CoverMatrix.header, dif_pos hlt, bind, Except.bind,
        (h.header_primary hlt).mpr hcp, if_true, hcov]
    · exact { h with across := hacross, across_size := hs.trans h.across_size }
  · rcases (h.across.aside c hc hcp).unlink_alone with ⟨hu, hre⟩
    refine ⟨m, ?_, ?_, ?_, ?_⟩
    · simp only [CoverMatrix.unlinkHeader, hu, bind, Except.bind]
      rfl
    · simp only [CoverMatrix.relinkHeader, hre, bind, Except.bind]
      rfl
    · have hf : ¬ m.headers[c].primary = true := fun hh => hcp ((h.header_primary hlt).mp hh)
      simp only [CoverMatrix.isCoveredPrimary, CoverMatrix.header, dif_pos hlt, bind, Except.bind,
        if_neg hf]
      rfl
    · have hall : active.filter (· ≠ c) = active := by
        rw [List.filter_eq_self]
        intro a haa
        have hac : a ≠ c := fun heq => hcp (heq ▸ hp a haa)
        simpa using hac
      rwa [hall]

/-- The linked matrix stands for the table with the columns `cs` covered in this order. -/
def Under (m : CoverMatrix L) (t : Table) (cs : List Nat) : Prop :=
  m.Represents t (t.shownUnder cs) (t.active cs) (t.removed cs)

theorem Represents.congr {shown' : Table.Shown} (h : m.Represents t shown active removed)
    (hs : ∀ c, t.shownRows shown c = t.shownRows shown' c) :
    m.Represents t shown' active removed := by
  have hdown : IsDown m.down t shown' := by
    intro c hc
    rw [Table.columnNodes, ← hs c]
    exact h.down c hc
  have hsizes : ∀ c (hc : c < m.headers.size),
      m.headers[c].size = (t.shownRows shown' c).length := by
    intro c hc
    rw [← hs c]
    exact h.sizes c hc
  exact { h with down := hdown, sizes := hsizes }

theorem IsFrame.headOf (h : m.IsFrame t) (hc : c < t.columnCount) : m.headOf c = .ok (c + 1) := by
  have hlt := h.nodeCount_lt
  have hn : t.columnCount < t.nodeCount := t.columnCount_lt_start _
  rw [CoverMatrix.headOf, Word.add_of_lt (by omega)]
  simp only [bind, Except.bind, h.headers_size, Nat.add_lt_add_iff_right, if_pos hc]
  rfl

/-- Covering a column that is not covered, and uncovering it. -/
theorem Under.cover_step (h : m.Under t cs) (hc : c < t.columnCount) (hcs : c ∉ cs) :
    ∃ m', m.cover c = .ok m' ∧ m'.uncover c = .ok m ∧ m'.Under t (cs ++ [c]) := by
  have ha : t.IsPrimary c → c ∈ t.active cs := fun hc => Table.mem_active.mpr ⟨hc, hcs⟩
  rcases Represents.header_step h hc Table.primary_of_mem_active ha with ⟨m₁, hu, hre, hcov, h₁⟩
  have hr : ∀ r ∈ t.rowsUnder cs c,
      c ∈ t.row r ∧ ∀ d ∈ t.others r c, r ∈ t.shownRows (t.shownUnder cs) d := by
    intro r hr
    have hrow := ((Table.mem_rowsUnder hcs).mp hr).1
    constructor
    · exact hrow
    · intro d hd
      exact (Table.mem_rowsUnder_of_mem hcs hr ((h.ordered.mem_others hrow).mp hd).1).2
  have hroom : t.removed cs + (t.rowsUnder cs c).length < Word.modulus := by
    rw [← Table.removed_concat hcs]
    exact (t.removed_lt_nodeCount _).trans h.nodeCount_lt
  rcases h₁.rows_track hc (t.nodup_shownRows _ c) hr hroom with ⟨m', ht, h'⟩
  have hnext := ht.around_next fun m hm => hm
  have hprev := ht.around_prev fun m hm => hm
  have hu' : m'.Under t (cs ++ [c]) := by
    rw [Under, Table.removed_concat hcs, Table.active_concat]
    exact h'.congr (h.ordered.rowsUnder_concat hcs)
  have hcover : m.cover c = .ok m' := by
    simp only [CoverMatrix.cover, h.headOf hc, bind, Except.bind, hcov, hu]
    exact hnext
  have huncover : m'.uncover c = .ok m := by
    simp only [CoverMatrix.uncover, hu'.headOf hc, bind, Except.bind, hprev, hre]
  exact ⟨m', hcover, huncover, hu'⟩

theorem Under.columns_track {ds : List Nat} (h : m.Under t cs) (hn : ds.Nodup)
    (hd : ∀ d ∈ ds, d < t.columnCount ∧ d ∉ cs) :
    ∃ m', Track (fun m => ∃ cs, m.Under t cs) cover uncover m ds m' ∧ m'.Under t (cs ++ ds) := by
  induction ds generalizing m cs with
  | nil =>
    rw [List.append_nil]
    exact ⟨m, .nil ⟨cs, h⟩, h⟩
  | cons d ds ih =>
    rcases h.cover_step (hd d (by simp)).1 (hd d (by simp)).2 with ⟨m₁, ha, hu, h₁⟩
    have hd₁ : ∀ e ∈ ds, e < t.columnCount ∧ e ∉ cs ++ [d] := by
      intro e he
      have hne : e ≠ d := fun heq => (List.nodup_cons.mp hn).1 (heq ▸ he)
      have hecs := hd e (by simp [he])
      exact ⟨hecs.1, by simp [hecs.2, hne]⟩
    rcases ih h₁ hn.of_cons hd₁ with ⟨m', ht, h'⟩
    rw [List.append_assoc] at h'
    exact ⟨m', .cons ⟨cs, h⟩ ha hu ht, h'⟩

/-- Covering the columns of some entries of a row is covering the columns. -/
theorem track_entries {ds : List Nat} {m' : CoverMatrix L}
    (h : Track (fun m => ∃ cs, m.Under t cs) cover uncover m ds m') (hd : ∀ d ∈ ds, d ∈ t.row r) :
    Track (fun m => ∃ cs, m.Under t cs) coverAt uncoverAt m (ds.map (t.entry r)) m' := by
  induction h with
  | nil h => exact .nil h
  | @cons m m₁ m₂ d ds h ha hu ht ih =>
    have hcol (m : CoverMatrix L) (hm : ∃ cs, m.Under t cs) :
        m.columnOf (t.entry r d) = .ok d := by
      rcases hm with ⟨cs, hm⟩
      exact hm.columnOf (hd d (by simp))
    apply Track.cons h _ _ (ih fun e he => hd e (by simp [he]))
    · rw [coverAt, hcol m h]
      exact ha
    · rw [uncoverAt, hcol m₁ ht.keeps_left]
      exact hu

/-- Covering the other columns of a row, none of which is covered, and uncovering them. -/
theorem Under.others_step (h : m.Under t cs) (hc : c ∈ t.row r)
    (hd : ∀ d ∈ t.others r c, d ∉ cs) :
    ∃ m', m.coverRowOthers (t.entry r c) = .ok m' ∧ m'.uncoverRowOthers (t.entry r c) = .ok m ∧
      (t.others r c).foldlM cover m = .ok m' ∧ m'.Under t (cs ++ t.others r c) := by
  have hrow : ∀ d ∈ t.others r c, d ∈ t.row r := fun d hm => ((h.ordered.mem_others hc).mp hm).1
  have hcols : ∀ d ∈ t.others r c, d < t.columnCount ∧ d ∉ cs := fun d hm =>
    ⟨h.ordered.lt_columnCount (hrow d hm), hd d hm⟩
  rcases h.columns_track (h.ordered.nodup_others hc).of_cons hcols with ⟨m', ht, h'⟩
  have hring : ∀ m : CoverMatrix L, (∃ cs, m.Under t cs) →
      IsRing m.across ↑(t.entry r c :: (t.others r c).map (t.entry r)) := by
    rintro m ⟨cs, hm⟩
    exact hm.across.row_ring hc
  have hentries := track_entries ht hrow
  exact ⟨m', hentries.around_next hring, hentries.around_prev hring, ht.foldlM_eq, h'⟩

end DancingLinks.CoverMatrix
