import DancingLinks.Proofs.Exchanging

/-! # Matrices that grow under covers

An open matrix takes rows at any time, also while columns are covered. A row does no harm if it
meets no covered column and if, in each of its columns, the row above it is in sight: then it may as
well have been added before the covers, and undoing them leaves the matrix with all rows. Without
that, a row can be lost from a column when the covers are undone, or undoing them can fail.
-/
namespace DancingLinks

namespace Table

variable {t : Table} {shown : Shown} {c d r : Nat} {y : List Nat}

theorem Shown.minus_of_ne {es : List (Nat × Nat)} (h : ∀ e ∈ es, e.1 ≠ r) :
    shown.minus es r c = shown r c := by
  have hn : (r, c) ∉ es := fun hm => h _ hm rfl
  simp [minus, hn]

theorem mem_row_push (h : r < t.rowCount) : c ∈ (t.push y).row r ↔ c ∈ t.row r := by
  rw [row_push, if_neg h.ne]

theorem others_push (h : r < t.rowCount) : (t.push y).others r c = t.others r c := by
  rw [others, others, row_push, if_neg h.ne]

theorem mem_shownRows_push (h : r ∈ t.shownRows shown d) : r ∈ (t.push y).shownRows shown d := by
  rw [shownRows_push]
  exact List.mem_append_left _ h

theorem shownRows_push_of_notMem (h : d ∉ y) :
    (t.push y).shownRows shown d = t.shownRows shown d := by
  simp [shownRows_push, h]

theorem shownUnder_rowCount (t : Table) (cs : List Nat) (c : Nat) :
    t.shownUnder cs t.rowCount c = true := by
  have hrow : t.row t.rowCount = [] := List.getD_eq_default _ _ le_rfl
  simp [shownUnder, hrow]

/-- While the columns `cs` are covered, the row `y` meets none of them, and the last row of each
column that it meets is in sight. -/
def Clear (t : Table) (cs y : List Nat) : Prop :=
  ∀ d ∈ y, d ∉ cs ∧ ∀ r ∈ (t.rowsMeeting d []).getLast?, ∀ c ∈ cs, c ∉ t.row r

instance (t : Table) (cs y : List Nat) : Decidable (t.Clear cs y) :=
  inferInstanceAs (Decidable (∀ d ∈ y, _))

theorem Clear.mono {cs cs' : List Nat} (h : t.Clear cs' y) (hs : cs ⊆ cs') : t.Clear cs y :=
  fun d hd => ⟨fun hm => (h d hd).1 (hs hm), fun r hr c hc => (h d hd).2 r hr c (hs hc)⟩

theorem clear_nil (t : Table) (y : List Nat) : t.Clear [] y :=
  fun _ _ => ⟨List.not_mem_nil, fun _ _ _ hc => absurd hc List.not_mem_nil⟩

/-- A row out of sight lies above one in sight, in the columns of a row that is clear. -/
theorem Clear.exists_below {cs : List Nat} (h : t.Clear cs y) (hd : d ∈ y) (hdr : d ∈ t.row r)
    (hc : c ∈ cs) (hcr : c ∈ t.row r) :
    ∃ s, r < s ∧ d ∈ t.row s ∧ ∀ e ∈ cs, e ∉ t.row s := by
  have hmem : r ∈ t.rowsMeeting d [] := by
    simp [rowsMeeting, lt_rowCount_of_mem hdr, hdr]
  have hasc : (t.rowsMeeting d []).Pairwise (· < ·) := List.pairwise_lt_range.filter _
  obtain ⟨last, hlast, hmem, hle⟩ := exists_getLast_of_mem hasc hmem
  have hout := (h d hd).2 last hlast
  have hne : r ≠ last := fun heq => hout c hc (heq ▸ hcr)
  have hdl : d ∈ t.row last := by simpa using (List.mem_filter.mp hmem).2
  exact ⟨last, hle.lt_of_ne hne, hdl, hout⟩

end Table

namespace CoverMatrix

variable {L : Type} {m m' m₀ m₀' : CoverMatrix L} {t : Table} {c d id r removed : Nat}
  {active cs ds y : List Nat} {shown : Table.Shown}

theorem Represents.exists_hideEntry (h : m.Represents t shown active removed)
    (hr : r ∈ t.shownRows shown d) :
    ∃ m', m.hideEntry (t.entry r d) = .ok m' ∧
      m'.Represents t (shown.minus [(r, d)]) active removed := by
  obtain ⟨m', hstep, h'⟩ := h.entry_step hr
  have hhide := (hstep removed).1
  rw [h.setRemoved_eq, h'.setRemoved_eq] at hhide
  exact ⟨m', hhide, h'⟩

theorem Represents.hideRow_eq (h : m.Represents t shown active removed) (hc : c ∈ t.row r)
    (hd : ∀ d ∈ t.others r c, r ∈ t.shownRows shown d) :
    (∀ m', ((t.others r c).map (t.entry r)).foldlM hideEntry m = .ok m' →
      m'.Represents t (shown.minus ((t.others r c).map (r, ·))) active removed) ∧
    m.hideRow (t.entry r c) =
      ((t.others r c).map (t.entry r)).foldlM hideEntry m >>= countRemoved := by
  obtain ⟨m₁, ht, h₁⟩ := h.entries_track (h.ordered.nodup_others hc).of_cons hd
  have hfold := (ht removed).foldlM_eq
  have hnext := (ht removed).around_next fun m hm => hm.row_ring hc
  rw [h.setRemoved_eq, h₁.setRemoved_eq] at hfold hnext
  constructor
  · intro m' hm'
    rwa [← Except.ok.inj (hfold.symm.trans hm')]
  · rw [hideRow, hnext, hfold]
    rfl

/-- A row may be added before some entries of another row are hidden or after, if every column
concerned that it meets shows a row below them. -/
theorem Represents.diamond_hideEntries (h : m.Represents t shown active removed)
    (hp : ∀ a ∈ active, t.IsPrimary a) (hshown : ∀ c, shown t.rowCount c = true) (hn : ds.Nodup)
    (hd : ∀ d ∈ ds, r ∈ t.shownRows shown d ∧ (d ∈ y → ∃ s ∈ t.shownRows shown d, r < s)) :
    Diamond (Gains y id) (Takes ((ds.map (t.entry r)).foldlM hideEntry ·)) m := by
  induction ds generalizing m shown with
  | nil => exact Diamond.pure _ m
  | cons d ds ih =>
    obtain ⟨hr, hbelow⟩ := hd d List.mem_cons_self
    refine (h.diamond_hideEntry hp hshown hr hbelow).bind fun m₁ h₁ => ?_
    obtain ⟨m₁', h₁', hrep⟩ := h.exists_hideEntry hr
    obtain rfl : m₁' = m₁ := Except.ok.inj (h₁'.symm.trans h₁)
    have hrow : r < t.rowCount := Table.lt_rowCount_of_mem (Table.mem_shownRows.mp hr).1
    have hshown' : ∀ c, shown.minus [(r, d)] t.rowCount c = true := by
      intro c
      rw [Table.Shown.minus_of_ne (by simpa using hrow.ne), hshown]
    have hd' : ∀ e ∈ ds, r ∈ t.shownRows (shown.minus [(r, d)]) e ∧
        (e ∈ y → ∃ s ∈ t.shownRows (shown.minus [(r, d)]) e, r < s) := by
      intro e he
      obtain ⟨hre, hbelow⟩ := hd e (List.mem_cons_of_mem d he)
      have hed : e ≠ d := fun heq => (List.nodup_cons.mp hn).1 (heq ▸ he)
      refine ⟨Table.mem_shownRows_minus.mpr ⟨hre, by simpa using hed⟩, fun hey => ?_⟩
      obtain ⟨s, hs, hrs⟩ := hbelow hey
      exact ⟨s, Table.mem_shownRows_minus.mpr ⟨hs, by simp [hrs.ne']⟩, hrs⟩
    exact ih hrep hshown' hn.of_cons hd'

/-- A row may be added before another row is hidden or after, if every column concerned that it
meets shows a row below the other. -/
theorem Represents.diamond_hideRow (h : m.Represents t shown active removed)
    (hp : ∀ a ∈ active, t.IsPrimary a) (hshown : ∀ c, shown t.rowCount c = true)
    (hc : c ∈ t.row r) (hd : ∀ d ∈ t.others r c,
      r ∈ t.shownRows shown d ∧ (d ∈ y → ∃ s ∈ t.shownRows shown d, r < s)) :
    Diamond (Gains y id) (Takes (hideRow · (t.entry r c))) m := by
  have hr : r < t.rowCount := Table.lt_rowCount_of_mem hc
  have hshown' : ∀ e, shown.minus ((t.others r c).map (r, ·)) t.rowCount e = true := by
    intro e
    rw [Table.Shown.minus_of_ne (by simpa using fun _ _ => hr.ne), hshown]
  obtain ⟨hrep, heq⟩ := h.hideRow_eq hc fun d hm => (hd d hm).1
  have hloop : Diamond (Gains y id) (Takes fun m =>
      ((t.others r c).map (t.entry r)).foldlM hideEntry m >>= countRemoved) m :=
    (h.diamond_hideEntries hp hshown (h.ordered.nodup_others hc).of_cons hd).bind
      fun m₁ h₁ => (hrep m₁ h₁).diamond_countRemoved hp hshown'
  intro m₁ m₂ h₁ h₂
  obtain ⟨m₃, h₃, hg₃⟩ := hloop h₁ (heq.symm.trans h₂)
  have hentry : (t.push y).entry r = t.entry r := funext (Table.entry_push y hr)
  obtain ⟨-, heq₁⟩ := (h.addRow hp hshown h₁).hideRow_eq (r := r) (c := c)
    ((Table.mem_row_push hr).mpr hc) (by
      intro d hm
      rw [Table.others_push hr] at hm
      exact Table.mem_shownRows_push (hd d hm).1)
  rw [Table.others_push hr, hentry] at heq₁
  exact ⟨m₃, heq₁.trans h₃, hg₃⟩

/-- A row may be added before the rows of a column are hidden or after, if every other column that
it meets shows a row below them that does not meet the column. -/
theorem Represents.diamond_hideRows {rs : List Nat} (h : m.Represents t shown active removed)
    (hp : ∀ a ∈ active, t.IsPrimary a) (hshown : ∀ c, shown t.rowCount c = true)
    (hn : rs.Nodup) (hroom : removed + rs.length < Word.modulus)
    (hr : ∀ r ∈ rs, c ∈ t.row r ∧ ∀ d ∈ t.others r c, r ∈ t.shownRows shown d ∧
      (d ∈ y → ∃ s ∈ t.shownRows shown d, r < s ∧ c ∉ t.row s)) :
    Diamond (Gains y id) (Takes ((rs.map (t.entry · c)).foldlM hideRow ·)) m := by
  induction rs generalizing m shown removed with
  | nil => exact Diamond.pure _ m
  | cons r rs ih =>
    rw [List.length_cons] at hroom
    obtain ⟨hc, hd⟩ := hr r List.mem_cons_self
    have hbelow : ∀ d ∈ t.others r c,
        r ∈ t.shownRows shown d ∧ (d ∈ y → ∃ s ∈ t.shownRows shown d, r < s) := by
      intro d hm
      refine ⟨(hd d hm).1, fun hdy => ?_⟩
      obtain ⟨s, hs, hrs, -⟩ := (hd d hm).2 hdy
      exact ⟨s, hs, hrs⟩
    refine (h.diamond_hideRow hp hshown hc hbelow).bind fun m₁ h₁ => ?_
    obtain ⟨m₁', h₁', -, hrep⟩ := h.row_step hc (fun d hm => (hd d hm).1) (by omega)
    obtain rfl : m₁' = m₁ := Except.ok.inj (h₁'.symm.trans h₁)
    have hrow : r < t.rowCount := Table.lt_rowCount_of_mem hc
    have hshown' : ∀ e, shown.minus ((t.others r c).map (r, ·)) t.rowCount e = true := by
      intro e
      rw [Table.Shown.minus_of_ne (by simpa using fun _ _ => hrow.ne), hshown]
    have hr' : ∀ i ∈ rs, c ∈ t.row i ∧ ∀ d ∈ t.others i c,
        i ∈ t.shownRows (shown.minus ((t.others r c).map (r, ·))) d ∧
        (d ∈ y → ∃ s ∈ t.shownRows (shown.minus ((t.others r c).map (r, ·))) d,
          i < s ∧ c ∉ t.row s) := by
      intro i hi
      have hri : r ≠ i := fun heq => (List.nodup_cons.mp hn).1 (heq ▸ hi)
      obtain ⟨hci, hdi⟩ := hr i (List.mem_cons_of_mem r hi)
      refine ⟨hci, fun d hm => ⟨?_, fun hdy => ?_⟩⟩
      · exact Table.mem_shownRows_minus.mpr ⟨(hdi d hm).1, by simp [hri]⟩
      · obtain ⟨s, hs, his, hcs⟩ := (hdi d hm).2 hdy
        have hrs : r ≠ s := fun heq => hcs (heq ▸ hc)
        exact ⟨s, Table.mem_shownRows_minus.mpr ⟨hs, by simp [hrs]⟩, his, hcs⟩
    exact ih hrep hshown' hn.of_cons (by omega) hr'

theorem Represents.cover_eq (h : m.Represents t shown active removed) (hc : c < t.columnCount)
    (hp : ∀ a ∈ active, t.IsPrimary a) (ha : t.IsPrimary c → c ∈ active)
    (hr : ∀ r ∈ t.shownRows shown c, ∀ d ∈ t.others r c, r ∈ t.shownRows shown d)
    (hroom : removed + (t.shownRows shown c).length < Word.modulus) :
    (∀ m', m.unlinkHeader (c + 1) = .ok m' →
      m'.Represents t shown (active.filter (· ≠ c)) removed) ∧
    m.cover c = m.unlinkHeader (c + 1) >>=
      (((t.shownRows shown c).map (t.entry · c)).foldlM hideRow ·) := by
  obtain ⟨m₁, hu, -, hcov, h₁⟩ := h.header_step hc hp ha
  obtain ⟨m₂, ht, -⟩ := h₁.rows_track hc (t.nodup_shownRows shown c)
    (fun r hm => ⟨(Table.mem_shownRows.mp hm).1, hr r hm⟩) hroom
  constructor
  · intro m' hm'
    rwa [← Except.ok.inj (hu.symm.trans hm')]
  · simp only [cover, h.headOf hc, bind, Except.bind, hcov, hu]
    exact (ht.around_next fun m hm => hm).trans ht.foldlM_eq.symm

/-- A row may be added before a column is covered or after, if it is clear then. -/
theorem Under.diamond_cover (h : m.Under t cs) (hc : c < t.columnCount) (hcs : c ∉ cs)
    (hclear : t.Clear (cs ++ [c]) y) : Diamond (Gains y id) (Takes (cover · c)) m := by
  have hcy : c ∉ y := fun hm => (hclear c hm).1 (by simp)
  have hp : ∀ a ∈ t.active cs, t.IsPrimary a := Table.primary_of_mem_active
  have hshown := t.shownUnder_rowCount cs
  have ha : t.IsPrimary c → c ∈ t.active cs := fun hc => Table.mem_active.mpr ⟨hc, hcs⟩
  have hroom : t.removed cs + (t.rowsUnder cs c).length < Word.modulus := by
    rw [← Table.removed_concat hcs]
    exact (t.removed_lt_nodeCount _).trans h.nodeCount_lt
  have hrows : ∀ r ∈ t.rowsUnder cs c, c ∈ t.row r ∧ ∀ d ∈ t.others r c, r ∈ t.rowsUnder cs d ∧
      (d ∈ y → ∃ s ∈ t.rowsUnder cs d, r < s ∧ c ∉ t.row s) := by
    intro r hr
    have hrow := ((Table.mem_rowsUnder hcs).mp hr).1
    refine ⟨hrow, fun d hd => ?_⟩
    have hdr := ((h.ordered.mem_others hrow).mp hd).1
    obtain ⟨hdcs, hrd⟩ := Table.mem_rowsUnder_of_mem hcs hr hdr
    refine ⟨hrd, fun hdy => ?_⟩
    obtain ⟨s, hrs, hds, hout⟩ := hclear.exists_below hdy hdr (c := c) (by simp) hrow
    exact ⟨s, (Table.mem_rowsUnder hdcs).mpr ⟨hds, fun e he => hout e (List.mem_append_left _ he)⟩,
      hrs, hout c (by simp)⟩
  obtain ⟨hrep, heq⟩ := Represents.cover_eq h hc hp ha
    (fun r hr d hd => ((hrows r hr).2 d hd).1) hroom
  have hloop : Diamond (Gains y id) (Takes fun m => m.unlinkHeader (c + 1) >>=
      (((t.rowsUnder cs c).map (t.entry · c)).foldlM hideRow ·)) m := by
    refine (Represents.diamond_unlinkHeader h hp hshown hc ha).bind fun m₁ h₁ => ?_
    exact (hrep m₁ h₁).diamond_hideRows (fun a hm => hp a (List.mem_of_mem_filter hm)) hshown
      (t.nodup_shownRows _ c) hroom hrows
  intro m₁ m₂ h₁ h₂
  obtain ⟨m₃, h₃, hg₃⟩ := hloop h₁ (heq.symm.trans h₂)
  have hsame : (t.push y).shownRows (t.shownUnder cs) c = t.rowsUnder cs c :=
    Table.shownRows_push_of_notMem hcy
  have hold {r : Nat} (hr : r ∈ t.rowsUnder cs c) : r < t.rowCount :=
    Table.lt_rowCount_of_mem (hrows r hr).1
  have hnodes : (t.rowsUnder cs c).map ((t.push y).entry · c) =
      (t.rowsUnder cs c).map (t.entry · c) :=
    List.map_congr_left fun r hr => Table.entry_push y (hold hr) c
  obtain ⟨-, heq₁⟩ := (Represents.addRow h hp hshown h₁).cover_eq hc hp ha (by
    intro r hr d hd
    rw [hsame] at hr
    rw [Table.others_push (hold hr)] at hd
    exact Table.mem_shownRows_push ((hrows r hr).2 d hd).1) (by rwa [hsame])
  rw [hsame, hnodes] at heq₁
  exact ⟨m₃, heq₁.trans h₃, hg₃⟩

/-- A row may be added before some columns are covered in turn or after. -/
theorem Under.diamond_covers (h : m.Under t cs) (hn : ds.Nodup)
    (hd : ∀ d ∈ ds, d < t.columnCount ∧ d ∉ cs) (hclear : t.Clear (cs ++ ds) y) :
    Diamond (Gains y id) (Takes (ds.foldlM cover ·)) m := by
  induction ds generalizing m cs with
  | nil => exact Diamond.pure _ m
  | cons d ds ih =>
    obtain ⟨hdt, hdcs⟩ := hd d List.mem_cons_self
    rw [List.append_cons] at hclear
    refine (h.diamond_cover hdt hdcs (hclear.mono (List.subset_append_left _ ds))).bind
      fun m₁ h₁ => ?_
    obtain ⟨m₁', h₁', -, hu⟩ := h.cover_step hdt hdcs
    obtain rfl : m₁' = m₁ := Except.ok.inj (h₁'.symm.trans h₁)
    have hd' : ∀ e ∈ ds, e < t.columnCount ∧ e ∉ cs ++ [d] := by
      intro e he
      have hne : e ≠ d := fun heq => (List.nodup_cons.mp hn).1 (heq ▸ he)
      obtain ⟨het, hecs⟩ := hd e (List.mem_cons_of_mem d he)
      exact ⟨het, by simp [hecs, hne]⟩
    exact ih hu hn.of_cons hd' hclear

/-- Adding a clear row to a stack of covers is adding it at the bottom. -/
theorem Stacked.gains (h : Stacked m₀ t cs m) (hclear : t.Clear cs y) (h₀ : Gains y id m₀ m₀')
    (hu : m₀'.Under (t.push y) []) :
    ∃ m', Gains y id m m' ∧ Stacked m₀' (t.push y) cs m' := by
  obtain ⟨m', hrun, hg⟩ := h.base.diamond_covers h.nodup
    (fun c hc => ⟨h.inRange c hc, List.not_mem_nil⟩) hclear h₀ h.run
  exact ⟨m', hg, hu, h.nodup, h.inRange, hrun⟩

theorem Stacked.cover (h : Stacked m₀ t cs m) (hc : c < t.columnCount) (hcs : c ∉ cs) :
    ∃ m', m.cover c = .ok m' ∧ Stacked m₀ t (cs ++ [c]) m' := by
  obtain ⟨m', hm', -, -⟩ := h.under.cover_step hc hcs
  have hfold : [c].foldlM CoverMatrix.cover m = .ok m' := by
    rw [List.foldlM_cons, hm']
    rfl
  exact ⟨m', hm', h.append (List.nodup_singleton c) (by simpa using ⟨hc, hcs⟩) hfold⟩

theorem Stacked.uncover (h : Stacked m₀ t (cs ++ [c]) m) :
    ∃ m', m.uncover c = .ok m' ∧ Stacked m₀ t cs m' := by
  obtain ⟨m', hbelow, hfold, hcs⟩ := h.below
  obtain ⟨m₂, hm₂, hu, -⟩ := hbelow.under.cover_step (h.inRange c (by simp)) (hcs c (by simp))
  rw [List.foldlM_cons, hm₂] at hfold
  obtain rfl : m₂ = m := Except.ok.inj hfold
  exact ⟨m', hu, hbelow⟩

inductive Change where
  | add (row : List Nat)
  | cover (column : Nat)
  | uncover (column : Nat)
deriving DecidableEq

def Change.apply (m : CoverMatrix L) : Change → Except Fault (CoverMatrix L)
  | .add row => do
    let (_, m) ← m.addRow row
    return m
  | .cover column => m.cover column
  | .uncover column => m.uncover column

def addedRows : List Change → List (List Nat)
  | [] => []
  | .add row :: changes => row :: addedRows changes
  | _ :: changes => addedRows changes

/-- Changes that lead from the table `t` with the columns `cs` covered to another table and other
columns covered. The rows are without flaw and `allowed` where they are added, only columns that
are not covered are covered, and only the latest one is uncovered. -/
inductive Growth (allowed : Table → List Nat → List Nat → Prop) :
    Table → List Nat → List Change → Table → List Nat → Prop
  | nil {t : Table} {cs : List Nat} : Growth allowed t cs [] t cs
  | add {t t' : Table} {cs cs' row : List Nat} {changes : List Change} (hne : row ≠ [])
    (hasc : row.Pairwise (· < ·)) (hlt : ∀ c ∈ row, c < t.columnCount) (ha : allowed t cs row)
    (h : Growth allowed (t.push row) cs changes t' cs') :
    Growth allowed t cs (.add row :: changes) t' cs'
  | cover {t t' : Table} {cs cs' : List Nat} {changes : List Change} {c : Nat}
    (hc : c < t.columnCount) (hcs : c ∉ cs) (h : Growth allowed t (cs ++ [c]) changes t' cs') :
    Growth allowed t cs (.cover c :: changes) t' cs'
  | uncover {t t' : Table} {cs cs' : List Nat} {changes : List Change} {c : Nat}
    (h : Growth allowed t cs changes t' cs') :
    Growth allowed t (cs ++ [c]) (.uncover c :: changes) t' cs'

variable {t' : Table} {cs' : List Nat} {changes : List Change}
  {allowed : Table → List Nat → List Nat → Prop}

theorem Growth.table_eq (h : Growth allowed t cs changes t' cs') :
    t' = ⟨t.primary, t.rows ++ addedRows changes⟩ := by
  induction h with
  | nil => simp [addedRows]
  | add _ _ _ _ _ ih =>
    rw [ih]
    simp [Table.push, addedRows]
  | cover _ _ _ ih => exact ih
  | uncover _ ih => exact ih

theorem Growth.nodeCount_le (h : Growth allowed t cs changes t' cs') :
    t.nodeCount ≤ t'.nodeCount := by
  induction h with
  | nil => exact le_rfl
  | @add t _ _ _ row _ _ _ _ _ _ ih =>
    rw [Table.nodeCount_push] at ih
    omega
  | cover _ _ _ ih => exact ih
  | uncover _ ih => exact ih

theorem Under.push (h : m.Under t []) (hm : Gains y id m m') : m'.Under (t.push y) [] := by
  have hrep := Represents.addRow h Table.primary_of_mem_active (fun _ => rfl) hm
  rwa [Table.removed_nil, ← Table.removed_nil] at hrep

/-- Changes lead from one stack of covers to another, at whose bottom the rows are added. -/
theorem Growth.run (hg : Growth Table.Clear t cs changes t' cs') (hm : Stacked m₀ t cs m)
    (hopen : m₀.isClosed = false) (hroom : t'.nodeCount < Word.modulus) :
    ∃ m₀' m', changes.foldlM Change.apply m = .ok m' ∧
      ((addedRows changes).map .add).foldlM Change.apply m₀ = .ok m₀' ∧
      Stacked m₀' t' cs' m' := by
  induction hg generalizing m₀ m with
  | nil => exact ⟨m₀, m, rfl, rfl, hm⟩
  | @add t _ cs _ row changes hne hasc hlt hclear hg ih =>
    have hfits : t.nodeCount + row.length < Word.modulus := by
      rw [← Table.nodeCount_push]
      exact hg.nodeCount_le.trans_lt hroom
    obtain ⟨m₁, h₁, hopen₁⟩ := hm.base.exists_addRow Table.primary_of_mem_active
      (fun _ => rfl) hopen hne hasc hlt hfits
    obtain ⟨m₂, h₂, hs⟩ := hm.gains hclear h₁ (hm.base.push h₁)
    obtain ⟨m₀', m', hrun, hplain, hstack⟩ := ih hs hopen₁ hroom
    refine ⟨m₀', m', ?_, ?_, hstack⟩
    · have hadd : Change.apply m (.add row) = .ok m₂ := by
        rw [Change.apply, show m.addRow row = _ from h₂]
        rfl
      rw [List.foldlM_cons, hadd]
      exact hrun
    · have hadd : Change.apply m₀ (.add row) = .ok m₁ := by
        rw [Change.apply, h₁]
        rfl
      rw [addedRows, List.map_cons, List.foldlM_cons, hadd]
      exact hplain
  | @cover t _ cs _ changes c hc hcs _ ih =>
    obtain ⟨m₁, ha, hs⟩ := hm.cover hc hcs
    rw [List.foldlM_cons, Change.apply, ha]
    exact ih hs hopen hroom
  | @uncover t _ cs _ changes c _ ih =>
    obtain ⟨m₁, hu, hs⟩ := hm.uncover
    rw [List.foldlM_cons, Change.apply, hu]
    exact ih hs hopen hroom

theorem headers_ofColumns [DecidableEq L] {columns : List (L × Bool)}
    (h : CoverMatrix.ofColumns columns = .ok (.ok m)) :
    m.headers.toList = columns.map (fun c => ⟨c.1, c.2, 0⟩) ∧ m.isClosed = false := by
  rw [CoverMatrix.ofColumns] at h
  split at h
  · cases h
  · dsimp only at h
    split at h
    case isFalse => cases h
    case isTrue =>
      obtain ⟨-, -, h⟩ := bind_eq_ok.mp h
      obtain ⟨across, -, h⟩ := bind_eq_ok.mp h
      cases h
      exact ⟨rfl, rfl⟩

theorem isClosed_ofColumns [DecidableEq L] {columns : List (L × Bool)}
    (h : CoverMatrix.ofColumns columns = .ok (.ok m)) : m.isClosed = false :=
  (headers_ofColumns h).2

/-- Rows that are clear when they are added may be added at any time while columns are covered and
uncovered in stack order. No change fails, the matrix is the one with the rows added first and the
columns covered then, and so, once every cover is undone, the one with the rows alone. -/
theorem clear_rows_commute_with_covers [DecidableEq L] {columns : List (L × Bool)}
    (h : CoverMatrix.ofColumns columns = .ok (.ok m₀))
    (hg : Growth Table.Clear (.ofColumns (columns.map Prod.snd)) [] changes t cs)
    (hroom : t.nodeCount < Word.modulus) :
    t = ⟨columns.map Prod.snd, addedRows changes⟩ ∧
      ∃ m plain, changes.foldlM Change.apply m₀ = .ok m ∧
        ((addedRows changes).map .add).foldlM Change.apply m₀ = .ok plain ∧
        cs.foldlM CoverMatrix.cover plain = .ok m ∧ (cs = [] → m = plain) ∧
        (∀ c < t.columnCount, plain.rowsDown c = .ok (t.rowsMeeting c []) ∧
          plain.rowsUp c = .ok (t.rowsMeeting c []).reverse ∧
          plain.size c = (t.rowsMeeting c []).length) ∧
        plain.removedRows = 0 ∧ plain.activeColumns = .ok (t.active []) := by
  have hu : m₀.Under (.ofColumns (columns.map Prod.snd)) [] := (Built.ofColumns h).under
  obtain ⟨plain, m, hrun, hplain, hs⟩ := hg.run (Stacked.nil hu) (isClosed_ofColumns h) hroom
  refine ⟨hg.table_eq, m, plain, hrun, hplain, hs.run, ?_, ?_, ?_, hs.base.activeColumns⟩
  · rintro rfl
    exact (Except.ok.inj hs.run).symm
  · intro c hc
    rw [← Table.rowsUnder_of_notMem List.not_mem_nil]
    exact ⟨hs.base.rowsDown hc, hs.base.rowsUp hc, Represents.size_eq hs.base hc⟩
  · rw [hs.base.removedRows, Table.removed_nil]

theorem clear_rows_commute_with_covers_sample : ∃ m₀ m : CoverMatrix Char,
    CoverMatrix.ofColumns [('a', true), ('b', true), ('x', false)] = .ok (.ok m₀) ∧
    [.add [0, 2], .cover 0, .add [1], .cover 1, .uncover 1, .add [1], .uncover 0].foldlM
      Change.apply m₀ = .ok m ∧
    m.rowsDown 1 = .ok [1, 2] ∧ m.size 1 = 2 ∧ m.removedRows = 0 ∧
    m.activeColumns = .ok [0, 1] := by
  have hm : ∃ m₀, CoverMatrix.ofColumns [('a', true), ('b', true), ('x', false)] =
      .ok (.ok m₀) := ⟨_, rfl⟩
  obtain ⟨m₀, hm⟩ := hm
  have hg : Growth Table.Clear (.ofColumns [true, true, false]) []
      [.add [0, 2], .cover 0, .add [1], .cover 1, .uncover 1, .add [1], .uncover 0]
      ⟨[true, true, false], [[0, 2], [1], [1]]⟩ [] := by
    apply Growth.add (by decide) (by decide) (by decide) (Table.clear_nil _ _)
    apply Growth.cover (by decide) (by decide)
    apply Growth.add (by decide) (by decide) (by decide) (by decide)
    apply Growth.cover (by decide) (by decide)
    apply @Growth.uncover _ _ _ [0] _ _ 1
    apply Growth.add (by decide) (by decide) (by decide) (by decide)
    exact @Growth.uncover _ _ _ [] _ _ 0 .nil
  obtain ⟨-, m, plain, hrun, -, -, hsame, hcolumns, hremoved, hactive⟩ :=
    clear_rows_commute_with_covers hm hg (by decide)
  obtain rfl := hsame rfl
  obtain ⟨hdown, -, hsize⟩ := hcolumns 1 (by decide)
  exact ⟨m₀, m, hm, hrun, hdown, hsize, hremoved, hactive⟩

/-- Otherwise a row is lost from a column, which still counts it, or undoing the covers fails. -/
theorem rows_lost_under_covers :
    (Growth (fun _ _ _ => True) (.ofColumns [false, true]) []
        [.add [0, 1], .cover 0, .add [1], .uncover 0] ⟨[false, true], [[0, 1], [1]]⟩ [] ∧
      ∃ m₀ m : CoverMatrix Char, CoverMatrix.ofColumns [('a', false), ('b', true)] = .ok (.ok m₀) ∧
        [.add [0, 1], .cover 0, .add [1], .uncover 0].foldlM Change.apply m₀ = .ok m ∧
        m.rowsDown 1 = .ok [0] ∧ m.size 1 = 2) ∧
    Growth (fun _ _ _ => True) (.ofColumns [true]) []
        [.cover 0, .add [0], .uncover 0] ⟨[true], [[0]]⟩ [] ∧
      ∃ m₀ : CoverMatrix Char, CoverMatrix.ofColumns [('a', true)] = .ok (.ok m₀) ∧
        [.cover 0, .add [0], .uncover 0].foldlM Change.apply m₀ = .error .overflow := by
  refine ⟨⟨?_, _, _, rfl, rfl, ?_, ?_⟩, ?_, _, rfl, ?_⟩
  · apply Growth.add (by decide) (by decide) (by decide) trivial
    apply Growth.cover (by decide) (by decide)
    apply Growth.add (by decide) (by decide) (by decide) trivial
    exact @Growth.uncover _ _ _ [] _ _ 0 .nil
  · rfl
  · rfl
  · apply Growth.cover (by decide) (by decide)
    apply Growth.add (by decide) (by decide) (by decide) trivial
    exact @Growth.uncover _ _ _ [] _ _ 0 .nil
  · rfl

end CoverMatrix

end DancingLinks
