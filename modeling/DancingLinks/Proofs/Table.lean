import Mathlib.Algebra.GroupWithZero.Nat
import Mathlib.Data.List.GetD
import Mathlib.Data.List.Rotate
import Mathlib.Data.List.TakeWhile

/-! # Tables

A 0/1 matrix without links: which of its columns are primary, and the columns of every row. A table
says where the entries of a linked matrix stand and, for columns covered in a given order, which of
them every column still shows.
-/
namespace DancingLinks

structure Table where
  /-- Whether each column is primary. -/
  primary : List Bool
  /-- The columns of each row. -/
  rows : List (List Nat)
deriving DecidableEq

namespace Table

variable {t : Table} {r r' c c' d : Nat} {cs : List Nat}

def columnCount (t : Table) : Nat := t.primary.length

def rowCount (t : Table) : Nat := t.rows.length

def row (t : Table) (r : Nat) : List Nat := t.rows.getD r []

def IsPrimary (t : Table) (c : Nat) : Prop := t.primary[c]? = some true

instance (t : Table) (c : Nat) : Decidable (t.IsPrimary c) :=
  inferInstanceAs (Decidable (_ = _))

theorem IsPrimary.lt (h : t.IsPrimary c) : c < t.columnCount :=
  (List.getElem?_eq_some_iff.mp h).1

/-- Every row lists columns of the table, in ascending order. -/
structure Ordered (t : Table) : Prop where
  ascending : ∀ row ∈ t.rows, row.Pairwise (· < ·)
  inRange : ∀ row ∈ t.rows, ∀ c ∈ row, c < t.columnCount

theorem row_mem_rows (h : r < t.rowCount) : t.row r ∈ t.rows := by
  rw [row, List.getD_eq_getElem _ _ h]
  exact List.getElem_mem h

theorem lt_rowCount_of_mem (h : c ∈ t.row r) : r < t.rowCount := by
  by_contra hr
  rw [row, List.getD_eq_default _ _ (by simpa [rowCount] using hr)] at h
  exact List.not_mem_nil h

theorem Ordered.nodup_row (ho : t.Ordered) (r : Nat) : (t.row r).Nodup := by
  by_cases hr : r < t.rowCount
  · exact (ho.ascending _ (row_mem_rows hr)).imp Nat.ne_of_lt
  · rw [row, List.getD_eq_default _ _ (by simpa [rowCount] using hr)]
    exact List.nodup_nil

theorem Ordered.lt_columnCount (ho : t.Ordered) (h : c ∈ t.row r) : c < t.columnCount :=
  ho.inRange _ (row_mem_rows (lt_rowCount_of_mem h)) c h

/-- The first node of a row. The root and the headers come before all rows. -/
def start (t : Table) (r : Nat) : Nat :=
  t.columnCount + 1 + ((t.rows.take r).map List.length).sum

def entry (t : Table) (r c : Nat) : Nat := t.start r + (t.row r).idxOf c

def nodeCount (t : Table) : Nat := t.start t.rowCount

theorem start_succ (h : r < t.rowCount) : t.start (r + 1) = t.start r + (t.row r).length := by
  have ht : t.rows.take (r + 1) = t.rows.take r ++ [t.row r] := by
    rw [List.take_succ_eq_append_getElem h, row, List.getD_eq_getElem _ _ h]
  rw [start, start, ht]
  simp [Nat.add_assoc]

theorem start_mono (h : r ≤ r') (hr : r' ≤ t.rowCount) : t.start r ≤ t.start r' := by
  induction r', h using Nat.le_induction with
  | base => exact le_rfl
  | succ k _ ih =>
    rw [start_succ (by omega)]
    exact (ih (by omega)).trans (Nat.le_add_right _ _)

theorem columnCount_lt_start (t : Table) (r : Nat) : t.columnCount < t.start r := by
  rw [start]
  omega

theorem start_le_entry (t : Table) (r c : Nat) : t.start r ≤ t.entry r c := Nat.le_add_right _ _

theorem columnCount_lt_entry (t : Table) (r c : Nat) : t.columnCount < t.entry r c :=
  (t.columnCount_lt_start r).trans_le (t.start_le_entry r c)

theorem entry_lt_start_succ (h : c ∈ t.row r) : t.entry r c < t.start (r + 1) := by
  rw [start_succ (lt_rowCount_of_mem h), entry]
  exact Nat.add_lt_add_left (List.idxOf_lt_length_of_mem h) _

theorem entry_lt_nodeCount (h : c ∈ t.row r) : t.entry r c < t.nodeCount :=
  (entry_lt_start_succ h).trans_le (start_mono (lt_rowCount_of_mem h) le_rfl)

theorem entry_inj (h : c ∈ t.row r) (h' : c' ∈ t.row r') (he : t.entry r c = t.entry r' c') :
    r = r' ∧ c = c' := by
  have hlt {i j a b : Nat} (ha : a ∈ t.row i) (hb : b ∈ t.row j) (hij : i < j) :
      t.entry i a < t.entry j b :=
    ((entry_lt_start_succ ha).trans_le (start_mono hij (lt_rowCount_of_mem hb).le)).trans_le
      (t.start_le_entry j b)
  rcases Nat.lt_trichotomy r r' with hr | rfl | hr
  · exact absurd he (hlt h h' hr).ne
  · rw [entry, entry] at he
    exact ⟨rfl, (List.idxOf_inj h).mp (Nat.add_left_cancel he)⟩
  · exact absurd he (hlt h' h hr).ne'

def rowNodes (t : Table) (r : Nat) : List Nat := (t.row r).map (t.entry r)

/-- The other columns of row `r`, from the one behind `c` around to the one before it. -/
def others (t : Table) (r c : Nat) : List Nat := ((t.row r).rotate ((t.row r).idxOf c)).tail

theorem rotate_row (h : c ∈ t.row r) :
    (t.row r).rotate ((t.row r).idxOf c) = c :: t.others r c := by
  have hi := List.idxOf_lt_length_of_mem h
  have hh := List.head?_rotate hi
  rw [List.getElem?_eq_getElem hi, List.getElem_idxOf] at hh
  obtain ⟨xs, hxs⟩ := List.head?_eq_some_iff.mp hh
  rw [others, hxs, List.tail_cons]

theorem row_isRotated (h : c ∈ t.row r) : t.row r ~r (c :: t.others r c) := by
  rw [← rotate_row h]
  exact (List.IsRotated.forall _ _).symm

theorem Ordered.nodup_others (ho : t.Ordered) (h : c ∈ t.row r) : (c :: t.others r c).Nodup :=
  (row_isRotated h).nodup_iff.mp (ho.nodup_row r)

theorem Ordered.mem_others (ho : t.Ordered) (h : c ∈ t.row r) :
    d ∈ t.others r c ↔ d ∈ t.row r ∧ d ≠ c := by
  have hm := (row_isRotated h).mem_iff (a := d)
  have hc := (List.nodup_cons.mp (ho.nodup_others h)).1
  rw [hm, List.mem_cons]
  constructor
  · intro hd
    exact ⟨Or.inr hd, fun he => hc (he ▸ hd)⟩
  · rintro ⟨rfl | hd, hne⟩
    · exact absurd rfl hne
    · exact hd

/-- Whether a row, given first, is shown by a column. -/
abbrev Shown := Nat → Nat → Bool

/-- Hides some entries, each given by its row and its column. -/
def Shown.minus (shown : Shown) (entries : List (Nat × Nat)) : Shown :=
  fun r c => shown r c && !decide ((r, c) ∈ entries)

theorem Shown.minus_nil (shown : Shown) : shown.minus [] = shown := by
  funext r c
  simp [minus]

theorem Shown.minus_append (shown : Shown) (es fs : List (Nat × Nat)) :
    shown.minus (es ++ fs) = (shown.minus es).minus fs := by
  funext r c
  simp [minus, Bool.and_assoc]

def shownRows (t : Table) (shown : Shown) (c : Nat) : List Nat :=
  (List.range t.rowCount).filter fun r => decide (c ∈ t.row r) && shown r c

def columnNodes (t : Table) (shown : Shown) (c : Nat) : List Nat :=
  (t.shownRows shown c).map (t.entry · c)

variable {shown shown' : Shown}

theorem mem_shownRows : r ∈ t.shownRows shown c ↔ c ∈ t.row r ∧ shown r c = true := by
  simp only [shownRows, List.mem_filter, List.mem_range, Bool.and_eq_true, decide_eq_true_eq]
  exact ⟨fun h => h.2, fun h => ⟨lt_rowCount_of_mem h.1, h⟩⟩

theorem mem_shownRows_minus {es : List (Nat × Nat)} :
    r ∈ t.shownRows (shown.minus es) c ↔ r ∈ t.shownRows shown c ∧ (r, c) ∉ es := by
  simp [mem_shownRows, Shown.minus, and_assoc]

theorem nodup_shownRows (t : Table) (shown : Shown) (c : Nat) : (t.shownRows shown c).Nodup :=
  List.nodup_range.filter _

theorem shownRows_congr (h : ∀ r, c ∈ t.row r → shown r c = shown' r c) :
    t.shownRows shown c = t.shownRows shown' c := by
  apply List.filter_congr
  intro r _
  by_cases hc : c ∈ t.row r
  · simp [hc, h r hc]
  · simp [hc]

theorem shownRows_minus_of_ne {es : List (Nat × Nat)} (h : ∀ e ∈ es, e.2 ≠ c) :
    t.shownRows (shown.minus es) c = t.shownRows shown c := by
  apply shownRows_congr
  intro r _
  have hr : (r, c) ∉ es := fun he => h _ he rfl
  simp [Shown.minus, hr]

/-- Hiding one entry takes its row out of the rows that its column shows. -/
theorem shownRows_minus (h : r ∈ t.shownRows shown c) :
    ∃ above below, t.shownRows shown c = above ++ r :: below ∧
      t.shownRows (shown.minus [(r, c)]) c = above ++ below := by
  rcases List.append_of_mem h with ⟨above, below, hab⟩
  have hn := t.nodup_shownRows shown c
  have he : t.shownRows (shown.minus [(r, c)]) c = (t.shownRows shown c).erase r := by
    rw [hn.erase_eq_filter, shownRows, shownRows, List.filter_filter]
    apply List.filter_congr
    intro i _
    by_cases hi : i = r <;> simp [Shown.minus, hi]
  rw [hab] at hn
  have hr : r ∉ above := fun hm => (List.nodup_append.mp hn).2.2 r hm r (by simp) rfl
  rw [hab, List.erase_append_right _ hr, List.erase_cons_head] at he
  exact ⟨above, below, hab, he⟩

/-- What columns show while the columns `cs` are covered in this order: a row goes out of sight in
a column as soon as an earlier column meets it. -/
def shownUnder (t : Table) (cs : List Nat) : Shown :=
  fun r c => (cs.takeWhile (· ≠ c)).all (· ∉ t.row r)

def rowsUnder (t : Table) (cs : List Nat) (c : Nat) : List Nat := t.shownRows (t.shownUnder cs) c

def active (t : Table) (cs : List Nat) : List Nat :=
  (List.range t.columnCount).filter fun c => t.IsPrimary c ∧ c ∉ cs

/-- The number of rows that meet a covered column. -/
def removed (t : Table) (cs : List Nat) : Nat :=
  (List.range t.rowCount).countP fun r => cs.any (· ∈ t.row r)

theorem shownUnder_of_notMem (h : c ∉ cs) : t.shownUnder cs r c = cs.all (· ∉ t.row r) := by
  have ht : cs.takeWhile (· ≠ c) = cs := by
    rw [List.takeWhile_eq_self_iff]
    intro d hd
    simpa using ne_of_mem_of_not_mem hd h
  rw [shownUnder, ht]

/-- Later covers do not change what a covered column shows. -/
theorem shownUnder_append_of_mem (h : c ∈ cs) (ds : List Nat) :
    t.shownUnder (cs ++ ds) r c = t.shownUnder cs r c := by
  rw [shownUnder, shownUnder, List.takeWhile_append, if_neg]
  intro hl
  have ht := (List.takeWhile_sublist (fun d => decide (d ≠ c)) (l := cs)).eq_of_length hl
  have hc := List.takeWhile_eq_self_iff.mp ht c h
  simp at hc

theorem removed_nil (t : Table) : t.removed [] = 0 := by simp [removed]

theorem mem_active : c ∈ t.active cs ↔ t.IsPrimary c ∧ c ∉ cs := by
  simp only [active, List.mem_filter, List.mem_range, decide_eq_true_eq]
  exact ⟨fun h => h.2, fun h => ⟨h.1.lt, h⟩⟩

theorem primary_of_mem_active : ∀ c ∈ t.active cs, t.IsPrimary c :=
  fun _ hc => (mem_active.mp hc).1

/-- A column that is not covered shows the rows that meet it and no covered column. -/
theorem mem_row_of_rowsUnder {above below : List Nat}
    (h : t.rowsUnder cs c = above ++ r :: below) : c ∈ t.row r := by
  have hm : r ∈ t.rowsUnder cs c := by
    rw [h]
    exact List.mem_append_right above List.mem_cons_self
  exact (mem_shownRows.mp hm).1

theorem mem_rowsUnder (h : c ∉ cs) :
    r ∈ t.rowsUnder cs c ↔ c ∈ t.row r ∧ ∀ d ∈ cs, d ∉ t.row r := by
  rw [rowsUnder, mem_shownRows, shownUnder_of_notMem h]
  simp

def rowsMeeting (t : Table) (c : Nat) (before : List Nat) : List Nat :=
  (List.range t.rowCount).filter fun r => c ∈ t.row r ∧ ∀ d ∈ before, d ∉ t.row r

theorem rowsUnder_of_notMem (h : c ∉ cs) : t.rowsUnder cs c = t.rowsMeeting c cs := by
  apply List.filter_congr
  intro r _
  rw [shownUnder_of_notMem h, Bool.eq_iff_iff]
  simp

theorem rowsUnder_of_mem {before : List Nat} (h : c ∉ before) (after : List Nat) :
    t.rowsUnder (before ++ c :: after) c = t.rowsMeeting c before := by
  rw [← rowsUnder_of_notMem h]
  apply shownRows_congr
  intro r _
  have hpos : ∀ d ∈ before, (decide (d ≠ c)) = true := by
    intro d hd
    simpa using ne_of_mem_of_not_mem hd h
  rw [shownUnder, shownUnder, List.takeWhile_append_of_pos hpos,
    List.takeWhile_eq_self_iff.mpr hpos]
  simp

theorem active_eq_nil : t.active cs = [] ↔ ∀ c, t.IsPrimary c → c ∈ cs := by
  rw [List.eq_nil_iff_forall_not_mem]
  simp only [mem_active, not_and, not_not]

/-- The other columns of a row that an uncovered column shows are not covered and show it too. -/
theorem mem_rowsUnder_of_mem (h : c ∉ cs) (hr : r ∈ t.rowsUnder cs c) (hd : d ∈ t.row r) :
    d ∉ cs ∧ r ∈ t.rowsUnder cs d := by
  rw [mem_rowsUnder h] at hr
  have hdc : d ∉ cs := fun hm => hr.2 d hm hd
  exact ⟨hdc, (mem_rowsUnder hdc).mpr ⟨hd, hr.2⟩⟩

/-- The other columns of a row that an uncovered column shows are not covered either. -/
theorem Ordered.others_notMem (ho : t.Ordered) (h : c ∉ cs) (hr : r ∈ t.rowsUnder cs c) :
    ∀ d ∈ t.others r c, d ∉ cs ++ [c] := by
  intro d hd
  have hd := (ho.mem_others ((mem_rowsUnder h).mp hr).1).mp hd
  have hdcs := (mem_rowsUnder_of_mem h hr hd.1).1
  simp [hdcs, hd.2]

def hiddenBy (t : Table) (c : Nat) (rows : List Nat) : List (Nat × Nat) :=
  rows.flatMap fun r => (t.others r c).map (r, ·)

theorem Ordered.mem_hiddenBy (ho : t.Ordered) {rs : List Nat} (hr : ∀ r ∈ rs, c ∈ t.row r) :
    (r, d) ∈ t.hiddenBy c rs ↔ r ∈ rs ∧ d ∈ t.row r ∧ d ≠ c := by
  simp only [hiddenBy, List.mem_flatMap, List.mem_map, Prod.mk.injEq]
  constructor
  · rintro ⟨i, hi, e, he, rfl, rfl⟩
    exact ⟨hi, (ho.mem_others (hr i hi)).mp he⟩
  · rintro ⟨hi, he⟩
    exact ⟨r, hi, d, (ho.mem_others (hr r hi)).mpr he, rfl, rfl⟩

/-- Covering a column hides the rows it shows from every other column. -/
theorem Ordered.rowsUnder_concat (ho : t.Ordered) (h : c ∉ cs) (d : Nat) :
    t.shownRows ((t.shownUnder cs).minus (t.hiddenBy c (t.rowsUnder cs c))) d =
      t.rowsUnder (cs ++ [c]) d := by
  apply shownRows_congr
  intro r hd
  have hrows : ∀ r ∈ t.rowsUnder cs c, c ∈ t.row r := fun r hr => ((mem_rowsUnder h).mp hr).1
  rw [Shown.minus, Bool.eq_iff_iff, Bool.and_eq_true, Bool.not_eq_true', decide_eq_false_iff_not,
    ho.mem_hiddenBy hrows, mem_rowsUnder h]
  by_cases hdcs : d ∈ cs
  · rw [shownUnder_append_of_mem hdcs]
    simp only [and_iff_left_iff_imp]
    rintro - ⟨⟨-, hn⟩, -⟩
    exact hn d hdcs hd
  · rw [shownUnder_of_notMem hdcs]
    by_cases hdc : d = c
    · subst hdc
      rw [shownUnder, List.takeWhile_append_of_pos (by
        intro e he
        simpa using ne_of_mem_of_not_mem he h)]
      simp
    · rw [shownUnder_of_notMem (by simp [hdcs, hdc])]
      simp only [List.all_append, Bool.and_eq_true, List.all_eq_true, decide_eq_true_eq]
      simp only [hd, ne_eq, hdc, not_false_eq_true, and_true, List.mem_singleton, forall_eq]
      tauto

theorem removed_concat (h : c ∉ cs) :
    t.removed (cs ++ [c]) = t.removed cs + (t.rowsUnder cs c).length := by
  have hcount (p q : Nat → Bool) (l : List Nat) :
      l.countP (fun r => p r || q r) = l.countP p + l.countP fun r => q r && !p r := by
    induction l with
    | nil => rfl
    | cons r l ih =>
      cases hp : p r <;> cases hq : q r <;> simp [hp, hq, ih] <;> omega
  have hrows : t.rowsUnder cs c = (List.range t.rowCount).filter fun r =>
      decide (c ∈ t.row r) && !cs.any (· ∈ t.row r) := by
    apply List.filter_congr
    intro r _
    rw [shownUnder_of_notMem h, Bool.eq_iff_iff]
    simp
  rw [hrows, ← List.countP_eq_length_filter, removed, removed, ← hcount]
  simp only [List.any_append, List.any_cons, List.any_nil, Bool.or_false]

/-- A removed row has an entry, so there are fewer removed rows than nodes. -/
theorem removed_lt_nodeCount (t : Table) (cs : List Nat) : t.removed cs < t.nodeCount := by
  have hmap : (List.range t.rowCount).map t.row = t.rows := by
    apply List.ext_getElem
    · simp [rowCount]
    · intro i hi hi'
      rw [List.getElem_map, List.getElem_range, row, List.getD_eq_getElem _ _ hi']
  have hsum (rows : List (List Nat)) :
      rows.countP (fun row => cs.any (· ∈ row)) ≤ (rows.map List.length).sum := by
    induction rows with
    | nil => simp
    | cons row rows ih =>
      rw [List.countP_cons, List.map_cons, List.sum_cons]
      split
      · rename_i h
        obtain ⟨d, -, hd⟩ := List.any_eq_true.mp h
        have := List.length_pos_of_mem (of_decide_eq_true hd)
        omega
      · omega
  have hle := hsum t.rows
  have hcount : t.removed cs = t.rows.countP fun row => cs.any (· ∈ row) := by
    conv_rhs => rw [← hmap, List.countP_map]
    rfl
  rw [nodeCount, start, rowCount, List.take_length]
  omega

theorem active_concat : t.active (cs ++ [c]) = (t.active cs).filter (· ≠ c) := by
  rw [active, active, List.filter_filter]
  apply List.filter_congr
  intro d _
  simp only [List.mem_append, List.mem_singleton]
  rw [Bool.eq_iff_iff]
  simp
  tauto

theorem length_active_le (t : Table) (cs : List Nat) : (t.active cs).length ≤ t.columnCount := by
  rw [active]
  exact (List.length_filter_le _ _).trans_eq List.length_range

theorem length_active_lt (h : c ∈ t.active cs) (ds : List Nat) :
    (t.active (cs ++ c :: ds)).length < (t.active cs).length := by
  have hf : t.active (cs ++ c :: ds) = (t.active cs).filter (· ∉ c :: ds) := by
    rw [active, active, List.filter_filter]
    apply List.filter_congr
    intro d _
    rw [Bool.eq_iff_iff]
    simp only [List.mem_append, Bool.and_eq_true, decide_eq_true_eq]
    tauto
  rw [hf]
  exact List.length_filter_lt_length_iff_exists.mpr ⟨c, h, by simp⟩

theorem length_active_others_lt (h : c ∈ t.active cs) (r : Nat) :
    (t.active (cs ++ [c] ++ t.others r c)).length < (t.active cs).length := by
  rw [List.append_assoc]
  exact length_active_lt h (t.others r c)

theorem rowsUnder_concat_self (h : c ∉ cs) : t.rowsUnder (cs ++ [c]) c = t.rowsUnder cs c := by
  rw [rowsUnder_of_mem h, rowsUnder_of_notMem h]

def ofColumns (primary : List Bool) : Table := ⟨primary, []⟩

@[simp] theorem columnCount_ofColumns (ps : List Bool) :
    (ofColumns ps).columnCount = ps.length := rfl

@[simp] theorem row_ofColumns (ps : List Bool) (r : Nat) : (ofColumns ps).row r = [] := by
  simp [row, ofColumns]

@[simp] theorem shownRows_ofColumns (ps : List Bool) (shown : Shown) (c : Nat) :
    (ofColumns ps).shownRows shown c = [] := rfl

@[simp] theorem nodeCount_ofColumns (ps : List Bool) :
    (ofColumns ps).nodeCount = ps.length + 1 := rfl

theorem isPrimary_ofColumns_concat {ps : List Bool} {p : Bool} :
    (ofColumns (ps ++ [p])).IsPrimary d ↔
      (ofColumns ps).IsPrimary d ∨ d = ps.length ∧ p = true := by
  simp only [IsPrimary, ofColumns]
  rcases Nat.lt_trichotomy d ps.length with hd | rfl | hd
  · rw [List.getElem?_append_left hd]
    simp [hd.ne]
  · simp
  · rw [List.getElem?_eq_none (by simp; omega), List.getElem?_eq_none hd.le]
    simp [hd.ne']

theorem active_ofColumns_concat (ps : List Bool) (p : Bool) :
    (ofColumns (ps ++ [p])).active [] =
      (ofColumns ps).active [] ++ if p then [ps.length] else [] := by
  rw [active, active, columnCount_ofColumns, List.length_append, List.length_singleton,
    List.range_succ, List.filter_append, columnCount_ofColumns]
  congr 1
  · apply List.filter_congr
    intro d hd
    simp [isPrimary_ofColumns_concat, (List.mem_range.mp hd).ne]
  · have hn : ¬ (ofColumns ps).IsPrimary ps.length := fun h => (lt_irrefl _ h.lt).elim
    cases p <;> simp [isPrimary_ofColumns_concat, hn]

def push (t : Table) (row : List Nat) : Table := ⟨t.primary, t.rows ++ [row]⟩

variable {done : List Nat}

@[simp] theorem columnCount_push (t : Table) (row : List Nat) :
    (t.push row).columnCount = t.columnCount := rfl

@[simp] theorem rowCount_push (t : Table) (row : List Nat) :
    (t.push row).rowCount = t.rowCount + 1 := by
  simp [rowCount, push]

theorem row_push (t : Table) (done : List Nat) (r : Nat) :
    (t.push done).row r = if r = t.rowCount then done else t.row r := by
  rw [row, row, push]
  rcases Nat.lt_trichotomy r t.rowCount with hr | rfl | hr
  · rw [if_neg hr.ne, List.getD_append _ _ _ _ hr]
  · simp [rowCount]
  · rw [if_neg hr.ne', List.getD_eq_default, List.getD_eq_default]
    · exact hr.le
    · rw [List.length_append]
      exact hr

theorem start_push (done : List Nat) (h : r ≤ t.rowCount) : (t.push done).start r = t.start r := by
  simp only [start, push, columnCount]
  rw [List.take_append_of_le_length h]

theorem map_start_push (t : Table) (done : List Nat) :
    (List.range (t.push done).rowCount).map (t.push done).start =
      (List.range (t.rowCount + 1)).map t.start := by
  rw [rowCount_push]
  apply List.map_congr_left
  intro r hr
  exact start_push done (Nat.lt_succ_iff.mp (List.mem_range.mp hr))

theorem nodeCount_push (t : Table) (done : List Nat) :
    (t.push done).nodeCount = t.nodeCount + done.length := by
  rw [nodeCount, rowCount_push, start_succ (by simp), start_push _ le_rfl, row_push, if_pos rfl]
  rfl

theorem entry_push_self (t : Table) (done : List Nat) (c : Nat) :
    (t.push done).entry t.rowCount c = t.nodeCount + done.idxOf c := by
  rw [entry, start_push _ le_rfl, row_push, if_pos rfl]
  rfl

theorem rowNodes_push_self (t : Table) (e : Nat) (es : List Nat) :
    (t.push (e :: es)).rowNodes t.rowCount =
      t.nodeCount :: es.map ((t.push (e :: es)).entry t.rowCount) := by
  rw [rowNodes, row_push, if_pos rfl, List.map_cons, entry_push_self, List.idxOf_cons_self,
    Nat.add_zero]

theorem entry_push (done : List Nat) (h : r < t.rowCount) (c : Nat) :
    (t.push done).entry r c = t.entry r c := by
  rw [entry, start_push _ h.le, row_push, if_neg h.ne]
  rfl

theorem shownRows_push (t : Table) (done : List Nat) (shown : Shown) (c : Nat) :
    (t.push done).shownRows shown c =
      t.shownRows shown c ++ if c ∈ done ∧ shown t.rowCount c = true then [t.rowCount] else [] := by
  rw [shownRows, shownRows, rowCount_push, List.range_succ, List.filter_append]
  congr 1
  · apply List.filter_congr
    intro r hr
    rw [row_push, if_neg (List.mem_range.mp hr).ne]
  · by_cases hc : c ∈ done <;> by_cases hs : shown t.rowCount c = true <;> simp [row_push, hc, hs]

theorem row_push_nil (t : Table) (r : Nat) : (t.push []).row r = t.row r := by
  rw [row_push]
  split
  · rename_i hr
    rw [hr, row, List.getD_eq_default]
    rfl
  · rfl

theorem entry_push_nil (h : c ∈ t.row r) : (t.push []).entry r c = t.entry r c :=
  entry_push [] (lt_rowCount_of_mem h) c

theorem rowNodes_push_nil (t : Table) (r : Nat) : (t.push []).rowNodes r = t.rowNodes r := by
  rw [rowNodes, rowNodes, row_push_nil]
  apply List.map_congr_left
  intro c hc
  exact entry_push_nil hc

theorem shownRows_push_nil (t : Table) (shown : Shown) (c : Nat) :
    (t.push []).shownRows shown c = t.shownRows shown c := by
  simp [shownRows_push]

theorem columnNodes_push_nil (t : Table) (shown : Shown) (c : Nat) :
    (t.push []).columnNodes shown c = t.columnNodes shown c := by
  rw [columnNodes, columnNodes, shownRows_push_nil]
  apply List.map_congr_left
  intro r hr
  exact entry_push_nil (mem_shownRows.mp hr).1

theorem Ordered.push_nil (ho : t.Ordered) : (t.push []).Ordered := by
  constructor
  · intro row h
    rcases List.mem_append.mp h with h | h
    · exact ho.ascending row h
    · rw [List.mem_singleton.mp h]
      exact List.Pairwise.nil
  · intro row h c hc
    rcases List.mem_append.mp h with h | h
    · exact ho.inRange row h c hc
    · rw [List.mem_singleton.mp h] at hc
      exact absurd hc List.not_mem_nil

theorem mem_row_push_concat : d ∈ (t.push (done ++ [c])).row r ↔
    d ∈ (t.push done).row r ∨ r = t.rowCount ∧ d = c := by
  rw [row_push, row_push]
  by_cases hr : r = t.rowCount <;> simp [hr]

theorem entry_push_concat (h : d ∈ (t.push done).row r) :
    (t.push (done ++ [c])).entry r d = (t.push done).entry r d := by
  have hr := lt_rowCount_of_mem h
  rw [rowCount_push] at hr
  rcases Nat.lt_succ_iff_lt_or_eq.mp hr with hr | rfl
  · rw [entry_push _ hr, entry_push _ hr]
  · rw [row_push, if_pos rfl] at h
    rw [entry_push_self, entry_push_self, List.idxOf_append_of_mem h]

theorem entry_push_new (h : c ∉ done) :
    (t.push (done ++ [c])).entry t.rowCount c = (t.push done).nodeCount := by
  rw [entry_push_self, nodeCount_push, List.idxOf_append_of_notMem h]
  simp

theorem shownRows_push_concat (h : c ∉ done) (hs : shown t.rowCount c = true) (d : Nat) :
    (t.push (done ++ [c])).shownRows shown d =
      (t.push done).shownRows shown d ++ if d = c then [t.rowCount] else [] := by
  rw [shownRows_push, shownRows_push, List.append_assoc]
  congr 1
  by_cases hdc : d = c
  · simp [hdc, h, hs]
  · simp [hdc]

theorem columnNodes_push_concat (h : c ∉ done) (hs : shown t.rowCount c = true) (d : Nat) :
    (t.push (done ++ [c])).columnNodes shown d =
      (t.push done).columnNodes shown d ++ if d = c then [(t.push done).nodeCount] else [] := by
  rw [columnNodes, columnNodes, shownRows_push_concat h hs, List.map_append]
  congr 1
  · apply List.map_congr_left
    intro r hr
    exact entry_push_concat (mem_shownRows.mp hr).1
  · split
    · rename_i hdc
      rw [hdc, List.map_singleton, entry_push_new h]
    · rfl

theorem rowNodes_push_concat_self (h : c ∉ done) :
    (t.push (done ++ [c])).rowNodes t.rowCount =
      (t.push done).rowNodes t.rowCount ++ [(t.push done).nodeCount] := by
  rw [rowNodes, rowNodes, row_push, row_push, if_pos rfl, if_pos rfl, List.map_append,
    List.map_singleton, entry_push_new h]
  congr 1
  apply List.map_congr_left
  intro d hd
  apply entry_push_concat
  rwa [row_push, if_pos rfl]

theorem rowNodes_push_concat (h : r ≠ t.rowCount) :
    (t.push (done ++ [c])).rowNodes r = (t.push done).rowNodes r := by
  rw [rowNodes, rowNodes, row_push, row_push, if_neg h, if_neg h]
  apply List.map_congr_left
  intro d hd
  apply entry_push_concat
  rwa [row_push, if_neg h]

theorem Ordered.push_concat (ho : (t.push done).Ordered) (hd : ∀ d ∈ done, d < c)
    (hc : c < t.columnCount) : (t.push (done ++ [c])).Ordered := by
  have hmem {row : List Nat} (h : row ∈ (t.push (done ++ [c])).rows) :
      row ∈ (t.push done).rows ∨ row = done ++ [c] := by
    simp only [push, List.mem_append, List.mem_singleton] at h ⊢
    tauto
  have hdone : done ∈ (t.push done).rows := by simp [push]
  constructor
  · intro row h
    rcases hmem h with h | rfl
    · exact ho.ascending row h
    · exact List.pairwise_append.mpr ⟨ho.ascending done hdone, List.pairwise_singleton _ _,
        fun d hm e he => by rw [List.mem_singleton.mp he]; exact hd d hm⟩
  · intro row h d hm
    rcases hmem h with h | rfl
    · exact ho.inRange row h d hm
    · rcases List.mem_append.mp hm with hm | hm
      · exact ho.inRange done hdone d hm
      · rw [List.mem_singleton.mp hm]
        exact hc

end Table

end DancingLinks
