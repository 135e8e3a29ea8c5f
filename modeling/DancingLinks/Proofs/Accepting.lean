import DancingLinks.Proofs.Growing
import DancingLinks.Proofs.Reading

/-! # What building accepts

A list of columns is turned down at the first label that occurred before. A row is turned down at
its first entry that is out of range or not above the entry before it, and no row is taken once the
matrix is closed; whatever is turned down leaves the matrix as it was. What was accepted can be read
off again, by rows and by columns, in either direction.
-/
namespace DancingLinks

variable {L : Type}

/-- The label at `index` is the first one that occurred before. -/
def RepeatsFirstAt (labels : List L) (index : Nat) : Prop :=
  ∃ before label after, labels = before ++ label :: after ∧ before.length = index ∧
    before.Nodup ∧ label ∈ before

theorem RepeatsFirstAt.not_nodup {labels : List L} {index : Nat} (h : RepeatsFirstAt labels index) :
    ¬ labels.Nodup := by
  obtain ⟨before, label, after, rfl, -, -, hmem⟩ := h
  intro hn
  exact (List.nodup_append.mp hn).2.2 label hmem label List.mem_cons_self rfl

theorem exists_repeatsFirstAt {labels : List L} (h : ¬ labels.Nodup) :
    ∃ index, RepeatsFirstAt labels index := by
  induction labels using List.reverseRecOn with
  | nil => exact absurd List.nodup_nil h
  | append_singleton before label ih =>
    by_cases hn : before.Nodup
    · have hmem : label ∈ before := by
        by_contra hm
        exact h (List.nodup_append.mpr ⟨hn, List.nodup_singleton _, fun l hl l' hl' he =>
          hm (List.mem_singleton.mp hl' ▸ he ▸ hl)⟩)
      exact ⟨before.length, before, label, [], rfl, rfl, hn, hmem⟩
    · obtain ⟨index, start, repeated, rest, rfl, hlength, hstart, hmem⟩ := ih hn
      refine ⟨index, start, repeated, rest ++ [label], ?_, hlength, hstart, hmem⟩
      rw [List.append_assoc, List.cons_append]

namespace CoverMatrix

variable [DecidableEq L]

theorem firstRepeat_append {seen before rest : List L} (hn : before.Nodup)
    (hseen : ∀ l ∈ before, l ∉ seen) :
    firstRepeat seen (before ++ rest) = firstRepeat (before.reverse ++ seen) rest := by
  induction before generalizing seen with
  | nil => rfl
  | cons l before ih =>
    obtain ⟨hl, hn⟩ := List.nodup_cons.mp hn
    rw [List.forall_mem_cons] at hseen
    rw [List.cons_append, firstRepeat, if_neg hseen.1, ih hn, List.reverse_cons, List.append_cons]
    intro x hx hm
    rcases List.mem_cons.mp hm with rfl | hm
    · exact hl hx
    · exact hseen.2 x hx hm

theorem firstRepeat_eq_some {labels : List L} {index : Nat} :
    firstRepeat [] labels = some index ↔ RepeatsFirstAt labels index := by
  have hsome : ∀ i, RepeatsFirstAt labels i → firstRepeat [] labels = some i := by
    rintro i ⟨before, label, after, rfl, rfl, hn, hmem⟩
    have hmem' : label ∈ before.reverse ++ [] := by simpa using hmem
    rw [firstRepeat_append hn fun _ _ => List.not_mem_nil, firstRepeat, if_pos hmem']
    simp
  constructor
  · intro h
    have hn : ¬ labels.Nodup := fun hn => by
      rw [firstRepeat_eq_none.mpr ⟨hn, fun _ _ => List.not_mem_nil⟩] at h
      cases h
    obtain ⟨i, hi⟩ := exists_repeatsFirstAt hn
    obtain rfl : i = index := Option.some.inj ((hsome i hi).symm.trans h)
    exact hi
  · exact hsome index

/-- A list of columns is turned down for a label exactly at its first repeat. -/
theorem ofColumns_eq_duplicateColumn {columns : List (L × Bool)} {index : Nat} :
    ofColumns columns = .ok (.error (.duplicateColumn index)) ↔
      RepeatsFirstAt (columns.map Prod.fst) index := by
  rw [← firstRepeat_eq_some, ofColumns]
  cases firstRepeat [] (columns.map Prod.fst) with
  | some i => simp
  | none =>
    simp only [reduceCtorEq, iff_false]
    intro h
    split at h
    · obtain ⟨across, -, h⟩ := bind_eq_ok.mp h
      cases h
    · cases h

theorem ofColumns_eq_tooManyColumns {columns : List (L × Bool)}
    (hn : (columns.map Prod.fst).Nodup) (hnodes : Word.modulus ≤ columns.length + 1) :
    ofColumns columns = .ok (.error .tooManyColumns) := by
  have hrep : firstRepeat [] (columns.map Prod.fst) = none :=
    firstRepeat_eq_none.mpr ⟨hn, fun _ _ => List.not_mem_nil⟩
  simp only [ofColumns, hrep, if_neg (Nat.not_lt.mpr hnodes)]

end CoverMatrix

def Sound (columns : Nat) (row : List Nat) : Prop :=
  row.Pairwise (· < ·) ∧ ∀ c ∈ row, c < columns

instance (columns : Nat) (row : List Nat) : Decidable (Sound columns row) :=
  inferInstanceAs (Decidable (_ ∧ _))

theorem Sound.concat {columns last index : Nat} {before : List Nat}
    (h : Sound columns (before ++ [last])) (hlt : last < index) (hr : index < columns) :
    Sound columns (before ++ [last] ++ [index]) := by
  obtain ⟨hasc, hrange⟩ := h
  have hlast : ∀ c ∈ before, c < last := fun c hc =>
    (List.pairwise_append.mp hasc).2.2 c hc last List.mem_cons_self
  refine ⟨List.pairwise_append.mpr ⟨hasc, List.pairwise_singleton _ _, ?_⟩, ?_⟩
  · simp only [List.mem_append, List.mem_singleton]
    rintro c (hc | rfl) _ rfl
    · exact (hlast c hc).trans hlt
    · exact hlt
  · intro c hc
    rcases List.mem_append.mp hc with hc | hc
    · exact hrange c hc
    · exact List.mem_singleton.mp hc ▸ hr

/-- What is wrong with a row: there is nothing in it, or its first entry that is out of range or not
above the entry before it. An entry that is both is out of range. -/
inductive Flaw (columns : Nat) : List Nat → Rejection → Prop
  | empty : Flaw columns [] .emptyRow
  | outOfRange {before after : List Nat} {index : Nat} (hs : Sound columns before)
    (h : columns ≤ index) : Flaw columns (before ++ index :: after) (.outOfRange index columns)
  | notAscending {before after : List Nat} {last index : Nat}
    (hs : Sound columns (before ++ [last])) (hr : index < columns) (h : index ≤ last) :
    Flaw columns (before ++ last :: index :: after) (.notAscending (before.length + 1))

variable {columns : Nat} {row : List Nat} {flaw : Rejection}

/-- What follows the flaw does not matter. -/
theorem Flaw.append (h : Flaw columns row flaw) (hne : row ≠ []) (more : List Nat) :
    Flaw columns (row ++ more) flaw := by
  cases h with
  | empty => exact absurd rfl hne
  | outOfRange hs h =>
    rw [List.append_assoc]
    exact .outOfRange hs h
  | notAscending hs hr h =>
    rw [List.append_assoc]
    exact .notAscending hs hr h

theorem exists_flaw (h : ¬ Sound columns row) : ∃ flaw, Flaw columns row flaw := by
  induction row using List.reverseRecOn with
  | nil => exact ⟨_, .empty⟩
  | append_singleton before index ih =>
    by_cases hs : Sound columns before
    · by_cases hr : index < columns
      · obtain rfl | ⟨before, last, rfl⟩ := before.eq_nil_or_concat'
        · exact absurd ⟨List.pairwise_singleton _ _, by simpa using hr⟩ h
        · have hle : index ≤ last := not_lt.mp fun hlt => h (hs.concat hlt hr)
          rw [List.append_assoc]
          exact ⟨_, .notAscending hs hr hle⟩
      · exact ⟨_, .outOfRange hs (not_lt.mp hr)⟩
    · have hne : before ≠ [] := by
        rintro rfl
        exact hs ⟨List.Pairwise.nil, by simp⟩
      obtain ⟨flaw, hf⟩ := ih hs
      exact ⟨flaw, hf.append hne _⟩

def Table.Takes (t : Table) (row : List Nat) : Prop := row ≠ [] ∧ Sound t.columnCount row

instance (t : Table) (row : List Nat) : Decidable (t.Takes row) :=
  inferInstanceAs (Decidable (_ ∧ _))

theorem Table.exists_flaw_of_not_takes {t : Table} (h : ¬ t.Takes row) :
    ∃ flaw, Flaw t.columnCount row flaw := by
  by_cases hne : row = []
  · subst hne
    exact ⟨_, .empty⟩
  · exact exists_flaw fun hs => h ⟨hne, hs⟩

namespace CoverMatrix

variable {m : CoverMatrix L}

theorem entriesFlaw_of_sound {before : List Nat} (hs : Sound columns before) (rest : List Nat) :
    entriesFlaw columns 0 none (before ++ rest) =
      entriesFlaw columns before.length before.getLast? rest := by
  have h := @entriesFlaw_append columns 0 none before hs.1 hs.2 rest
  rwa [Nat.zero_add, Option.or_none] at h

theorem rowFlaw_of_flaw (hopen : m.isClosed = false) (hf : Flaw m.columnCount row flaw) :
    m.rowFlaw row = some flaw := by
  rw [rowFlaw, hopen, if_neg Bool.false_ne_true]
  cases hf with
  | empty => rfl
  | outOfRange hs h =>
    rw [if_neg (by simp), entriesFlaw_of_sound hs, entriesFlaw, if_pos h]
  | notAscending hs hr h =>
    rw [if_neg (by simp), List.append_cons, entriesFlaw_of_sound hs, entriesFlaw,
      if_neg (not_le.mpr hr), if_pos (by simpa using h), List.length_append, List.length_singleton]

theorem rowFlaw_of_takes {t : Table} (hopen : m.isClosed = false)
    (ht : m.columnCount = t.columnCount) (h : t.Takes row) : m.rowFlaw row = none := by
  rw [rowFlaw, hopen, if_neg Bool.false_ne_true, if_neg (by simpa using h.1), ht]
  exact entriesFlaw_eq_none h.2.1 h.2.2

/-- What is turned down leaves the matrix as it was. -/
theorem addRow_of_rowFlaw (h : m.rowFlaw row = some flaw) :
    m.addRow row = .ok (.error flaw, m) := by
  rw [addRow, h]

def labels (m : CoverMatrix L) : List L := m.headers.toList.map (·.label)

theorem labels_ofColumns [DecidableEq L] {columns : List (L × Bool)}
    (h : ofColumns columns = .ok (.ok m)) : m.labels = columns.map Prod.fst := by
  rw [labels, (headers_ofColumns h).1, List.map_map]
  rfl

theorem labels_foldlM_appendEntry {first id : Nat} {m' : CoverMatrix L}
    (h : row.foldlM (appendEntry id first) m = .ok m') : m'.labels = m.labels := by
  induction row generalizing m with
  | nil =>
    cases h
    rfl
  | cons c row ih =>
    rw [List.foldlM_cons] at h
    obtain ⟨m₁, h₁, h⟩ := bind_eq_ok.mp h
    obtain ⟨-, down, across, headers, -, -, hresize, rfl⟩ := appendEntry_eq_ok.mp h₁
    obtain ⟨hc, s, -, rfl⟩ := resize_eq_ok.mp hresize
    exact (ih h).trans (map_setSize (fun _ _ => rfl) _ _ _)

theorem labels_addRow {id : Nat} {m' : CoverMatrix L} (h : m.addRow row = .ok (.ok id, m')) :
    m'.labels = m.labels := by
  obtain ⟨-, m₁, rfl, h₁⟩ := addRow_eq h
  have hentries : m₁.labels = m.labels := labels_foldlM_appendEntry h₁
  exact hentries

end CoverMatrix

inductive Request where
  | add (row : List Nat)
  | close

def Request.apply (m : CoverMatrix L) : Request → Except Fault (CoverMatrix L)
  | .add row => do
    let (_, m) ← m.addRow row
    return m
  | .close => .ok m.close

/-- What the requests so far have led to. -/
structure Ledger where
  /-- The columns and the rows accepted. -/
  table : Table
  isClosed : Bool

namespace Ledger

variable {l : Ledger}

def ofColumns (primary : List Bool) : Ledger := ⟨.ofColumns primary, false⟩

def after (l : Ledger) : Request → Ledger
  | .add row => if l.isClosed = false ∧ l.table.Takes row then ⟨l.table.push row, false⟩ else l
  | .close => ⟨l.table, true⟩

/-- How the request for a row is to be answered: a closed matrix takes none, a flaw is named, and
the id of an accepted row is the number of the rows accepted before. -/
inductive Answers (l : Ledger) (row : List Nat) : Except Rejection Nat → Prop
  | closed (h : l.isClosed = true) : Answers l row (.error .closedMatrix)
  | flawed {flaw : Rejection} (h : l.isClosed = false) (hf : Flaw l.table.columnCount row flaw) :
    Answers l row (.error flaw)
  | accepted (h : l.isClosed = false) (ht : l.table.Takes row) :
    Answers l row (.ok l.table.rowCount)

theorem exists_answers (l : Ledger) (row : List Nat) : ∃ answer, l.Answers row answer := by
  cases hc : l.isClosed with
  | true => exact ⟨_, .closed hc⟩
  | false =>
    by_cases ht : l.table.Takes row
    · exact ⟨_, .accepted hc ht⟩
    · obtain ⟨flaw, hf⟩ := Table.exists_flaw_of_not_takes ht
      exact ⟨_, .flawed hc hf⟩

theorem nodeCount_le_after (l : Ledger) (request : Request) :
    l.table.nodeCount ≤ (l.after request).table.nodeCount := by
  cases request with
  | close => exact le_rfl
  | add row =>
    rw [after]
    split
    · rw [Table.nodeCount_push]
      exact Nat.le_add_right _ _
    · exact le_rfl

theorem nodeCount_le_foldl (l : Ledger) (requests : List Request) :
    l.table.nodeCount ≤ (requests.foldl after l).table.nodeCount := by
  induction requests generalizing l with
  | nil => exact le_rfl
  | cons request requests ih => exact (l.nodeCount_le_after request).trans (ih _)

end Ledger

namespace CoverMatrix

variable {m : CoverMatrix L} {l : Ledger} {columns : List (L × Bool)}
  {answer : Except Rejection Nat}

/-- The matrix has the given columns and is otherwise what a ledger says. -/
structure Keeps (m : CoverMatrix L) (columns : List (L × Bool)) (l : Ledger) : Prop where
  under : m.Under l.table []
  labels : m.labels = columns.map Prod.fst
  primary : l.table.primary = columns.map Prod.snd
  rows : ∀ row ∈ l.table.rows, row ≠ []
  isClosed : m.isClosed = l.isClosed

theorem Keeps.columnCount (h : m.Keeps columns l) : m.columnCount = l.table.columnCount :=
  h.under.headers_size

theorem Keeps.columnCount_eq (h : m.Keeps columns l) : l.table.columnCount = columns.length := by
  rw [Table.columnCount, h.primary, List.length_map]

theorem keeps_ofColumns [DecidableEq L] (h : CoverMatrix.ofColumns columns = .ok (.ok m)) :
    m.Keeps columns (.ofColumns (columns.map Prod.snd)) where
  under := (Built.ofColumns h).under
  labels := labels_ofColumns h
  primary := rfl
  rows _ hrow := absurd hrow List.not_mem_nil
  isClosed := isClosed_ofColumns h

/-- The request for a row is answered as the ledger says, and nothing changes if it is turned
down. -/
theorem Keeps.addRow (h : m.Keeps columns l) (ha : l.Answers row answer)
    (hroom : (l.after (.add row)).table.nodeCount < Word.modulus) :
    ∃ m', m.addRow row = .ok (answer, m') ∧ m'.Keeps columns (l.after (.add row)) ∧
      ∀ flaw, answer = .error flaw → m' = m := by
  cases ha with
  | closed hc =>
    have hflaw : m.rowFlaw row = some .closedMatrix := by rw [rowFlaw, h.isClosed, hc, if_pos rfl]
    refine ⟨m, addRow_of_rowFlaw hflaw, ?_, fun _ _ => rfl⟩
    rwa [Ledger.after, if_neg (by simp [hc])]
  | flawed hc hf =>
    rw [← h.columnCount] at hf
    have hflaw := rowFlaw_of_flaw (h.isClosed.trans hc) hf
    have hnot : ¬ l.table.Takes row := by
      intro ht
      rw [rowFlaw_of_takes (h.isClosed.trans hc) h.columnCount ht] at hflaw
      cases hflaw
    refine ⟨m, addRow_of_rowFlaw hflaw, ?_, fun _ _ => rfl⟩
    rwa [Ledger.after, if_neg fun hl => hnot hl.2]
  | accepted hc ht =>
    rw [Ledger.after, if_pos ⟨hc, ht⟩] at hroom ⊢
    rw [Table.nodeCount_push] at hroom
    obtain ⟨m', hm', hopen⟩ := h.under.exists_addRow Table.primary_of_mem_active (fun _ => rfl)
      (h.isClosed.trans hc) ht.1 ht.2.1 ht.2.2 hroom
    have hunder := Represents.addRow h.under Table.primary_of_mem_active (fun _ => rfl) hm'
    rw [Table.removed_nil, ← Table.removed_nil (l.table.push row)] at hunder
    refine ⟨m', hm', ⟨hunder, (labels_addRow hm').trans h.labels, h.primary, ?_, hopen⟩, by simp⟩
    intro row' hrow'
    rcases List.mem_append.mp hrow' with hrow' | hrow'
    · exact h.rows row' hrow'
    · exact List.mem_singleton.mp hrow' ▸ ht.1

theorem Keeps.apply (h : m.Keeps columns l) (request : Request)
    (hroom : (l.after request).table.nodeCount < Word.modulus) :
    ∃ m', request.apply m = .ok m' ∧ m'.Keeps columns (l.after request) := by
  cases request with
  | close => exact ⟨m.close, rfl, { h.under with }, h.labels, h.primary, h.rows, rfl⟩
  | add row =>
    obtain ⟨answer, ha⟩ := l.exists_answers row
    obtain ⟨m', hm', hkeeps, -⟩ := h.addRow ha hroom
    exact ⟨m', by rw [Request.apply, hm']; rfl, hkeeps⟩

theorem Keeps.run {requests : List Request} (h : m.Keeps columns l)
    (hroom : (requests.foldl Ledger.after l).table.nodeCount < Word.modulus) :
    ∃ m', requests.foldlM Request.apply m = .ok m' ∧
      m'.Keeps columns (requests.foldl Ledger.after l) := by
  induction requests generalizing m l with
  | nil => exact ⟨m, rfl, h⟩
  | cons request requests ih =>
    have hfirst := ((l.after request).nodeCount_le_foldl requests).trans_lt hroom
    obtain ⟨m₁, h₁, hkeeps⟩ := h.apply request hfirst
    rw [List.foldlM_cons, h₁]
    exact ih hkeeps hroom

/-- Everything that can be read off a matrix with these columns is what the table says. -/
structure Shows (m : CoverMatrix L) (columns : List (L × Bool)) (t : Table) : Prop where
  rowCount : m.rowCount = t.rowCount
  columnCount : m.columnCount = columns.length
  /-- The size of a column is the number of rows that contain it. -/
  header : ∀ c label primary, columns[c]? = some (label, primary) →
    m.header c = .ok ⟨label, primary, (t.rowsMeeting c []).length⟩
  row : ∀ r < t.rowCount, m.rowColumns r = .ok (t.row r)
  /-- The nodes of a row form a ring, forward and backward. -/
  rowRing : ∀ r < t.rowCount, ∃ first rest, m.rowHeads[r]? = some first ∧
    m.across.forward first = .ok rest ∧ m.across.backward first = .ok rest.reverse ∧
    (first :: rest).mapM m.columnOf = .ok (t.row r) ∧ ∀ node ∈ first :: rest, m.rowOf node = .ok r
  rowsDown : ∀ c < columns.length, m.rowsDown c = .ok (t.rowsMeeting c [])
  rowsUp : ∀ c < columns.length, m.rowsUp c = .ok (t.rowsMeeting c []).reverse
  activeColumns : m.activeColumns = .ok (t.active [])
  activeBackward : m.activeBackward = .ok (t.active []).reverse
  removedRows : m.removedRows = 0
  entryCount : m.entryCount = (t.rows.map List.length).sum

theorem Keeps.header (h : m.Keeps columns l) {c : Nat} {label : L} {primary : Bool}
    (hcolumn : columns[c]? = some (label, primary)) :
    m.header c = .ok ⟨label, primary, (l.table.rowsMeeting c []).length⟩ := by
  have hlabel : (columns.map Prod.fst)[c]? = some label := by rw [List.getElem?_map, hcolumn]; rfl
  have hprimary : (columns.map Prod.snd)[c]? = some primary := by
    rw [List.getElem?_map, hcolumn]
    rfl
  have hc : c < m.headers.size := by
    rw [h.under.headers_size, h.columnCount_eq]
    exact (List.getElem?_eq_some_iff.mp hcolumn).1
  have hrows : l.table.rowsMeeting c [] = l.table.rowsUnder [] c :=
    (Table.rowsUnder_of_notMem List.not_mem_nil).symm
  have hsize : m.headers[c].size = (l.table.rowsUnder [] c).length := h.under.sizes c hc
  rw [← h.labels, CoverMatrix.labels, List.getElem?_map, Array.getElem?_toList,
    Array.getElem?_eq_getElem hc] at hlabel
  rw [← h.primary, ← h.under.primary, List.getElem?_map, Array.getElem?_toList,
    Array.getElem?_eq_getElem hc] at hprimary
  rw [CoverMatrix.header, dif_pos hc, hrows, ← hsize, ← Option.some.inj hlabel,
    ← Option.some.inj hprimary]

theorem Keeps.shows (h : m.Keeps columns l) : m.Shows columns l.table := by
  have hrows (c : Nat) : l.table.rowsUnder [] c = l.table.rowsMeeting c [] :=
    Table.rowsUnder_of_notMem List.not_mem_nil
  have hne : ∀ r < l.table.rowCount, l.table.row r ≠ [] := fun r hr =>
    h.rows _ (Table.row_mem_rows hr)
  exact {
    rowCount := h.under.rowCount_eq
    columnCount := h.columnCount.trans h.columnCount_eq
    header := fun c label primary => h.header
    row := fun r hr => h.under.rowColumns hr (hne r hr)
    rowRing := fun r hr => h.under.rowRing hr (hne r hr)
    rowsDown := fun c hc => hrows c ▸ h.under.rowsDown (hc.trans_eq h.columnCount_eq.symm)
    rowsUp := fun c hc => hrows c ▸ h.under.rowsUp (hc.trans_eq h.columnCount_eq.symm)
    activeColumns := h.under.activeColumns
    activeBackward := h.under.activeBackward
    removedRows := by rw [h.under.removedRows, Table.removed_nil]
    entryCount := by
      rw [CoverMatrix.entryCount, h.under.down_size, h.under.headers_size, Table.nodeCount,
        Table.start, Table.rowCount, List.take_length]
      omega }

/-- A list of columns fails for a label exactly if some label occurs twice, at the first one that
occurred before; with different labels it makes a matrix unless its nodes cannot be numbered. Any
requests for rows and for closing it lead to the matrix of the rows accepted, which shows these rows
and nothing else; the next row is turned down for the reason that comes first, and then nothing
changes, or it is accepted with the number of rows before it as its id. -/
theorem building_is_exact [DecidableEq L] (columns : List (L × Bool)) :
    (∀ index, CoverMatrix.ofColumns columns = .ok (.error (.duplicateColumn index)) ↔
      RepeatsFirstAt (columns.map Prod.fst) index) ∧
    ((∃ index, RepeatsFirstAt (columns.map Prod.fst) index) ↔ ¬ (columns.map Prod.fst).Nodup) ∧
    ((columns.map Prod.fst).Nodup →
      (columns.length + 1 < Word.modulus → ∃ m₀, CoverMatrix.ofColumns columns = .ok (.ok m₀)) ∧
      (Word.modulus ≤ columns.length + 1 →
        CoverMatrix.ofColumns columns = .ok (.error .tooManyColumns))) ∧
    ∀ (m₀ : CoverMatrix L) (requests : List Request) (l : Ledger),
      CoverMatrix.ofColumns columns = .ok (.ok m₀) →
      requests.foldl Ledger.after (.ofColumns (columns.map Prod.snd)) = l →
      l.table.nodeCount < Word.modulus →
      ∃ m, requests.foldlM Request.apply m₀ = .ok m ∧ m.isClosed = l.isClosed ∧
        m.Shows columns l.table ∧
        ∀ row, (∃ answer, l.Answers row answer) ∧ ∀ answer, l.Answers row answer →
          (l.after (.add row)).table.nodeCount < Word.modulus →
          ∃ m', m.addRow row = .ok (answer, m') ∧
            m'.Shows columns (l.after (.add row)).table ∧
            ∀ flaw, answer = .error flaw → m' = m := by
  refine ⟨fun index => ofColumns_eq_duplicateColumn, ⟨?_, exists_repeatsFirstAt⟩, ?_, ?_⟩
  · rintro ⟨index, h⟩
    exact h.not_nodup
  · refine fun hn => ⟨fun hnodes => ?_, ofColumns_eq_tooManyColumns hn⟩
    obtain ⟨m₀, hm₀, -⟩ := exists_ofColumns hn hnodes
    exact ⟨m₀, hm₀⟩
  · rintro m₀ requests l hm₀ rfl hroom
    obtain ⟨m, hrun, hkeeps⟩ := (keeps_ofColumns hm₀).run hroom
    refine ⟨m, hrun, hkeeps.isClosed, hkeeps.shows, fun row => ⟨Ledger.exists_answers _ row, ?_⟩⟩
    intro answer ha hroom
    obtain ⟨m', hm', hkeeps', hsame⟩ := hkeeps.addRow ha hroom
    exact ⟨m', hm', hkeeps'.shows, hsame⟩

/-- Of the rows asked for, one is empty, one is not ascending and one is out of range before it
could fail to ascend, so that the fourth is the first one accepted. -/
theorem building_is_exact_two_columns : ∃ m₀ m : CoverMatrix Char,
    CoverMatrix.ofColumns [('a', true), ('b', false), ('a', false), ('b', true)] =
      .ok (.error (.duplicateColumn 2)) ∧
    CoverMatrix.ofColumns [('a', true), ('b', false)] = .ok (.ok m₀) ∧
    [.add [], .add [1, 0], .add [0, 2, 1], .add [0, 1], .close].foldlM Request.apply m₀ = .ok m ∧
    m.Shows [('a', true), ('b', false)] ⟨[true, false], [[0, 1]]⟩ ∧
    m.addRow [0] = .ok (.error .closedMatrix, m) := by
  have hrepeat : RepeatsFirstAt ['a', 'b', 'a', 'b'] 2 :=
    ⟨['a', 'b'], 'a', ['b'], rfl, rfl, by decide, by decide⟩
  obtain ⟨-, -, hmakes, hexact⟩ := building_is_exact [('a', true), ('b', false)]
  obtain ⟨m₀, hm₀⟩ := (hmakes (by decide)).1 (by decide)
  obtain ⟨m, hrun, -, hshows, hrow⟩ := hexact m₀
    [.add [], .add [1, 0], .add [0, 2, 1], .add [0, 1], .close] ⟨⟨[true, false], [[0, 1]]⟩, true⟩
    hm₀ rfl (by decide)
  obtain ⟨m', hm', -, hsame⟩ := (hrow [0]).2 _ (.closed rfl) (by decide)
  obtain rfl := hsame _ rfl
  exact ⟨m₀, m', ((building_is_exact _).1 2).mpr hrepeat, hm₀, hrun, hshows, hm'⟩

end CoverMatrix

end DancingLinks
