import DancingLinks.Proofs.Building
import DancingLinks.Proofs.Reading

/-! # Nested covers

While every column that is uncovered is the latest one covered, a matrix depends only on the columns
that are covered at the time and on their order. So a sequence of moves that ends with the columns
covered that it began with changes nothing at all, and every matrix on the way stands for the table
with these columns covered.
-/
namespace DancingLinks.CoverMatrix

variable {L : Type} {m m₀ m₁ : CoverMatrix L} {t : Table} {c r : Nat} {cs cs' ds : List Nat}

inductive Move where
  | cover (column : Nat)
  | uncover (column : Nat)
  | coverOthers (node : Nat)
  | uncoverOthers (node : Nat)
deriving DecidableEq

def Move.apply (m : CoverMatrix L) : Move → Except Fault (CoverMatrix L)
  | .cover column => m.cover column
  | .uncover column => m.uncover column
  | .coverOthers node => m.coverRowOthers node
  | .uncoverOthers node => m.uncoverRowOthers node

/-- Moves that may be made while the columns `cs` are covered, and the columns covered afterwards.
Only columns that are not covered are covered, and only the latest ones are uncovered. -/
inductive Nested (t : Table) : List Nat → List Move → List Nat → Prop
  | nil {cs : List Nat} : Nested t cs [] cs
  | cover {cs cs' : List Nat} {moves : List Move} {c : Nat} (hc : c < t.columnCount) (hcs : c ∉ cs)
    (h : Nested t (cs ++ [c]) moves cs') : Nested t cs (.cover c :: moves) cs'
  | uncover {cs cs' : List Nat} {moves : List Move} {c : Nat} (h : Nested t cs moves cs') :
    Nested t (cs ++ [c]) (.uncover c :: moves) cs'
  | coverOthers {cs cs' : List Nat} {moves : List Move} {r c : Nat} (hc : c ∈ t.row r)
    (hcs : ∀ d ∈ t.row r, d ≠ c → d ∉ cs) (h : Nested t (cs ++ t.others r c) moves cs') :
    Nested t cs (.coverOthers (t.entry r c) :: moves) cs'
  | uncoverOthers {cs cs' : List Nat} {moves : List Move} {r c : Nat} (hc : c ∈ t.row r)
    (h : Nested t cs moves cs') :
    Nested t (cs ++ t.others r c) (.uncoverOthers (t.entry r c) :: moves) cs'

/-- The matrix `m` is `m₀`, which has nothing covered, with the columns `cs` covered in order. -/
structure Stacked (m₀ : CoverMatrix L) (t : Table) (cs : List Nat) (m : CoverMatrix L) : Prop where
  base : m₀.Under t []
  nodup : cs.Nodup
  inRange : ∀ c ∈ cs, c < t.columnCount
  run : cs.foldlM CoverMatrix.cover m₀ = .ok m

theorem Stacked.nil (h : m.Under t []) : Stacked m t [] m :=
  ⟨h, List.nodup_nil, fun _ hc => absurd hc List.not_mem_nil, rfl⟩

theorem Stacked.under (h : Stacked m₀ t cs m) : m.Under t cs := by
  rcases h.base.columns_track h.nodup (fun c hc => ⟨h.inRange c hc, List.not_mem_nil⟩) with
    ⟨m', ht, hu⟩
  obtain rfl : m = m' := Except.ok.inj (h.run.symm.trans ht.foldlM_eq)
  exact hu

theorem Stacked.append (h : Stacked m₀ t cs m) (hn : ds.Nodup)
    (hd : ∀ d ∈ ds, d < t.columnCount ∧ d ∉ cs) (hm : ds.foldlM CoverMatrix.cover m = .ok m₁) :
    Stacked m₀ t (cs ++ ds) m₁ where
  base := h.base
  nodup := List.nodup_append'.mpr ⟨h.nodup, hn, fun c hc hcd => (hd c hcd).2 hc⟩
  inRange := by
    intro c hc
    rcases List.mem_append.mp hc with hc | hc
    · exact h.inRange c hc
    · exact (hd c hc).1
  run := by
    rw [List.foldlM_append, h.run]
    exact hm

theorem Stacked.below (h : Stacked m₀ t (cs ++ ds) m) :
    ∃ m₁, Stacked m₀ t cs m₁ ∧ ds.foldlM CoverMatrix.cover m₁ = .ok m ∧ ∀ d ∈ ds, d ∉ cs := by
  have hrun := h.run
  rw [List.foldlM_append] at hrun
  cases hm : cs.foldlM CoverMatrix.cover m₀ with
  | error f => simp [hm, bind, Except.bind] at hrun
  | ok m₁ =>
    rw [hm] at hrun
    have hrange : ∀ c ∈ cs, c < t.columnCount := by
      intro c hc
      exact h.inRange c (List.mem_append_left ds hc)
    have hapart : ∀ d ∈ ds, d ∉ cs := by
      intro d hd hcs
      exact (List.nodup_append'.mp h.nodup).2.2 hcs hd
    exact ⟨m₁, ⟨h.base, h.nodup.of_append_left, hrange, hm⟩, hrun, hapart⟩

/-- Moves lead from the stack of the columns covered to the stack of the columns covered then. -/
theorem Nested.run {moves : List Move} (h : Nested t cs moves cs') (hm : Stacked m₀ t cs m) :
    ∃ m', moves.foldlM Move.apply m = .ok m' ∧ Stacked m₀ t cs' m' := by
  induction h generalizing m with
  | nil => exact ⟨m, rfl, hm⟩
  | @cover cs cs' moves c hc hcs _ ih =>
    rcases hm.under.cover_step hc hcs with ⟨m₁, ha, -, -⟩
    have hfold : [c].foldlM CoverMatrix.cover m = .ok m₁ := by
      rw [List.foldlM_cons, ha]
      rfl
    have hstack := hm.append (List.nodup_singleton c) (by simpa using ⟨hc, hcs⟩) hfold
    rw [List.foldlM_cons, Move.apply, ha]
    exact ih hstack
  | @uncover cs cs' moves c _ ih =>
    rcases hm.below with ⟨m₁, hbelow, hfold, hcs⟩
    have hc : c < t.columnCount := hm.inRange c (by simp)
    rcases hbelow.under.cover_step hc (hcs c (by simp)) with ⟨m₂, ha, hu, -⟩
    rw [List.foldlM_cons, ha] at hfold
    obtain rfl : m₂ = m := Except.ok.inj hfold
    rw [List.foldlM_cons, Move.apply, hu]
    exact ih hbelow
  | @coverOthers cs cs' moves r c hc hcs _ ih =>
    have hd : ∀ d ∈ t.others r c, d < t.columnCount ∧ d ∉ cs := by
      intro d hd
      have hrow := (hm.base.ordered.mem_others hc).mp hd
      exact ⟨hm.base.ordered.lt_columnCount hrow.1, hcs d hrow.1 hrow.2⟩
    rcases hm.under.others_step hc (fun d hm => (hd d hm).2) with ⟨m₁, ha, -, hfold, -⟩
    have hstack := hm.append (hm.base.ordered.nodup_others hc).of_cons hd hfold
    rw [List.foldlM_cons, Move.apply, ha]
    exact ih hstack
  | @uncoverOthers cs cs' moves r c hc _ ih =>
    rcases hm.below with ⟨m₁, hbelow, hfold, hcs⟩
    rcases hbelow.under.others_step hc hcs with ⟨m₂, ha, hu, hfold', -⟩
    obtain rfl : m₂ = m := Except.ok.inj (hfold'.symm.trans hfold)
    rw [List.foldlM_cons, Move.apply, hu]
    exact ih hbelow

/-- The matrix was built from the table and then has the columns `cs` covered in stack order. -/
def Reached [DecidableEq L] (m : CoverMatrix L) (t : Table) (cs : List Nat) : Prop :=
  ∃ m₀ moves, Built m₀ t ∧ Nested t [] moves cs ∧ moves.foldlM Move.apply m₀ = .ok m

theorem Reached.stacked [DecidableEq L] (h : m.Reached t cs) : ∃ m₀, Stacked m₀ t cs m := by
  rcases h with ⟨m₀, moves, hb, hn, hrun⟩
  rcases hn.run (Stacked.nil hb.under) with ⟨m', hrun', hs⟩
  obtain rfl : m = m' := Except.ok.inj (hrun.symm.trans hrun')
  exact ⟨m₀, hs⟩

theorem Reached.under [DecidableEq L] (h : m.Reached t cs) : m.Under t cs := by
  rcases h.stacked with ⟨m₀, hs⟩
  exact hs.under

theorem reached_sample : sample.Reached sampleTable [] :=
  ⟨sample, [], built_sample, .nil, rfl⟩

/-- A matrix that was built stands for its table with the columns covered that a run of moves
leaves covered, and every question about it is answered by the table. -/
theorem nested_run_refines [DecidableEq L] (h : Built m₀ t) {moves : List Move}
    (hm : Nested t [] moves cs) :
    ∃ m, moves.foldlM Move.apply m₀ = .ok m ∧
      m.activeColumns = .ok (t.active cs) ∧
      m.activeBackward = .ok (t.active cs).reverse ∧
      (∃ solved, m.isSolved = .ok solved ∧ (solved = true ↔ ∀ c, t.IsPrimary c → c ∈ cs)) ∧
      m.removedRows = ((List.range t.rowCount).filter fun r => ∃ c ∈ cs, c ∈ t.row r).length ∧
      (∀ c < t.columnCount, c ∉ cs → m.rowsDown c = .ok (t.rowsMeeting c cs) ∧
        m.rowsUp c = .ok (t.rowsMeeting c cs).reverse) ∧
      ∀ before c after, cs = before ++ c :: after → m.rowsDown c = .ok (t.rowsMeeting c before) ∧
        m.rowsUp c = .ok (t.rowsMeeting c before).reverse := by
  rcases hm.run (Stacked.nil h.under) with ⟨m, hrun, hs⟩
  have hu := hs.under
  refine ⟨m, hrun, hu.activeColumns, hu.activeBackward, ⟨_, hu.isSolved, ?_⟩, ?_, ?_, ?_⟩
  · rw [decide_eq_true_eq, Table.active_eq_nil]
  · rw [hu.removedRows, Table.removed, List.countP_eq_length_filter]
    congr 2
    funext r
    rw [Bool.eq_iff_iff]
    simp
  · intro c hc hcs
    rw [← Table.rowsUnder_of_notMem hcs]
    exact ⟨hu.rowsDown hc, hu.rowsUp hc⟩
  · rintro before c after rfl
    have hc : c < t.columnCount := hs.inRange c (by simp)
    have hcb : c ∉ before := fun hm => (List.nodup_append'.mp hs.nodup).2.2 hm List.mem_cons_self
    rw [← Table.rowsUnder_of_mem hcb after]
    exact ⟨hu.rowsDown hc, hu.rowsUp hc⟩

theorem nested_run_refines_sample : ∃ m : CoverMatrix Char,
    [Move.cover 2, .cover 1, .uncover 1].foldlM Move.apply sample = .ok m ∧
    m.activeColumns = .ok [0, 1] ∧ m.removedRows = 1 ∧ m.rowsDown 0 = .ok [] ∧
    m.rowsDown 2 = .ok [0] := by
  have hm : Nested sampleTable [] [.cover 2, .cover 1, .uncover 1] [2] :=
    .cover (by decide) (by decide)
      (.cover (by decide) (by decide) (@Nested.uncover _ [2] _ _ 1 .nil))
  rcases nested_run_refines built_sample hm with
    ⟨m, hrun, hactive, -, -, hremoved, hout, hin⟩
  exact ⟨m, hrun, hactive, hremoved, (hout 0 (by decide) (by decide)).1, (hin [] 2 [] rfl).1⟩

/-- A run of moves that ends with the columns covered that it began with changes nothing. -/
theorem nested_run_restores [DecidableEq L] (h : Built m₀ t) {moves : List Move}
    (hm : Nested t [] moves cs) :
    ∃ m, moves.foldlM Move.apply m₀ = .ok m ∧
      (∀ c < t.columnCount, c ∉ cs → ∃ m', m.cover c = .ok m' ∧ m'.uncover c = .ok m) ∧
      ∀ moves', Nested t cs moves' cs → moves'.foldlM Move.apply m = .ok m := by
  rcases hm.run (Stacked.nil h.under) with ⟨m, hrun, hs⟩
  have hundo : ∀ c < t.columnCount, c ∉ cs → ∃ m', m.cover c = .ok m' ∧ m'.uncover c = .ok m := by
    intro c hc hcs
    rcases hs.under.cover_step hc hcs with ⟨m', ha, hu, -⟩
    exact ⟨m', ha, hu⟩
  have hback : ∀ moves', Nested t cs moves' cs → moves'.foldlM Move.apply m = .ok m := by
    intro moves' hm'
    rcases hm'.run hs with ⟨m', hrun', hs'⟩
    -- both matrices are the one at the bottom with the same columns covered
    have hsame : m = m' := Except.ok.inj (hs.run.symm.trans hs'.run)
    rw [hrun', ← hsame]
  exact ⟨m, hrun, hundo, hback⟩

theorem nested_run_restores_sample : ∃ m : CoverMatrix Char,
    [Move.cover 0].foldlM Move.apply sample = .ok m ∧
    [Move.coverOthers 4, .cover 1, .uncover 1, .uncoverOthers 4].foldlM Move.apply m = .ok m := by
  have hm : Nested sampleTable [] [.cover 0] [0] := .cover (by decide) (by decide) .nil
  have hrow : Nested sampleTable [0]
      [.coverOthers 4, .cover 1, .uncover 1, .uncoverOthers 4] [0] := by
    apply @Nested.coverOthers _ _ _ _ 0 0 (by decide) (by decide)
    apply Nested.cover (by decide) (by decide)
    apply @Nested.uncover _ [0, 2] _ _ 1
    exact @Nested.uncoverOthers _ [0] _ _ 0 0 (by decide) .nil
  rcases nested_run_restores built_sample hm with ⟨m, hrun, -, hback⟩
  exact ⟨m, hrun, hback _ hrow⟩

end DancingLinks.CoverMatrix
