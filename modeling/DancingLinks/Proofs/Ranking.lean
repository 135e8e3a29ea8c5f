import DancingLinks.Proofs.BreakingOff
import DancingLinks.Proofs.Concluding
import DancingLinks.Proofs.Terminating
import Mathlib.Data.Prod.Lex

/-! # The column of fewest rows

The column with the fewest entries is the one that is met by the fewest of the rows that are left,
then the one of least priority, then the leftmost one. So a search that branches on it sees at once
when a column is left that no row can meet any more: it branches on such a column, which has no row
to try, and goes back.
-/
namespace DancingLinks

open CoverMatrix

variable {L : Type} {m : CoverMatrix L} {t : Table} {cs : List Nat} {c d : Nat}

namespace CoverMatrix

variable {κ : Type} [LinearOrder κ]

/-- What columns are compared by: the size, then the priority, then the place in the matrix. -/
def Ranked.key (a : Ranked κ) : ℕ ×ₗ κ ×ₗ ℕ := toLex (a.size, toLex (a.priority, a.column))

/-- Of two columns the better one has the lesser key, if the first one stands further left. -/
theorem Ranked.key_better {a b : Ranked κ} (h : a.column < b.column) :
    (a.better b).key = min a.key b.key := by
  have hlt : b.precedes a = true ↔ b.key < a.key := by
    simp only [precedes, key, Prod.Lex.toLex_lt_toLex, Bool.or_eq_true, Bool.and_eq_true,
      decide_eq_true_eq, beq_iff_eq, h.not_gt, and_false, or_false]
  rw [better]
  split
  · rename_i hp
    exact (min_eq_right (hlt.mp hp).le).symm
  · rename_i hp
    exact (min_eq_left (not_lt.mp fun hk => hp (hlt.mpr hk))).symm

theorem key_foldl_better_le {first : Ranked κ} {rest : List (Ranked κ)}
    (h : ((first :: rest).map (·.column)).Pairwise (· < ·)) :
    ∀ a ∈ first :: rest, (rest.foldl Ranked.better first).key ≤ a.key := by
  induction rest generalizing first with
  | nil => simp
  | cons b rest ih =>
    simp only [List.map_cons, List.pairwise_cons, List.mem_cons, forall_eq_or_imp] at h
    obtain ⟨⟨hab, hfirst⟩, hb, hrest⟩ := h
    have hbest : ((first.better b :: rest).map (·.column)).Pairwise (· < ·) := by
      refine List.pairwise_cons.mpr ⟨fun x hx => ?_, hrest⟩
      rw [Ranked.better]
      split
      · exact hb x hx
      · exact hfirst x hx
    have hle := (ih hbest) _ List.mem_cons_self
    rw [Ranked.key_better hab] at hle
    intro a ha
    simp only [List.mem_cons] at ha
    rcases ha with rfl | rfl | ha
    · exact hle.trans (min_le_left _ _)
    · exact hle.trans (min_le_right _ _)
    · exact ih hbest a (List.mem_cons_of_mem _ ha)

end CoverMatrix

namespace Table

variable {κ : Type}

/-- What decides between columns while the columns `cs` are covered: the number of rows that are
left for a column, then its priority, then its place. -/
def standing (t : Table) (cs : List Nat) (priority : Nat → κ) (c : Nat) : ℕ ×ₗ κ ×ₗ ℕ :=
  toLex ((t.rowsMeeting c cs).length, toLex (priority c, c))

theorem standing_inj {priority : Nat → κ}
    (h : t.standing cs priority c = t.standing cs priority d) : c = d := by
  simp only [standing, EmbeddingLike.apply_eq_iff_eq, Prod.mk.injEq] at h
  exact h.2.2

/-- A column is left and no row is left for it. -/
def Barren (t : Table) (cs : List Nat) (c : Nat) : Prop :=
  c ∈ t.active cs ∧ t.rowsMeeting c cs = []

theorem Barren.rowsUnder_eq (h : t.Barren cs c) : t.rowsUnder cs c = [] := by
  rw [rowsUnder_of_notMem (mem_active.mp h.1).2, h.2]

/-- Only which columns are covered matters, not in which order. -/
theorem Barren.of_mem_iff {cs' : List Nat} (h : t.Barren cs c) (hcs : ∀ d, d ∈ cs ↔ d ∈ cs') :
    t.Barren cs' c := by
  simpa only [Barren, mem_active, rowsMeeting, hcs] using h

def coveredAt (t : Table) (cs path : List Nat) : List Nat := cs ++ path.flatMap t.row

/-- Where the rows of a path are chosen, no row is left for some column that is left. -/
def DeadEnd (t : Table) (cs path : List Nat) : Prop := ∃ d, t.Barren (t.coveredAt cs path) d

def Open (t : Table) (cs path : List Nat) : Prop :=
  ∀ q r q', path = q ++ r :: q' → ¬ t.DeadEnd cs q

theorem open_nil : t.Open cs [] := fun q r q' h => by simp at h

theorem Open.concat {path : List Nat} (h : t.Open cs path) (hlive : ¬ t.DeadEnd cs path) (r : Nat) :
    t.Open cs (path ++ [r]) := by
  intro q i q' heq
  rcases List.eq_nil_or_concat q' with rfl | ⟨q', last, rfl⟩
  · obtain ⟨rfl, -⟩ := List.append_inj' heq rfl
    exact hlive
  · rw [List.concat_eq_append, ← List.cons_append, ← List.append_assoc] at heq
    exact h q i q' (List.append_inj' heq rfl).1

end Table

namespace CoverMatrix

variable {κ : Type} [LinearOrder κ] {priority : Nat → κ}

/-- With the columns `cs` covered, the column of fewest rows is the least one that is left. -/
theorem Under.exists_least (hm : m.Under t cs) (hs : t.active cs ≠ []) (priority : Nat → κ) :
    ∃ c ∈ t.active cs, (m.minColumn fun c => .ok (priority c)) = .ok (.ok c) ∧
      ∀ d ∈ t.active cs, t.standing cs priority c ≤ t.standing cs priority d := by
  let ranked (c : Nat) : Ranked κ := ⟨c, m.size c, priority c⟩
  have hrank : (t.active cs).mapM (m.rank fun c => .ok (priority c)) =
      .ok ((t.active cs).map ranked) := List.mapM_pure
  have hkey : ∀ d ∈ t.active cs, (ranked d).key = t.standing cs priority d := by
    intro d hd
    obtain ⟨hp, hdcs⟩ := Table.mem_active.mp hd
    have hsize : m.size d = (t.rowsUnder cs d).length := hm.size_eq hp.lt
    rw [Table.standing, ← Table.rowsUnder_of_notMem hdcs, ← hsize]
    rfl
  have hasc : (t.active cs).Pairwise (· < ·) := List.pairwise_lt_range.filter _
  obtain ⟨first, rest, hactive⟩ := List.exists_cons_of_ne_nil hs
  have hbest : (rest.map ranked).foldl Ranked.better (ranked first) ∈
      (t.active cs).map ranked := by
    rw [hactive]
    exact foldl_better_mem _ _
  obtain ⟨c, hc, hcbest⟩ := List.mem_map.mp hbest
  refine ⟨c, hc, ?_, fun d hd => ?_⟩
  · simp only [minColumn, hm.activeColumns, hrank, bind, Except.bind]
    rw [hactive, List.map_cons]
    simp only [← hcbest]
    rfl
  · have hcolumns : (((t.active cs).map ranked).map (·.column)).Pairwise (· < ·) := by
      rwa [List.map_map, show (·.column) ∘ ranked = id from rfl, List.map_id]
    rw [hactive, List.map_cons] at hcolumns
    have hle := key_foldl_better_le hcolumns (ranked d) (by
      rw [← List.map_cons, ← hactive]
      exact List.mem_map_of_mem hd)
    rwa [← hcbest, hkey c hc, hkey d hd] at hle

theorem Under.minColumn_rejects (hm : m.Under t cs) (hs : t.active cs = [])
    (priority : Nat → Except Fault κ) : m.minColumn priority = .ok (.error .noColumnLeft) := by
  simp only [minColumn, hm.activeColumns, hs, bind, Except.bind]
  rfl

end CoverMatrix

namespace Search

/-- Events of a search that branches on a column without rows wherever there is one, and that goes
back from there. -/
structure StopsAtDeadEnds (t : Table) (cs : List Nat) (events : List Event) : Prop where
  /-- Nothing is entered behind a dead end. -/
  leaves : ∀ path r q, .entered (path ++ r :: q) ∈ events → ¬ t.DeadEnd cs path
  branches : ∀ path, .entered path ∈ events → t.DeadEnd cs path →
    ∃ c, t.Barren (t.coveredAt cs path) c ∧ .branching path c 0 ∈ events
  barren : ∀ path c size, .branching path c size ∈ events → t.DeadEnd cs path →
    t.Barren (t.coveredAt cs path) c ∧ size = 0

namespace StopsAtDeadEnds

variable {events events' : List Event} {path : List Nat} {e : Event} {size : Nat}

theorem of_mem_iff (h : StopsAtDeadEnds t cs events) (he : ∀ e, e ∈ events ↔ e ∈ events') :
    StopsAtDeadEnds t cs events' := by
  refine ⟨fun path r q hm => h.leaves path r q ((he _).mpr hm), fun path hm hdead => ?_,
    fun path c size hm => h.barren path c size ((he _).mpr hm)⟩
  obtain ⟨c, hc, hb⟩ := h.branches path ((he _).mpr hm) hdead
  exact ⟨c, hc, (he _).mp hb⟩

theorem cons_other (h : StopsAtDeadEnds t cs events) (hentered : ∀ path, .entered path ≠ e)
    (hbranching : ∀ path c size, .branching path c size ≠ e) :
    StopsAtDeadEnds t cs (e :: events) where
  leaves path r q hm := h.leaves path r q (List.mem_of_ne_of_mem (hentered _) hm)
  branches path hm hdead := by
    obtain ⟨c, hc, hb⟩ := h.branches path (List.mem_of_ne_of_mem (hentered _) hm) hdead
    exact ⟨c, hc, List.mem_cons_of_mem _ hb⟩
  barren path c size hm := h.barren path c size (List.mem_of_ne_of_mem (hbranching _ _ _) hm)

theorem cons_entered (h : StopsAtDeadEnds t cs events) (hopen : t.Open cs path)
    (hlive : ¬ t.DeadEnd cs path) : StopsAtDeadEnds t cs (.entered path :: events) where
  leaves q r q' hm := by
    rcases List.mem_cons.mp hm with he | hm
    · exact hopen q r q' (Event.entered.inj he).symm
    · exact h.leaves q r q' hm
  branches q hm hdead := by
    rcases List.mem_cons.mp hm with he | hm
    · obtain rfl := Event.entered.inj he
      exact absurd hdead hlive
    · obtain ⟨c, hc, hb⟩ := h.branches q hm hdead
      exact ⟨c, hc, List.mem_cons_of_mem _ hb⟩
  barren q c size hm := h.barren q c size (List.mem_of_ne_of_mem (by simp) hm)

/-- A position is entered and branched on, in a dead end on a column without rows. -/
theorem cons_branching (h : StopsAtDeadEnds t cs events) (hopen : t.Open cs path)
    (hc : t.DeadEnd cs path → t.Barren (t.coveredAt cs path) c ∧ size = 0) :
    StopsAtDeadEnds t cs (.branching path c size :: .entered path :: events) where
  leaves q r q' hm := by
    rcases List.mem_cons.mp (List.mem_of_ne_of_mem (by simp) hm) with he | hm
    · exact hopen q r q' (Event.entered.inj he).symm
    · exact h.leaves q r q' hm
  branches q hm hdead := by
    rcases List.mem_cons.mp (List.mem_of_ne_of_mem (by simp) hm) with he | hm
    · obtain rfl := Event.entered.inj he
      obtain ⟨hbarren, rfl⟩ := hc hdead
      exact ⟨c, hbarren, List.mem_cons_self⟩
    · obtain ⟨c', hc', hb⟩ := h.branches q hm hdead
      exact ⟨c', hc', List.mem_cons_of_mem _ (List.mem_cons_of_mem _ hb)⟩
  barren q c' size' hm hdead := by
    rcases List.mem_cons.mp hm with he | hm
    · obtain ⟨rfl, rfl, rfl⟩ := Event.branching.inj he
      exact hc hdead
    · exact h.barren q c' size' (List.mem_of_ne_of_mem (by simp) hm) hdead

end StopsAtDeadEnds

/-- The rule always chooses, and a column without rows if there is one. -/
def PrefersBarren {L σ : Type} (rule : BranchingRule L σ) (t : Table) : Prop :=
  ∀ (m : CoverMatrix L) (cs : List Nat) (s : σ), m.Under t cs → t.active cs ≠ [] →
    ∃ c s', rule.select m s = .ok (.ok c, s') ∧ c ∈ t.active cs ∧
      ∀ d, t.Barren cs d → t.Barren cs c

section Program

variable {σ ω : Type} {rule : BranchingRule L σ} {visit : Visitor L ω} {p : Progress σ ω}
  {base path : List Nat} {r : Nat}
  {descend : List Nat → CoverMatrix L → Progress σ ω → Except Interruption (Exit L σ ω)}

abbrev Stops (t : Table) (base : List Nat) (m : CoverMatrix L) :
    Except Interruption (Exit L σ ω) → Prop :=
  Post (fun e => e.2.1 = m ∧ StopsAtDeadEnds t base e.2.2.events) (StopsAtDeadEnds t base)

theorem present_stops (h : StopsAtDeadEnds t base p.events) :
    Stops t base m (present visit path m p) := by
  rw [present]
  apply Post.bind (solve_post h)
  intro q hq
  obtain ⟨solutions, -, ⟨⟩⟩ := guard_eq_ok hq
  have hq := h.cons_other (e := .solved solutions path) (by simp) (by simp)
  exact Post.guard hq fun _ _ => ⟨rfl, hq⟩

theorem tryRow_stops (hm : m.Under t cs) (hc : c ∈ t.row r) (hcs : ∀ d ∈ t.others r c, d ∉ cs)
    (h : StopsAtDeadEnds t base p.events)
    (hd : ∀ m₁ p₁, m₁.Under t (cs ++ t.others r c) → StopsAtDeadEnds t base p₁.events →
      Stops t base m₁ (descend (path ++ [r]) m₁ p₁)) :
    Stops t base m (tryRow descend path (t.entry r c) m p) := by
  obtain ⟨m₁, hcov, hunc, -, h₁⟩ := hm.others_step hc hcs
  have hleave (e : Exit L σ ω) (he : e.2.1 = m₁ ∧ StopsAtDeadEnds t base e.2.2.events) :
      Stops t base m (e.2.2.guard (e.2.1.uncoverRowOthers (t.entry r c)) >>= fun m =>
        pure (e.1, m, e.2.2)) := by
    rw [he.1, hunc]
    exact ⟨rfl, he.2⟩
  rw [tryRow, hm.rowOf hc, hcov]
  apply Post.guard h
  rintro _ ⟨⟩
  apply Post.guard h
  rintro _ ⟨⟩
  apply Post.bind (accept_post h)
  rintro ⟨accepted, q⟩ hacc
  have hq : StopsAtDeadEnds t base q.events := by
    obtain ⟨samples, rfl, -⟩ := Progress.accept_eq hacc
    exact h
  cases accepted with
  | true => exact Post.bind (hd m₁ q h₁ hq) hleave
  | false =>
    simp only [Bool.false_eq_true, if_false, pure_bind]
    apply Post.bind (abandon_post hq)
    intro q' hq'
    obtain ⟨pruned, -, ⟨⟩⟩ := guard_eq_ok hq'
    have hq := hq.cons_other (e := .abandoned path r m₁.removedRows) (by simp) (by simp)
    exact hleave (.ok .proceed, m₁, _) ⟨rfl, hq⟩

theorem branch_stops {above rs : List Nat} {fuel : Nat} (hm : m.Under t cs) (hc : c < t.columnCount)
    (hrows : t.rowsUnder cs c = above ++ rs) (hcs : ∀ r ∈ rs, ∀ d ∈ t.others r c, d ∉ cs)
    (h : StopsAtDeadEnds t base p.events)
    (hd : ∀ r ∈ rs, ∀ m₁ p₁, m₁.Under t (cs ++ t.others r c) → StopsAtDeadEnds t base p₁.events →
      Stops t base m₁ (descend (path ++ [r]) m₁ p₁)) :
    Stops t base m (branch descend path fuel (rs.head?.map (t.entry · c)) m p) := by
  induction rs generalizing above fuel p with
  | nil => cases fuel <;> exact ⟨rfl, h⟩
  | cons r rs ih =>
    cases fuel with
    | zero => exact h
    | succ fuel =>
      have hrow : c ∈ t.row r := Table.mem_row_of_rowsUnder hrows
      simp only [List.mem_cons, forall_eq_or_imp] at hcs hd
      rw [List.head?_cons, Option.map_some, branch]
      apply Post.bind (tryRow_stops hm hrow hcs.1 h hd.1)
      rintro ⟨left, m₁, q⟩ ⟨hback, hq⟩
      obtain rfl : m₁ = m := hback
      rcases left with _ | _ | _
      · exact ⟨rfl, hq⟩
      · simp only [hm.nextInColumn hc hrows]
        apply Post.guard hq
        rintro _ ⟨⟩
        have hrows : t.rowsUnder cs c = (above ++ [r]) ++ rs := by rw [hrows, List.append_cons]
        exact ih hrows hcs.2 hq hd.2
      · exact ⟨rfl, hq⟩

/-- A search by a rule that prefers columns without rows stops at dead ends. -/
theorem explore_stops {depth : Nat} (hr : PrefersBarren rule t) (hm : m.Under t cs)
    (hcs : ∀ d, d ∈ cs ↔ d ∈ t.coveredAt base path) (hopen : t.Open base path)
    (h : StopsAtDeadEnds t base p.events) :
    Stops t base m (explore rule visit depth path m p) := by
  induction depth generalizing path cs m p with
  | zero => exact h
  | succ depth ih =>
    by_cases hcalls : p.nodes + 1 < Word.modulus
    · have hbarren : ∀ d, t.Barren (t.coveredAt base path) d → t.Barren cs d := fun d hd =>
        hd.of_mem_iff fun e => (hcs e).symm
      by_cases hs : t.active cs = []
      · have hlive : ¬ t.DeadEnd base path := by
          rintro ⟨d, hd⟩
          simpa [hs] using (hbarren d hd).1
        rw [explore_solved hcalls hm hs]
        exact present_stops (h.cons_entered hopen hlive)
      · obtain ⟨c, s, hsel, hc, hprefers⟩ := hr m cs p.rule hm hs
        have hct : c < t.columnCount := (Table.mem_active.mp hc).1.lt
        have hccs : c ∉ cs := (Table.mem_active.mp hc).2
        obtain ⟨m₁, hcov, hunc, h₁⟩ := hm.cover_step hct hccs
        rw [explore_branched hcalls hm hsel hc hcov h₁]
        have hbranching : StopsAtDeadEnds t base
            (.branching path c (t.rowsUnder cs c).length :: .entered path :: p.events) := by
          refine h.cons_branching hopen ?_
          rintro ⟨d, hd⟩
          have hcb := hprefers d (hbarren d hd)
          exact ⟨hcb.of_mem_iff hcs, by rw [hcb.rowsUnder_eq, List.length_nil]⟩
        have hrows : t.rowsUnder (cs ++ [c]) c = [] ++ t.rowsUnder cs c :=
          Table.rowsUnder_concat_self hccs
        apply Post.bind (branch_stops h₁ hct hrows
          (fun r hr => hm.ordered.others_notMem hccs hr) hbranching ?_)
        · rintro ⟨left, m₂, q⟩ ⟨hback, hq⟩
          obtain rfl : m₂ = m₁ := hback
          simp only [hunc]
          exact ⟨rfl, hq⟩
        · intro r hrow m₂ p₂ h₂ hp₂
          have hlive : ¬ t.DeadEnd base path := by
            rintro ⟨d, hd⟩
            have hrow : r ∈ t.rowsUnder cs c := hrow
            rw [(hprefers d (hbarren d hd)).rowsUnder_eq] at hrow
            exact List.not_mem_nil hrow
          refine ih h₂ (fun d => ?_) (hopen.concat hlive r) hp₂
          rw [hm.ordered.mem_append_others ((Table.mem_rowsUnder hccs).mp hrow).1, hcs]
          simp [Table.coveredAt, or_assoc]
    · rw [explore_uncounted (not_lt.mp hcalls)]
      exact h

/-- In a dead end a search branches on a column without rows and goes back, whatever it would do
behind it. -/
theorem searchFrom_deadEnd (hr : PrefersBarren rule t) (hm : m.Under t cs) (hd : t.Barren cs d)
    (hcalls : p.nodes + 1 < Word.modulus) : ∃ c s, t.Barren cs c ∧
      rule.select m p.rule = .ok (.ok c, s) ∧ ∀ descend, searchFrom rule visit descend path m p =
        .ok (.ok .proceed, m, ((p.entered path).chosen s).note (.branching path c 0)) := by
  have hs : t.active cs ≠ [] := List.ne_nil_of_mem hd.1
  obtain ⟨c, s, hsel, hc, hprefers⟩ := hr m cs p.rule hm hs
  have hbarren := hprefers d hd
  have hct : c < t.columnCount := (Table.mem_active.mp hc).1.lt
  have hccs : c ∉ cs := (Table.mem_active.mp hc).2
  obtain ⟨m₁, hcov, hunc, h₁⟩ := hm.cover_step hct hccs
  refine ⟨c, s, hbarren, hsel, fun descend => ?_⟩
  have hsel' : rule.select m (p.entered path).rule = .ok (.ok c, s) := hsel
  have hsize : m.size c = 0 :=
    (hm.size_eq hct).trans (congrArg List.length hbarren.rowsUnder_eq)
  have hfirst : m₁.firstInColumn c = .ok none := by
    rw [h₁.firstInColumn_last hct hccs, hbarren.rowsUnder_eq]
    rfl
  simp only [searchFrom, Progress.enter_of_lt hcalls, hm.isSolved, hs, decide_false,
    Bool.false_eq_true, if_false, hsel', hsize, hcov, hfirst, hunc, branch, Progress.guard, bind,
    Except.bind]
  rfl

/-- Whatever a run by a rule that prefers columns without rows did, it stopped at dead ends. -/
theorem run_stops (hr : PrefersBarren rule t) (hm : m.Under t cs) (state : σ) (visitor : ω) :
    StopsAtDeadEnds t cs (happened (rule.run state visit visitor m)) := by
  have hbegin : StopsAtDeadEnds t cs (rule.begin state visitor m.closingEvents).events := by
    have hnone : StopsAtDeadEnds t cs [] := by constructor <;> simp
    have hclosing : StopsAtDeadEnds t cs m.closingEvents := by
      rw [closingEvents]
      split
      · exact hnone
      · exact hnone.cons_other (by simp [closing]) (by simp [closing])
    rw [BranchingRule.begin]
    cases rule.pruning with
    | none => exact hclosing
    | some p => exact hclosing.cons_other (by simp) (by simp)
  have hcs : ∀ d, d ∈ cs ↔ d ∈ t.coveredAt cs [] := by simp [Table.coveredAt]
  have hends : Stops t cs m.close (explore rule visit (m.columnCount + 1) [] m.close
      (rule.begin state visitor m.closingEvents)) :=
    explore_stops hr { hm with } hcs Table.open_nil hbegin
  rw [run_eq]
  cases hx : explore rule visit (m.columnCount + 1) [] m.close
      (rule.begin state visitor m.closingEvents) with
  | error i =>
    rw [hx] at hends
    exact StopsAtDeadEnds.of_mem_iff hends fun e => List.mem_reverse.symm
  | ok e =>
    rw [hx] at hends
    obtain ⟨left, m', p'⟩ := e
    have hp' : StopsAtDeadEnds t cs p'.events := hends.2
    cases left with
    | error r => exact hp'.of_mem_iff fun e => List.mem_reverse.symm
    | ok signal =>
      have hfinished := hp'.cons_other (e := .finished (p'.tally (signal = .stop))) (by simp)
        (by simp)
      exact hfinished.of_mem_iff fun e => List.mem_reverse.symm

end Program

section FewestRows

variable {κ σ ω : Type} [LinearOrder κ]

theorem prefersBarren_fewestRows {rule : BranchingRule L Unit} {priority : Nat → κ}
    (hrule : rule.select = (BranchingRule.fewestRows fun c => .ok (priority c)).select)
    (t : Table) : PrefersBarren rule t := by
  intro m cs s hm hs
  obtain ⟨c, hc, hmin, hleast⟩ := hm.exists_least hs priority
  refine ⟨c, (), ?_, hc, fun d hd => ⟨hc, ?_⟩⟩
  · simp only [hrule, BranchingRule.fewestRows, hmin, bind, Except.bind]
    rfl
  · have hle := Prod.Lex.toLex_le_toLex.mp (hleast d hd.1)
    rw [hd.2] at hle
    rcases hle with hlt | ⟨heq, -⟩
    · exact absurd hlt (Nat.not_lt_zero _)
    · exact List.eq_nil_of_length_eq_zero heq

/-- However its columns are covered, a matrix that was built has no column of fewest rows if and
only if every primary column is covered; else this is the one uncovered primary column that is met
by the fewest of the rows that meet no covered column, or of those the one of least priority, or of
those the leftmost one. So a search that branches on it takes, in a dead end, a column without rows
and enters nothing from there. -/
theorem fewest_rows_first [DecidableEq L] (hm : m.Reached t cs) (priority : Nat → κ) :
    ((m.minColumn fun c => .ok (priority c)) = .ok (.error .noColumnLeft) ↔
      ∀ c, t.IsPrimary c → c ∈ cs) ∧
    ((¬ ∀ c, t.IsPrimary c → c ∈ cs) → ∃ c, t.IsPrimary c ∧ c ∉ cs ∧
      (m.minColumn fun c => .ok (priority c)) = .ok (.ok c) ∧
      ∀ d, t.IsPrimary d → d ∉ cs → d ≠ c →
        t.standing cs priority c < t.standing cs priority d) ∧
    ∀ (rule : BranchingRule L Unit) (visit : Visitor L ω) (visitor : ω),
      rule.select = (BranchingRule.fewestRows fun c => .ok (priority c)).select →
      StopsAtDeadEnds t cs (happened (rule.run () visit visitor m)) ∧
      ∀ (m₁ : CoverMatrix L) (cs₁ path : List Nat) (p : Progress Unit ω), m₁.Under t cs₁ →
        (∃ d, t.Barren cs₁ d) → p.nodes + 1 < Word.modulus →
        ∃ c, t.Barren cs₁ c ∧ ∀ descend, searchFrom rule visit descend path m₁ p =
          .ok (.ok .proceed, m₁, (p.entered path).note (.branching path c 0)) := by
  have hu := hm.under
  refine ⟨?_, fun hleft => ?_, fun rule visit visitor hrule => ⟨?_, ?_⟩⟩
  · rw [← Table.active_eq_nil]
    constructor
    · intro hmin
      by_contra hs
      obtain ⟨c, -, hc, -⟩ := hu.exists_least hs priority
      simp [hc] at hmin
    · intro hs
      exact hu.minColumn_rejects hs _
  · rw [← Table.active_eq_nil] at hleft
    obtain ⟨c, hc, hmin, hleast⟩ := hu.exists_least hleft priority
    obtain ⟨hp, hcs⟩ := Table.mem_active.mp hc
    refine ⟨c, hp, hcs, hmin, fun d hd hdcs hdc => ?_⟩
    refine lt_of_le_of_ne (hleast d (Table.mem_active.mpr ⟨hd, hdcs⟩)) fun heq => ?_
    exact hdc (Table.standing_inj heq).symm
  · exact run_stops (prefersBarren_fewestRows hrule t) hu () visitor
  · rintro m₁ cs₁ path p h₁ ⟨d, hd⟩ hcalls
    obtain ⟨c, s, hc, -, hsearch⟩ :=
      searchFrom_deadEnd (prefersBarren_fewestRows hrule t) h₁ hd hcalls
    exact ⟨c, hc, hsearch⟩

/-- Once the column of the sample that need not be covered is covered, the first column has no row
left, and a search goes back from there at once. -/
theorem fewest_rows_first_sample : ∃ m : CoverMatrix Char, sample.cover 2 = .ok m ∧
    (∃ c, (m.minColumn fun c => .ok c) = .ok (.ok c) ∧ ∀ d, sampleTable.IsPrimary d → d ∉ [2] →
      d ≠ c → sampleTable.standing [2] id c < sampleTable.standing [2] id d) ∧
    sampleTable.DeadEnd [2] [] ∧
    ∃ out, (BranchingRule.fewestRows fun c => .ok c).run () collect [] m = .ok out ∧
      positions out.events = [[]] ∧ StopsAtDeadEnds sampleTable [2] out.events := by
  have hm : ∃ m, sample.cover 2 = .ok m ∧ ∃ out,
      (BranchingRule.fewestRows fun c => .ok c).run () collect [] m = .ok out ∧
      positions out.events = [[]] :=
    ⟨_, rfl, _, rfl, rfl⟩
  obtain ⟨m, hcover, out, hrun, hpositions⟩ := hm
  have hreached : m.Reached sampleTable [2] := by
    refine ⟨sample, [.cover 2], built_sample, .cover (by decide) (by decide) .nil, ?_⟩
    rw [List.foldlM_cons, Move.apply, hcover]
    rfl
  obtain ⟨-, hleast, hstops⟩ := fewest_rows_first (ω := List (List Nat)) hreached id
  have hleft : ¬ ∀ c, sampleTable.IsPrimary c → c ∈ [2] := fun hall =>
    absurd (hall 0 rfl) (by decide)
  obtain ⟨c, -, -, hc⟩ := hleast hleft
  refine ⟨m, hcover, ⟨c, hc⟩, ⟨0, by decide, by decide⟩, out, hrun, hpositions, ?_⟩
  have hevents := (hstops (.fewestRows fun c => .ok c) collect [] rfl).1
  rwa [hrun] at hevents

end FewestRows

end Search

end DancingLinks
