import DancingLinks.Proofs.Nesting
import DancingLinks.Search

/-! # What a search does

A search of a linked matrix is a derivation: a position is solved, rejected or branched on, the rows
of a column are tried in turn, and a row is searched or abandoned. Derivations count without bound.
A position has at most one derivation, and it has one if the rule and the visitor answer whenever
they are asked.
-/
namespace DancingLinks

open CoverMatrix

namespace Search

variable {L σ ω : Type}

namespace Progress

def entered (p : Progress σ ω) (path : List Nat) : Progress σ ω :=
  { p with nodes := p.nodes + 1 }.note (.entered path)

def solved (p : Progress σ ω) (path : List Nat) : Progress σ ω :=
  { p with solutions := p.solutions + 1 }.note (.solved (p.solutions + 1) path)

def abandoned (p : Progress σ ω) (path : List Nat) (row removed : Nat) : Progress σ ω :=
  { p with pruned := p.pruned + 1 }.note (.abandoned path row removed)

def chosen (p : Progress σ ω) (state : σ) : Progress σ ω := { p with rule := state }

def visited (p : Progress σ ω) (state : ω) : Progress σ ω := { p with visitor := state }

variable {p : Progress σ ω} {path : List Nat}

theorem enter_of_lt (h : p.nodes + 1 < Word.modulus) : p.enter path = .ok (p.entered path) := by
  simp only [enter, Word.add_of_lt h]
  rfl

theorem enter_of_le (h : Word.modulus ≤ p.nodes + 1) :
    p.enter path = .error ⟨.overflow, p.events⟩ := by
  simp only [enter, Word.add, Word.check, if_neg (not_lt.mpr h)]
  rfl

theorem solve_of_lt (h : p.solutions + 1 < Word.modulus) : p.solve path = .ok (p.solved path) := by
  simp only [solve, Word.add_of_lt h]
  rfl

theorem abandon_of_lt {row removed : Nat} (h : p.pruned + 1 < Word.modulus) :
    p.abandon path row removed = .ok (p.abandoned path row removed) := by
  simp only [abandon, Word.add_of_lt h]
  rfl

theorem abandon_of_le {row removed : Nat} (h : Word.modulus ≤ p.pruned + 1) :
    p.abandon path row removed = .error ⟨.overflow, p.events⟩ := by
  simp only [abandon, Word.add, Word.check, if_neg (not_lt.mpr h)]
  rfl

end Progress

/-- A part of a search: a position, one row of the column covered last, or several of its rows. -/
inductive Task where
  | position (path cs : List Nat)
  | row (path cs : List Nat) (column row : Nat)
  | rows (path cs : List Nat) (column : Nat) (rows : List Nat)

/-- How a part of a search goes, from the progress before it to the exit and the progress after
it. -/
inductive Explores (rule : BranchingRule L σ) (visit : Visitor L ω) (t : Table) :
    Task → CoverMatrix L → Progress σ ω → Except Rejection Signal → Progress σ ω → Prop
  | solved {path cs : List Nat} {m : CoverMatrix L} {p : Progress σ ω} {signal : Signal} {w : ω}
    (hu : m.Under t cs) (hs : t.active cs = []) (hv : visit ⟨m, path⟩ p.visitor = .ok (signal, w)) :
    Explores rule visit t (.position path cs) m p (.ok signal)
      (((p.entered path).solved path).visited w)
  | rejected {path cs : List Nat} {m : CoverMatrix L} {p : Progress σ ω} {r : Rejection} {s : σ}
    (hu : m.Under t cs) (hs : t.active cs ≠ [])
    (hr : rule.select m p.rule = .ok (.error r, s)) :
    Explores rule visit t (.position path cs) m p (.error r) ((p.entered path).chosen s)
  | branched {path cs : List Nat} {m m₁ : CoverMatrix L} {p p' : Progress σ ω} {s : σ} {c : Nat}
    {left : Except Rejection Signal} (hu : m.Under t cs)
    (hr : rule.select m p.rule = .ok (.ok c, s)) (hc : c ∈ t.active cs) (hm : m.cover c = .ok m₁)
    (h : Explores rule visit t (.rows path (cs ++ [c]) c (t.rowsUnder cs c)) m₁
      (((p.entered path).chosen s).note (.branching path c (t.rowsUnder cs c).length)) left p') :
    Explores rule visit t (.position path cs) m p left p'
  | searched {path cs : List Nat} {m m₁ : CoverMatrix L} {p p₁ p' : Progress σ ω} {c r : Nat}
    {left : Except Rejection Signal} (hm : m.coverRowOthers (t.entry r c) = .ok m₁)
    (ha : p.accept path.length m₁.removedRows = .ok (true, p₁))
    (h : Explores rule visit t (.position (path ++ [r]) (cs ++ t.others r c)) m₁ p₁ left p') :
    Explores rule visit t (.row path cs c r) m p left p'
  | abandoned {path cs : List Nat} {m m₁ : CoverMatrix L} {p p₁ : Progress σ ω} {c r : Nat}
    (hm : m.coverRowOthers (t.entry r c) = .ok m₁)
    (ha : p.accept path.length m₁.removedRows = .ok (false, p₁)) :
    Explores rule visit t (.row path cs c r) m p (.ok .proceed) (p₁.abandoned path r m₁.removedRows)
  | exhausted {path cs : List Nat} {m : CoverMatrix L} {p : Progress σ ω} {c : Nat} :
    Explores rule visit t (.rows path cs c []) m p (.ok .proceed) p
  | next {path cs rs : List Nat} {m : CoverMatrix L} {p p₁ p' : Progress σ ω} {c r : Nat}
    {left : Except Rejection Signal}
    (h : Explores rule visit t (.row path cs c r) m p (.ok .proceed) p₁)
    (hrest : Explores rule visit t (.rows path cs c rs) m p₁ left p') :
    Explores rule visit t (.rows path cs c (r :: rs)) m p left p'
  | ended {path cs rs : List Nat} {m : CoverMatrix L} {p p' : Progress σ ω} {c r : Nat}
    {left : Except Rejection Signal} (h : Explores rule visit t (.row path cs c r) m p left p')
    (hl : left ≠ .ok .proceed) : Explores rule visit t (.rows path cs c (r :: rs)) m p left p'

def calls (events : List Event) : Nat :=
  events.countP fun
    | .entered _ => true
    | _ => false

def abandonments (events : List Event) : Nat :=
  events.countP fun
    | .abandoned _ _ _ => true
    | _ => false

/-- The counters agree with the events, and samples are kept only by a rule that prunes. -/
structure Progress.Sound (p : Progress σ ω) (rule : BranchingRule L σ) : Prop where
  nodes : p.nodes = calls p.events
  pruned : p.pruned = Search.abandonments p.events
  solutions : p.solutions ≤ p.nodes
  samples : rule.pruning = none → p.samples = none

namespace Progress

variable {rule : BranchingRule L σ} {visit : Visitor L ω} {t : Table} {p p₁ : Progress σ ω}
  {path : List Nat} {depth removed : Nat} {accepted : Bool}

theorem Sound.entered (h : p.Sound rule) (path : List Nat) : (p.entered path).Sound rule where
  nodes := by simp [Progress.entered, note, calls, h.nodes]
  pruned := by simp [Progress.entered, note, Search.abandonments, h.pruned]
  solutions := Nat.le_succ_of_le h.solutions
  samples := h.samples

theorem accept_eq (h : p.accept depth removed = .ok (accepted, p₁)) :
    ∃ samples, p₁ = { p with samples := samples } ∧
      (p.samples = none → samples = none ∧ accepted = true) := by
  rw [accept] at h
  cases hs : p.samples with
  | none =>
    simp only [hs, Except.ok.injEq, Prod.mk.injEq] at h
    refine ⟨none, ?_, fun _ => ⟨rfl, h.1.symm⟩⟩
    rw [← h.2, ← hs]
  | some samples =>
    simp only [hs] at h
    cases hj : samples.judge depth removed with
    | error f => simp [hj, guard, bind, Except.bind] at h
    | ok judged =>
      simp only [hj, guard, bind, Except.bind, pure, Except.pure, Except.ok.injEq,
        Prod.mk.injEq] at h
      exact ⟨some judged.2, h.2.symm, fun hn => by simp at hn⟩

theorem rule_accept (h : p.accept depth removed = .ok (accepted, p₁)) : p₁.rule = p.rule := by
  rcases accept_eq h with ⟨samples, rfl, -⟩
  rfl

theorem Sound.accept (h : p.Sound rule) (ha : p.accept depth removed = .ok (accepted, p₁)) :
    p₁.Sound rule := by
  rcases accept_eq ha with ⟨samples, rfl, hs⟩
  exact ⟨h.nodes, h.pruned, h.solutions, fun hr => (hs (h.samples hr)).1⟩

theorem exists_accept (p : Progress σ ω) {m : CoverMatrix L} (h : m.IsFrame t)
    (hd : depth < t.columnCount) (removed : Nat) :
    ∃ accepted p₁, p.accept depth removed = .ok (accepted, p₁) := by
  have hword : depth + 1 < Word.modulus :=
    Nat.lt_of_le_of_lt hd ((t.columnCount_lt_start _).trans h.nodeCount_lt)
  rw [accept]
  cases hs : p.samples with
  | none => exact ⟨true, p, rfl⟩
  | some samples =>
    rcases samples.exists_record hword removed with ⟨s, hr⟩
    simp only [DepthSamples.judge, hr, bind, Except.bind, pure, Except.pure, guard]
    exact ⟨_, _, rfl⟩

end Progress

variable {rule : BranchingRule L σ} {visit : Visitor L ω} {t : Table} {m : CoverMatrix L}
  {p p' : Progress σ ω} {left : Except Rejection Signal} {path cs : List Nat} {c r : Nat}

theorem Explores.sound {task : Task} (h : Explores rule visit t task m p left p')
    (hp : p.Sound rule) : p'.Sound rule := by
  induction h with
  | @solved path cs m p signal w hu hs hv =>
    have h := hp.entered path
    exact ⟨h.nodes, h.pruned, Nat.succ_le_succ hp.solutions, h.samples⟩
  | @rejected path cs m p r s hu hs hr => exact { hp.entered path with }
  | @branched path cs m m₁ p p' s c left hu hr hc hm _ ih => exact ih { hp.entered path with }
  | searched hm ha _ ih => exact ih (hp.accept ha)
  | abandoned hm ha =>
    have h := hp.accept ha
    refine ⟨h.nodes, ?_, h.solutions, h.samples⟩
    simp [Progress.abandoned, Progress.note, abandonments, h.pruned]
  | exhausted => exact hp
  | next _ _ ih ihrest => exact ihrest (ih hp)
  | ended _ _ ih => exact ih hp

theorem Explores.counters_le {task : Task} (h : Explores rule visit t task m p left p') :
    p.nodes ≤ p'.nodes ∧ p.pruned ≤ p'.pruned := by
  induction h with
  | solved _ _ _ => exact ⟨Nat.le_succ _, le_rfl⟩
  | rejected _ _ _ => exact ⟨Nat.le_succ _, le_rfl⟩
  | branched _ _ _ _ _ ih => exact ⟨Nat.le_of_succ_le ih.1, ih.2⟩
  | searched _ ha _ ih =>
    rcases Progress.accept_eq ha with ⟨samples, rfl, -⟩
    exact ih
  | abandoned _ ha =>
    rcases Progress.accept_eq ha with ⟨samples, rfl, -⟩
    exact ⟨le_rfl, Nat.le_succ _⟩
  | exhausted => exact ⟨le_rfl, le_rfl⟩
  | next _ _ ih ihrest => exact ⟨ih.1.trans ihrest.1, ih.2.trans ihrest.2⟩
  | ended _ _ ih => exact ih

/-- A part of a search goes in one way at most. -/
theorem Explores.unique {task : Task} {left' : Except Rejection Signal} {p'' : Progress σ ω}
    (h : Explores rule visit t task m p left p') (h' : Explores rule visit t task m p left' p'') :
    left = left' ∧ p' = p'' := by
  -- what a position asks is answered by functions, so the two derivations split alike
  induction h generalizing left' p'' with
  | solved hu hs hv =>
    cases h' with
    | solved _ _ hv' =>
      rw [hv, Except.ok.injEq, Prod.mk.injEq] at hv'
      rw [hv'.1, hv'.2]
      exact ⟨rfl, rfl⟩
    | rejected _ hs' _ => exact absurd hs hs'
    | branched _ _ hc _ _ => simp [hs] at hc
  | rejected hu hs hr =>
    cases h' with
    | solved _ hs' _ => exact absurd hs' hs
    | rejected _ _ hr' =>
      rw [hr, Except.ok.injEq, Prod.mk.injEq, Except.error.injEq] at hr'
      rw [hr'.1, hr'.2]
      exact ⟨rfl, rfl⟩
    | branched _ hr' _ _ _ =>
      rw [hr] at hr'
      cases hr'
  | branched hu hr hc hm _ ih =>
    cases h' with
    | solved _ hs' _ => simp [hs'] at hc
    | rejected _ _ hr' =>
      rw [hr] at hr'
      cases hr'
    | branched _ hr' _ hm' h' =>
      rw [hr] at hr'
      cases hr'
      rw [hm] at hm'
      cases hm'
      exact ih h'
  | searched hm ha _ ih =>
    cases h' with
    | searched hm' ha' h' =>
      rw [hm] at hm'
      cases hm'
      rw [ha] at ha'
      cases ha'
      exact ih h'
    | abandoned hm' ha' =>
      rw [hm] at hm'
      cases hm'
      rw [ha] at ha'
      cases ha'
  | abandoned hm ha =>
    cases h' with
    | searched hm' ha' h' =>
      rw [hm] at hm'
      cases hm'
      rw [ha] at ha'
      cases ha'
    | abandoned hm' ha' =>
      rw [hm] at hm'
      cases hm'
      rw [ha] at ha'
      cases ha'
      exact ⟨rfl, rfl⟩
  | exhausted =>
    cases h' with
    | exhausted => exact ⟨rfl, rfl⟩
  | next _ _ ih ihrest =>
    cases h' with
    | next h' hrest' =>
      rcases ih h' with ⟨-, rfl⟩
      exact ihrest hrest'
    | ended h' hl' => exact absurd (ih h').1.symm hl'
  | ended _ hl ih =>
    cases h' with
    | next h' _ => exact absurd (ih h').1 hl
    | ended h' _ => exact ih h'

/-- The states that a rule gets into by answering about the matrices of a table. -/
inductive Reaches (select : CoverMatrix L → σ → Except Fault (Except Rejection Nat × σ)) (t : Table)
    (state : σ) : σ → Prop
  | start : Reaches select t state state
  | asked {m : CoverMatrix L} {cs : List Nat} {s s' : σ} {choice : Except Rejection Nat}
    (h : Reaches select t state s) (hm : m.Under t cs) (hs : t.active cs ≠ [])
    (hsel : select m s = .ok (choice, s')) : Reaches select t state s'

theorem Reaches.trans {s s' s'' : σ} (h : Reaches rule.select t s s')
    (h' : Reaches rule.select t s' s'') : Reaches rule.select t s s'' := by
  induction h' with
  | start => exact h
  | asked _ hm hs hsel ih => exact .asked ih hm hs hsel

/-- A search leaves the rule in a state that it got into by answering. -/
theorem Explores.reaches {task : Task} (h : Explores rule visit t task m p left p') :
    Reaches rule.select t p.rule p'.rule := by
  induction h with
  | solved _ _ _ => exact .start
  | rejected hu hs hr => exact .asked .start hu hs hr
  | branched hu hr hc _ _ ih => exact (Reaches.asked .start hu (List.ne_nil_of_mem hc) hr).trans ih
  | searched _ ha _ ih =>
    rw [Progress.rule_accept ha] at ih
    exact ih
  | abandoned _ ha =>
    show Reaches rule.select t _ (Progress.rule _)
    rw [← Progress.rule_accept ha]
    exact .start
  | exhausted => exact .start
  | next _ _ ih ihrest => exact ih.trans ihrest
  | ended _ _ ih => exact ih

/-- Whatever it has been asked before. -/
def Throughout (rule : BranchingRule L σ) (t : Table) (state : σ) (holds : σ → Prop) : Prop :=
  ∀ s, Reaches rule.select t state s → holds s

theorem Throughout.later {s s' : σ} {holds : σ → Prop} (h : Throughout rule t s holds)
    (hs' : Reaches rule.select t s s') : Throughout rule t s' holds :=
  fun s'' hs'' => h s'' (hs'.trans hs'')

/-- The choices of the rule are active columns, whatever columns of the table are covered. -/
def ChoosesActive (rule : BranchingRule L σ) (t : Table) (state : σ) : Prop :=
  Throughout rule t state fun s => ∀ (m : CoverMatrix L) (cs : List Nat) (c : Nat) (s' : σ),
    m.Under t cs → t.active cs ≠ [] → rule.select m s = .ok (.ok c, s') →
    ∃ active, m.activeColumns = .ok active ∧ c ∈ active

/-- The rule always chooses an active column. -/
def AlwaysChooses (rule : BranchingRule L σ) (t : Table) (state : σ) : Prop :=
  Throughout rule t state fun s => ∀ (m : CoverMatrix L) (cs : List Nat), m.Under t cs →
    t.active cs ≠ [] → ∃ c s' active, rule.select m s = .ok (.ok c, s') ∧
      m.activeColumns = .ok active ∧ c ∈ active

theorem AlwaysChooses.choosesActive {state : σ} (h : AlwaysChooses rule t state) :
    ChoosesActive rule t state := by
  intro s hreach m cs c s' hm hs hsel
  rcases h s hreach m cs hm hs with ⟨c', s'', active, hsel', ha, hc⟩
  rw [hsel', Except.ok.injEq, Prod.mk.injEq, Except.ok.injEq] at hsel
  exact ⟨active, ha, hsel.1 ▸ hc⟩

/-- The rule answers as long as there is a column left. -/
def Answers (rule : BranchingRule L σ) (t : Table) (state : σ) : Prop :=
  Throughout rule t state fun s => ∀ (m : CoverMatrix L) (cs : List Nat), m.Under t cs →
    t.active cs ≠ [] → ∃ answer, rule.select m s = .ok answer

theorem AlwaysChooses.answers {state : σ} (h : AlwaysChooses rule t state) :
    Answers rule t state := by
  intro s hreach m cs hm hs
  rcases h s hreach m cs hm hs with ⟨c, s', -, hsel, -, -⟩
  exact ⟨_, hsel⟩

theorem alwaysChooses_leftmost (t : Table) (state : Unit) :
    AlwaysChooses (BranchingRule.leftmost : BranchingRule L Unit) t state := by
  intro s _ m cs hm hs
  cases ha : t.active cs with
  | nil => exact absurd ha hs
  | cons c active =>
    refine ⟨c, (), c :: active, ?_, ?_, List.mem_cons_self⟩
    · simp only [BranchingRule.leftmost, hm.firstColumn ha, bind, Except.bind]
      rfl
    · rw [hm.activeColumns, ha]

theorem ChoosesActive.mem_active {s s' : σ} (hr : ChoosesActive rule t s) (h : m.Under t cs)
    (hs : t.active cs ≠ []) (hsel : rule.select m s = .ok (.ok c, s')) : c ∈ t.active cs := by
  rcases hr s .start m cs c s' h hs hsel with ⟨active, ha, hc⟩
  rw [h.activeColumns, Except.ok.injEq] at ha
  rwa [ha]

/-- The visitor answers to every cover. -/
def Returns (visit : Visitor L ω) : Prop :=
  ∀ (s : Solution L) (w : ω), ∃ answer, visit s w = .ok answer

theorem exists_explores_row (h : m.Under t cs) (hc : c ∈ t.row r)
    (hcs : ∀ d ∈ t.others r c, d ∉ cs) (hpath : path.length < t.columnCount)
    (hd : ∀ m₁ p₁, m₁.Under t (cs ++ t.others r c) → Reaches rule.select t p.rule p₁.rule →
      ∃ left p', Explores rule visit t (.position (path ++ [r]) (cs ++ t.others r c)) m₁ p₁ left
        p') :
    ∃ left p', Explores rule visit t (.row path cs c r) m p left p' := by
  rcases h.others_step hc hcs with ⟨m₁, ha, -, -, h₁⟩
  rcases p.exists_accept h.toIsFrame hpath m₁.removedRows with ⟨accepted, p₁, hacc⟩
  cases accepted with
  | true =>
    rcases hd m₁ p₁ h₁ (Progress.rule_accept hacc ▸ .start) with ⟨left, p', hex⟩
    exact ⟨left, p', .searched ha hacc hex⟩
  | false => exact ⟨_, _, .abandoned ha hacc⟩

theorem exists_explores_rows {rs : List Nat} (h : m.Under t cs) (hc : ∀ r ∈ rs, c ∈ t.row r)
    (hcs : ∀ r ∈ rs, ∀ d ∈ t.others r c, d ∉ cs) (hpath : path.length < t.columnCount)
    (hd : ∀ r ∈ rs, ∀ m₁ p₁, m₁.Under t (cs ++ t.others r c) →
      Reaches rule.select t p.rule p₁.rule →
      ∃ left p', Explores rule visit t (.position (path ++ [r]) (cs ++ t.others r c)) m₁ p₁ left
        p') :
    ∃ left p', Explores rule visit t (.rows path cs c rs) m p left p' := by
  induction rs generalizing p with
  | nil => exact ⟨_, _, .exhausted⟩
  | cons r rs ih =>
    simp only [List.mem_cons, forall_eq_or_imp] at hc hcs hd
    rcases exists_explores_row h hc.1 hcs.1 hpath hd.1 with ⟨left, p₁, hrow⟩
    by_cases hl : left = .ok .proceed
    · subst hl
      rcases ih hc.2 hcs.2 fun r hr m₂ p₂ h₂ hp₂ =>
        hd.2 r hr m₂ p₂ h₂ (hrow.reaches.trans hp₂) with ⟨left, p', hrest⟩
      exact ⟨left, p', .next hrow hrest⟩
    · exact ⟨left, p₁, .ended hrow hl⟩

/-- Every position has a derivation, since each row tried leaves fewer columns active. -/
theorem exists_explores (hr : ChoosesActive rule t p.rule) (ha : Answers rule t p.rule)
    (hv : Returns visit) (h : m.Under t cs)
    (hpath : path.length + (t.active cs).length ≤ t.columnCount) :
    ∃ left p', Explores rule visit t (.position path cs) m p left p' := by
  -- the path grows no faster than the active columns go
  induction hn : (t.active cs).length using Nat.strong_induction_on generalizing path cs m p with
  | h n ih =>
    by_cases hs : t.active cs = []
    · rcases hv ⟨m, path⟩ p.visitor with ⟨⟨signal, w⟩, hvis⟩
      exact ⟨_, _, .solved h hs hvis⟩
    · rcases ha p.rule .start m cs h hs with ⟨⟨choice, s⟩, hsel⟩
      cases choice with
      | error r => exact ⟨_, _, .rejected h hs hsel⟩
      | ok c =>
        have hc := hr.mem_active h hs hsel
        have hcs : c ∉ cs := (Table.mem_active.mp hc).2
        rcases h.cover_step (Table.mem_active.mp hc).1.lt hcs with ⟨m₁, hcov, -, h₁⟩
        have hpos : 0 < (t.active cs).length := List.length_pos_of_mem hc
        have hreach : Reaches rule.select t p.rule s := .asked .start h hs hsel
        have hrows : ∃ left p', Explores rule visit t
            (.rows path (cs ++ [c]) c (t.rowsUnder cs c)) m₁
            (((p.entered path).chosen s).note (.branching path c (t.rowsUnder cs c).length))
            left p' := by
          apply exists_explores_rows h₁ (fun r hm => ((Table.mem_rowsUnder hcs).mp hm).1)
            (fun r hm => h.ordered.others_notMem hcs hm) (by omega)
          intro r _ m₂ p₂ h₂ hp₂
          have hlt := Table.length_active_others_lt hc r
          apply ih _ (hn ▸ hlt) (hr.later (hreach.trans hp₂)) (ha.later (hreach.trans hp₂)) h₂ _
            rfl
          rw [List.length_append, List.length_singleton]
          omega
        rcases hrows with ⟨left, p', hex⟩
        exact ⟨left, p', .branched h hsel hc hcov hex⟩

end Search

end DancingLinks
