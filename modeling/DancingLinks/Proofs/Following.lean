import DancingLinks.Proofs.Exploring

/-! # The program follows derivations

A search without a fault is a derivation and hands back the very matrix that it was given; a fault
is to blame on the rule, on the visitor or on a counter that ran out of words. The other way round,
the program follows every derivation whose counters are words.
-/
namespace DancingLinks.Search

open CoverMatrix

variable {L σ ω : Type} {rule : BranchingRule L σ} {visit : Visitor L ω} {t : Table}
  {m : CoverMatrix L} {p p' : Progress σ ω} {left : Except Rejection Signal} {path cs : List Nat}
  {c r : Nat}

/-- Where a fault came from: from the rule, from the visitor, or from a counter at its end. -/
inductive Blame (rule : BranchingRule L σ) (visit : Visitor L ω) (t : Table) (state : σ) :
    Interruption → Prop
  | rule {m : CoverMatrix L} {cs : List Nat} {s : σ} {f : Fault} {events : List Event}
    (hs : Reaches rule.select t state s) (hm : m.Under t cs) (hcs : t.active cs ≠ [])
    (h : rule.select m s = .error f) : Blame rule visit t state ⟨f, events⟩
  | visitor {s : Solution L} {w : ω} {f : Fault} {events : List Event}
    (h : visit s w = .error f) : Blame rule visit t state ⟨f, events⟩
  | calls {events : List Event} (h : Word.modulus ≤ calls events + 1) :
    Blame rule visit t state ⟨.overflow, events⟩
  | abandonments {events : List Event} (hp : rule.pruning ≠ none)
    (h : Word.modulus ≤ abandonments events + 1) : Blame rule visit t state ⟨.overflow, events⟩

theorem Blame.earlier {s s' : σ} {i : Interruption} (h : Blame rule visit t s' i)
    (hs : Reaches rule.select t s s') : Blame rule visit t s i := by
  cases h with
  | rule hs' hm hcs h => exact .rule (hs.trans hs') hm hcs h
  | visitor h => exact .visitor h
  | calls h => exact .calls h
  | abandonments hp h => exact .abandonments hp h

section Steps

variable {descend : List Nat → CoverMatrix L → Progress σ ω → Except Interruption (Exit L σ ω)}
  {depth fuel : Nat} {m₁ : CoverMatrix L} {p₁ : Progress σ ω} {s : σ}

theorem explore_solved (hcalls : p.nodes + 1 < Word.modulus) (h : m.Under t cs)
    (hs : t.active cs = []) :
    explore rule visit (depth + 1) path m p = present visit path m (p.entered path) := by
  simp only [explore, searchFrom, Progress.enter_of_lt hcalls, h.isSolved, hs, decide_true,
    if_true, Progress.guard, bind, Except.bind]

theorem explore_faulty {f : Fault} (hcalls : p.nodes + 1 < Word.modulus) (h : m.Under t cs)
    (hs : t.active cs ≠ []) (hsel : rule.select m p.rule = .error f) :
    explore rule visit (depth + 1) path m p = .error ⟨f, (p.entered path).events⟩ := by
  have hsel' : rule.select m (p.entered path).rule = .error f := hsel
  simp only [explore, searchFrom, Progress.enter_of_lt hcalls, h.isSolved, hs, decide_false,
    Bool.false_eq_true, if_false, hsel', Progress.guard, bind, Except.bind]

theorem explore_rejected {r : Rejection} (hcalls : p.nodes + 1 < Word.modulus) (h : m.Under t cs)
    (hs : t.active cs ≠ []) (hsel : rule.select m p.rule = .ok (.error r, s)) :
    explore rule visit (depth + 1) path m p = .ok (.error r, m, (p.entered path).chosen s) := by
  have hsel' : rule.select m (p.entered path).rule = .ok (.error r, s) := hsel
  simp only [explore, searchFrom, Progress.enter_of_lt hcalls, h.isSolved, hs, decide_false,
    Bool.false_eq_true, if_false, hsel', Progress.guard, bind, Except.bind]
  rfl

/-- Once a column is chosen, its rows are tried and it is uncovered. -/
theorem explore_branched (hcalls : p.nodes + 1 < Word.modulus) (h : m.Under t cs)
    (hsel : rule.select m p.rule = .ok (.ok c, s)) (hc : c ∈ t.active cs)
    (hcov : m.cover c = .ok m₁) (h₁ : m₁.Under t (cs ++ [c])) :
    explore rule visit (depth + 1) path m p = do
      let (left, m, p) ← branch (explore rule visit depth) path m₁.down.size
        ((t.rowsUnder cs c).head?.map (t.entry · c)) m₁
        (((p.entered path).chosen s).note (.branching path c (t.rowsUnder cs c).length))
      let m ← p.guard (m.uncover c)
      return (left, m, p) := by
  have hs : t.active cs ≠ [] := List.ne_nil_of_mem hc
  have hct : c < t.columnCount := (Table.mem_active.mp hc).1.lt
  have hsel' : rule.select m (p.entered path).rule = .ok (.ok c, s) := hsel
  have hsize : m.size c = (t.rowsUnder cs c).length := h.size_eq hct
  have hfirst := h₁.firstInColumn_last hct (Table.mem_active.mp hc).2
  simp only [explore, searchFrom, Progress.enter_of_lt hcalls, h.isSolved, hs, decide_false,
    Bool.false_eq_true, if_false, hsel', hsize, hcov, hfirst, Progress.guard, bind, Except.bind]
  rfl

theorem tryRow_searched (h : m.Under t cs) (hc : c ∈ t.row r)
    (hcov : m.coverRowOthers (t.entry r c) = .ok m₁)
    (hacc : p.accept path.length m₁.removedRows = .ok (true, p₁)) :
    tryRow descend path (t.entry r c) m p = do
      let (left, m, p) ← descend (path ++ [r]) m₁ p₁
      let m ← p.guard (m.uncoverRowOthers (t.entry r c))
      return (left, m, p) := by
  simp only [tryRow, h.rowOf hc, hcov, hacc, if_true, Progress.guard, bind, Except.bind]

theorem tryRow_abandoned (h : m.Under t cs) (hc : c ∈ t.row r)
    (hcov : m.coverRowOthers (t.entry r c) = .ok m₁)
    (hacc : p.accept path.length m₁.removedRows = .ok (false, p₁)) :
    tryRow descend path (t.entry r c) m p = do
      let p ← p₁.abandon path r m₁.removedRows
      let m ← p.guard (m₁.uncoverRowOthers (t.entry r c))
      return (.ok .proceed, m, p) := by
  simp only [tryRow, h.rowOf hc, hcov, hacc, Bool.false_eq_true, if_false, Progress.guard, bind,
    Except.bind]
  cases p₁.abandon path r m₁.removedRows <;> rfl

theorem branch_next {above rs : List Nat} (h : m.Under t cs) (hc : c < t.columnCount)
    (hrows : t.rowsUnder cs c = above ++ r :: rs)
    (htry : tryRow descend path (t.entry r c) m p = .ok (.ok .proceed, m, p₁)) :
    branch descend path (fuel + 1) ((r :: rs).head?.map (t.entry · c)) m p =
      branch descend path fuel (rs.head?.map (t.entry · c)) m p₁ := by
  simp only [List.head?_cons, Option.map_some, branch, htry, h.nextInColumn hc hrows,
    Progress.guard, bind, Except.bind]

theorem branch_ended {rs : List Nat} (hl : left ≠ .ok .proceed)
    (htry : tryRow descend path (t.entry r c) m p = .ok (left, m₁, p₁)) :
    branch descend path (fuel + 1) ((r :: rs).head?.map (t.entry · c)) m p =
      .ok (left, m₁, p₁) := by
  simp only [List.head?_cons, Option.map_some, branch, htry, bind, Except.bind]
  cases left with
  | error r => rfl
  | ok signal =>
    cases signal with
    | proceed => exact absurd rfl hl
    | stop => rfl

end Steps

/-- A part of the program ends as a derivation does, with the matrix it began with, or with a fault
that is to blame on something else. -/
def Follows (rule : BranchingRule L σ) (visit : Visitor L ω) (t : Table) (task : Task)
    (m : CoverMatrix L) (p : Progress σ ω) : Except Interruption (Exit L σ ω) → Prop
  | .ok (left, m', p') => m' = m ∧ Explores rule visit t task m p left p'
  | .error i => Blame rule visit t p.rule i

theorem tryRow_follows
    {descend : List Nat → CoverMatrix L → Progress σ ω → Except Interruption (Exit L σ ω)}
    (h : m.Under t cs) (hc : c ∈ t.row r) (hcs : ∀ d ∈ t.others r c, d ∉ cs)
    (hpath : path.length < t.columnCount) (hp : p.Sound rule)
    (hd : ∀ m₁ p₁, m₁.Under t (cs ++ t.others r c) → p₁.Sound rule →
      Reaches rule.select t p.rule p₁.rule →
      Follows rule visit t (.position (path ++ [r]) (cs ++ t.others r c)) m₁ p₁
        (descend (path ++ [r]) m₁ p₁)) :
    Follows rule visit t (.row path cs c r) m p (tryRow descend path (t.entry r c) m p) := by
  rcases h.others_step hc hcs with ⟨m₁, hcov, hunc, -, h₁⟩
  rcases p.exists_accept h.toIsFrame hpath m₁.removedRows with ⟨accepted, p₁, hacc⟩
  have hp₁ := hp.accept hacc
  cases accepted with
  | true =>
    rw [tryRow_searched h hc hcov hacc]
    have hreach : Reaches rule.select t p.rule p₁.rule := Progress.rule_accept hacc ▸ .start
    have hdesc := hd m₁ p₁ h₁ hp₁ hreach
    cases hx : descend (path ++ [r]) m₁ p₁ with
    | error i =>
      rw [hx] at hdesc
      exact Blame.earlier hdesc hreach
    | ok e =>
      rcases e with ⟨left, m₂, p₂⟩
      rw [hx] at hdesc
      rcases hdesc with ⟨rfl, hex⟩
      simp only [Progress.guard, hunc, bind, Except.bind]
      exact ⟨rfl, .searched hcov hacc hex⟩
  | false =>
    rw [tryRow_abandoned h hc hcov hacc]
    by_cases hover : p₁.pruned + 1 < Word.modulus
    · simp only [Progress.abandon_of_lt hover, Progress.guard, hunc, bind, Except.bind]
      exact ⟨rfl, .abandoned hcov hacc⟩
    · have hover := not_lt.mp hover
      simp only [Progress.abandon_of_le hover, bind, Except.bind]
      apply Blame.abandonments
      · intro hnone
        rcases Progress.accept_eq hacc with ⟨_, -, hs⟩
        exact Bool.noConfusion (hs (hp.samples hnone)).2
      · rwa [← hp₁.pruned]

theorem branch_follows
    {descend : List Nat → CoverMatrix L → Progress σ ω → Except Interruption (Exit L σ ω)}
    {above rs : List Nat} {fuel : Nat} (h : m.Under t cs) (hc : c < t.columnCount)
    (hrows : t.rowsUnder cs c = above ++ rs) (hcs : ∀ r ∈ rs, ∀ d ∈ t.others r c, d ∉ cs)
    (hpath : path.length < t.columnCount) (hp : p.Sound rule) (hfuel : rs.length ≤ fuel)
    (hd : ∀ r ∈ rs, ∀ m₁ p₁, m₁.Under t (cs ++ t.others r c) → p₁.Sound rule →
      Reaches rule.select t p.rule p₁.rule →
      Follows rule visit t (.position (path ++ [r]) (cs ++ t.others r c)) m₁ p₁
        (descend (path ++ [r]) m₁ p₁)) :
    Follows rule visit t (.rows path cs c rs) m p
      (branch descend path fuel (rs.head?.map (t.entry · c)) m p) := by
  induction rs generalizing above fuel p with
  | nil =>
    cases fuel with
    | zero => exact ⟨rfl, .exhausted⟩
    | succ fuel => exact ⟨rfl, .exhausted⟩
  | cons r rs ih =>
    cases fuel with
    | zero => simp at hfuel
    | succ fuel =>
      have hrow : c ∈ t.row r := Table.mem_row_of_rowsUnder hrows
      have htry := tryRow_follows h hrow (hcs r List.mem_cons_self) hpath hp
        (hd r List.mem_cons_self)
      cases hx : tryRow descend path (t.entry r c) m p with
      | error i =>
        rw [hx] at htry
        simp only [List.head?_cons, Option.map_some, branch, hx, bind, Except.bind]
        exact htry
      | ok e =>
        rcases e with ⟨left, m₁, p₁⟩
        rw [hx] at htry
        rcases htry with ⟨rfl, hex⟩
        by_cases hl : left = .ok .proceed
        · subst hl
          have hrows' : t.rowsUnder cs c = (above ++ [r]) ++ rs := by rw [hrows, List.append_cons]
          have hrest := ih hrows' (fun i hi => hcs i (List.mem_cons_of_mem r hi)) (hex.sound hp)
            (Nat.le_of_succ_le_succ hfuel) fun i hi m₂ p₂ h₂ hp₂ hs =>
              hd i (List.mem_cons_of_mem r hi) m₂ p₂ h₂ hp₂ (hex.reaches.trans hs)
          rw [branch_next h hc hrows hx]
          cases hb : branch descend path fuel (rs.head?.map (t.entry · c)) m₁ p₁ with
          | error i =>
            rw [hb] at hrest
            exact Blame.earlier hrest hex.reaches
          | ok e =>
            rw [hb] at hrest
            exact ⟨hrest.1, .next hex hrest.2⟩
        · rw [branch_ended hl hx]
          exact ⟨rfl, .ended hex hl⟩

theorem branch_all_follows
    {descend : List Nat → CoverMatrix L → Progress σ ω → Except Interruption (Exit L σ ω)}
    (h : m.Under t (cs ++ [c])) (hc : c < t.columnCount) (hcs : c ∉ cs)
    (hpath : path.length < t.columnCount) (hp : p.Sound rule)
    (hd : ∀ r m₁ p₁, m₁.Under t (cs ++ [c] ++ t.others r c) → p₁.Sound rule →
      Reaches rule.select t p.rule p₁.rule →
      Follows rule visit t (.position (path ++ [r]) (cs ++ [c] ++ t.others r c)) m₁ p₁
        (descend (path ++ [r]) m₁ p₁)) :
    Follows rule visit t (.rows path (cs ++ [c]) c (t.rowsUnder cs c)) m p
      (branch descend path m.down.size ((t.rowsUnder cs c).head?.map (t.entry · c)) m p) := by
  have hrows : t.rowsUnder (cs ++ [c]) c = [] ++ t.rowsUnder cs c :=
    Table.rowsUnder_concat_self hcs
  exact branch_follows h hc hrows (fun r hr => h.ordered.others_notMem hcs hr) hpath hp
    (h.length_rowsUnder_last_le hc hcs) fun r _ => hd r

theorem present_follows (h : m.Under t cs) (hs : t.active cs = []) (hp : p.Sound rule)
    (hcalls : p.nodes + 1 < Word.modulus) :
    Follows rule visit t (.position path cs) m p (present visit path m (p.entered path)) := by
  have hsol : (p.entered path).solutions + 1 < Word.modulus :=
    (Nat.succ_le_succ hp.solutions).trans_lt hcalls
  simp only [present, Progress.solve_of_lt hsol, bind, Except.bind]
  cases hv : visit ⟨m, path⟩ ((p.entered path).solved path).visitor with
  | error f => exact Blame.visitor hv
  | ok answer => exact ⟨rfl, .solved h hs hv⟩

theorem explore_follows {depth : Nat} (hr : ChoosesActive rule t p.rule) (h : m.Under t cs)
    (hp : p.Sound rule) (hpath : path.length + (t.active cs).length ≤ t.columnCount)
    (hdepth : (t.active cs).length < depth) :
    Follows rule visit t (.position path cs) m p (explore rule visit depth path m p) := by
  induction depth generalizing path cs m p with
  | zero => exact absurd hdepth (Nat.not_lt_zero _)
  | succ depth ih =>
    by_cases hcalls : p.nodes + 1 < Word.modulus
    case neg =>
      simp only [explore, searchFrom, Progress.enter_of_le (not_lt.mp hcalls), bind, Except.bind]
      apply Blame.calls
      rw [← hp.nodes]
      exact not_lt.mp hcalls
    case pos =>
    by_cases hs : t.active cs = []
    · rw [explore_solved hcalls h hs]
      exact present_follows h hs hp hcalls
    · cases hsel : rule.select m p.rule with
      | error f =>
        rw [explore_faulty hcalls h hs hsel]
        exact Blame.rule .start h hs hsel
      | ok answer =>
        rcases answer with ⟨choice, s⟩
        cases choice with
        | error r =>
          rw [explore_rejected hcalls h hs hsel]
          exact ⟨rfl, .rejected h hs hsel⟩
        | ok c =>
          have hc := hr.mem_active h hs hsel
          have hcs : c ∉ cs := (Table.mem_active.mp hc).2
          have hct : c < t.columnCount := (Table.mem_active.mp hc).1.lt
          rcases h.cover_step hct hcs with ⟨m₁, hcov, hunc, h₁⟩
          have hpos : 0 < (t.active cs).length := List.length_pos_of_mem hc
          have hpath₁ : path.length < t.columnCount := by omega
          have hp₁ : (((p.entered path).chosen s).note
              (.branching path c (t.rowsUnder cs c).length)).Sound rule := { hp.entered path with }
          have hreach : Reaches rule.select t p.rule s := .asked .start h hs hsel
          -- each row tried leaves fewer columns active, so the depth still allowed is enough
          have hbranch := branch_all_follows h₁ hct hcs hpath₁ hp₁ fun r m₂ p₂ h₂ hp₂ hs₂ => by
            have hlt := Table.length_active_others_lt hc r
            apply ih (hr.later (hreach.trans hs₂)) h₂ hp₂
            · rw [List.length_append, List.length_singleton]
              omega
            · omega
          rw [explore_branched hcalls h hsel hc hcov h₁]
          cases hb : branch (explore rule visit depth) path m₁.down.size
              ((t.rowsUnder cs c).head?.map (t.entry · c)) m₁
              (((p.entered path).chosen s).note
                (.branching path c (t.rowsUnder cs c).length)) with
          | error i =>
            rw [hb] at hbranch
            exact Blame.earlier hbranch hreach
          | ok e =>
            rcases e with ⟨left, m₂, p₂⟩
            rw [hb] at hbranch
            rcases hbranch with ⟨rfl, hex⟩
            simp only [Progress.guard, hunc, bind, Except.bind]
            exact ⟨rfl, .branched h hsel hc hcov hex⟩

def Computes (rule : BranchingRule L σ) (visit : Visitor L ω) (t : Table) :
    Task → CoverMatrix L → Progress σ ω → Except Rejection Signal → Progress σ ω → Prop
  | .position path cs, m, p, left, p' => ∀ depth, (t.active cs).length < depth →
    explore rule visit depth path m p = .ok (left, m, p')
  | .row path cs c r, m, p, left, p' => m.Under t cs → c ∈ t.row r →
    (∀ d ∈ t.others r c, d ∉ cs) →
    ∀ depth, (t.active (cs ++ t.others r c)).length < depth →
    tryRow (explore rule visit depth) path (t.entry r c) m p = .ok (left, m, p')
  | .rows path cs c rs, m, p, left, p' => m.Under t cs → c < t.columnCount →
    (∃ above, t.rowsUnder cs c = above ++ rs) → (∀ r ∈ rs, ∀ d ∈ t.others r c, d ∉ cs) →
    ∀ depth fuel, (∀ r ∈ rs, (t.active (cs ++ t.others r c)).length < depth) →
    rs.length ≤ fuel →
    branch (explore rule visit depth) path fuel (rs.head?.map (t.entry · c)) m p =
      .ok (left, m, p')

/-- The program follows every derivation whose counters are words. -/
theorem Explores.computes {task : Task} (h : Explores rule visit t task m p left p')
    (hp : p.Sound rule) (hnodes : p'.nodes < Word.modulus) (hpruned : p'.pruned < Word.modulus) :
    Computes rule visit t task m p left p' := by
  induction h with
  | @solved path cs m p signal w hu hs hv =>
    intro depth hdepth
    rcases Nat.exists_eq_add_of_lt hdepth with ⟨depth, rfl⟩
    have hsol : (p.entered path).solutions + 1 < Word.modulus :=
      (Nat.succ_le_succ hp.solutions).trans_lt hnodes
    have hv' : visit ⟨m, path⟩ ((p.entered path).solved path).visitor = .ok (signal, w) := hv
    rw [explore_solved hnodes hu hs]
    simp only [present, Progress.solve_of_lt hsol, hv', Progress.guard, bind, Except.bind]
    rfl
  | rejected hu hs hr =>
    intro depth hdepth
    rcases Nat.exists_eq_add_of_lt hdepth with ⟨depth, rfl⟩
    exact explore_rejected hnodes hu hs hr
  | @branched path cs m m₁ p p' s c left hu hr hc hm hrows ih =>
    intro depth hdepth
    rcases Nat.exists_eq_add_of_lt hdepth with ⟨depth, rfl⟩
    have hcs : c ∉ cs := (Table.mem_active.mp hc).2
    have hct : c < t.columnCount := (Table.mem_active.mp hc).1.lt
    have hcalls : p.nodes + 1 < Word.modulus := hrows.counters_le.1.trans_lt hnodes
    rcases hu.cover_step hct hcs with ⟨m₂, hcov, hunc, h₁⟩
    have heq : m₁ = m₂ := Except.ok.inj (hm.symm.trans hcov)
    subst heq
    have hdepth' : ∀ r ∈ t.rowsUnder cs c,
        (t.active (cs ++ [c] ++ t.others r c)).length < (t.active cs).length + depth := by
      intro r _
      have hlt := Table.length_active_others_lt hc r
      omega
    have hbranch := ih { hp.entered path with } hnodes hpruned h₁ hct
      ⟨[], Table.rowsUnder_concat_self hcs⟩ (fun r hr => hu.ordered.others_notMem hcs hr) _ _
      hdepth' (h₁.length_rowsUnder_last_le hct hcs)
    rw [explore_branched hcalls hu hr hc hcov h₁, hbranch]
    simp only [Progress.guard, hunc, bind, Except.bind]
    rfl
  | @searched path cs m m₁ p p₁ p' c r left hm ha _ ih =>
    intro hu hc hcs depth hdepth
    rcases hu.others_step hc hcs with ⟨m₂, hcov, hunc, -, h₁⟩
    have heq : m₁ = m₂ := Except.ok.inj (hm.symm.trans hcov)
    subst heq
    have hdesc := ih (hp.accept ha) hnodes hpruned depth hdepth
    rw [tryRow_searched hu hc hcov ha, hdesc]
    simp only [Progress.guard, hunc, bind, Except.bind]
    rfl
  | @abandoned path cs m m₁ p p₁ c r hm ha =>
    intro hu hc hcs depth _
    rcases hu.others_step hc hcs with ⟨m₂, hcov, hunc, -, h₁⟩
    have heq : m₁ = m₂ := Except.ok.inj (hm.symm.trans hcov)
    subst heq
    have hover : p₁.pruned + 1 < Word.modulus := hpruned
    rw [tryRow_abandoned hu hc hcov ha, Progress.abandon_of_lt hover]
    simp only [Progress.guard, hunc, bind, Except.bind]
    rfl
  | exhausted =>
    intro _ _ _ _ depth fuel _ _
    cases fuel <;> rfl
  | @next path cs rs m p p₁ p' c r left hrow hrest ih ihrest =>
    rintro hu hc ⟨above, habove⟩ hcs depth fuel hdepth hfuel
    cases fuel with
    | zero => simp at hfuel
    | succ fuel =>
      simp only [List.mem_cons, forall_eq_or_imp] at hcs hdepth
      have hcr : c ∈ t.row r := Table.mem_row_of_rowsUnder habove
      have hle := hrest.counters_le
      have htry := ih hp (hle.1.trans_lt hnodes) (hle.2.trans_lt hpruned) hu hcr hcs.1 depth
        hdepth.1
      rw [branch_next hu hc habove htry]
      exact ihrest (hrow.sound hp) hnodes hpruned hu hc
        ⟨above ++ [r], by rw [habove, List.append_cons]⟩ hcs.2 depth fuel hdepth.2
        (Nat.le_of_succ_le_succ hfuel)
  | @ended path cs rs m p p' c r left hrow hl ih =>
    rintro hu hc ⟨above, habove⟩ hcs depth fuel hdepth hfuel
    cases fuel with
    | zero => simp at hfuel
    | succ fuel =>
      simp only [List.mem_cons, forall_eq_or_imp] at hcs hdepth
      have hcr : c ∈ t.row r := Table.mem_row_of_rowsUnder habove
      exact branch_ended hl (ih hp hnodes hpruned hu hcr hcs.1 depth hdepth.1)

def conclude (left : Except Rejection Signal) (m : CoverMatrix L) (p : Progress σ ω) :
    Outcome L σ ω :=
  match left with
  | .error r => ⟨.error r, m, p.rule, p.visitor, p.events.reverse⟩
  | .ok signal =>
    let t := p.tally (signal = .stop)
    ⟨.ok t, m, p.rule, p.visitor, (p.note (.finished t)).events.reverse⟩

@[simp] theorem matrix_conclude (left : Except Rejection Signal) :
    (conclude left m p).matrix = m := by
  cases left <;> rfl

@[simp] theorem rule_conclude (left : Except Rejection Signal) :
    (conclude left m p).rule = p.rule := by
  cases left <;> rfl

@[simp] theorem visitor_conclude (left : Except Rejection Signal) :
    (conclude left m p).visitor = p.visitor := by
  cases left <;> rfl

/-- What a run did, in order: all of it, or what it did before a fault. -/
def happened : Except Interruption (Outcome L σ ω) → List Event
  | .ok out => out.events
  | .error i => i.events.reverse

theorem run_eq (rule : BranchingRule L σ) (state : σ) (visit : Visitor L ω) (visitor : ω)
    (m : CoverMatrix L) : rule.run state visit visitor m =
      (explore rule visit (m.columnCount + 1) [] m.close
        (rule.begin state visitor m.closingEvents)).map fun e => conclude e.1 e.2.1 e.2.2 := by
  simp only [BranchingRule.run, bind, Except.bind, CoverMatrix.close, CoverMatrix.columnCount]
  cases explore rule visit (m.headers.size + 1) [] { m with isClosed := true }
      (rule.begin state visitor m.closingEvents) with
  | error i => rfl
  | ok e =>
    rcases e with ⟨left, m', p'⟩
    cases left <;> rfl

theorem sound_begin (rule : BranchingRule L σ) (state : σ) (visitor : ω) (m : CoverMatrix L) :
    (rule.begin state visitor m.closingEvents).Sound rule := by
  constructor
  · cases hp : rule.pruning <;> cases hc : m.isClosed <;>
      simp [BranchingRule.begin, calls, closingEvents, closing, hp, hc]
  · cases hp : rule.pruning <;> cases hc : m.isClosed <;>
      simp [BranchingRule.begin, abandonments, closingEvents, closing, hp, hc]
  · exact le_rfl
  · intro hp
    rw [BranchingRule.begin, hp]
    rfl

/-- How the search of a matrix goes if it is counted without bound. -/
abbrev Searches (rule : BranchingRule L σ) (state : σ) (visit : Visitor L ω) (visitor : ω)
    (t : Table) (cs : List Nat) (m : CoverMatrix L) :
    Except Rejection Signal → Progress σ ω → Prop :=
  Explores rule visit t (.position [] cs) m.close (rule.begin state visitor m.closingEvents)

theorem length_active_lt (h : m.Under t cs) : (t.active cs).length < m.columnCount + 1 := by
  rw [CoverMatrix.columnCount, h.headers_size]
  exact Nat.lt_succ_of_le (t.length_active_le cs)

/-- Every matrix has a search, provided that the rule and the visitor answer. -/
theorem exists_searches {state : σ} (hr : ChoosesActive rule t state)
    (ha : Answers rule t state) (hv : Returns visit) (h : m.Under t cs) (visitor : ω) :
    ∃ left p', Searches rule state visit visitor t cs m left p' :=
  exists_explores hr ha hv { h with } ((Nat.zero_add _).trans_le (t.length_active_le cs))

/-- A search whose counters are words is a run. -/
theorem run_of_searches {state : σ} {visitor : ω} (h : m.Under t cs)
    (hs : Searches rule state visit visitor t cs m left p') (hnodes : p'.nodes < Word.modulus)
    (hpruned : p'.pruned < Word.modulus) :
    rule.run state visit visitor m = .ok (conclude left m.close p') := by
  rw [run_eq, hs.computes (sound_begin rule state visitor m) hnodes hpruned _ (length_active_lt h)]
  rfl

/-- A run is a derivation from its first position, or its fault is to blame on something else. -/
theorem run_follows {state : σ} (hr : ChoosesActive rule t state) (h : m.Under t cs)
    (visitor : ω) :
    (∀ i, rule.run state visit visitor m = .error i → Blame rule visit t state i) ∧
      ∀ out, rule.run state visit visitor m = .ok out → ∃ left p',
        Searches rule state visit visitor t cs m left p' ∧ out = conclude left m.close p' := by
  have hclose : m.close.Under t cs := { h with }
  have hf : Follows rule visit t (.position [] cs) m.close
      (rule.begin state visitor m.closingEvents) _ :=
    explore_follows hr hclose (sound_begin rule state visitor m)
      ((Nat.zero_add _).trans_le (t.length_active_le cs)) (length_active_lt h)
  rw [run_eq]
  cases hx : explore rule visit (m.columnCount + 1) [] m.close
      (rule.begin state visitor m.closingEvents) with
  | error i =>
    rw [hx] at hf
    constructor
    · rintro j ⟨⟩
      exact hf
    · rintro out ⟨⟩
  | ok e =>
    rcases e with ⟨left, m', p'⟩
    rw [hx] at hf
    rcases hf with ⟨rfl, hex⟩
    constructor
    · rintro j ⟨⟩
    · rintro out ⟨⟩
      exact ⟨left, p', hex, rfl⟩

/-- The tally of a run is the one of its search. -/
theorem tally_eq {state : σ} {visitor : ω} {out : Outcome L σ ω} {tally : Tally}
    (hr : ChoosesActive rule t state) (h : m.Under t cs)
    (hrun : rule.run state visit visitor m = .ok out) (hres : out.result = .ok tally)
    (hs : Searches rule state visit visitor t cs m left p') :
    tally.solutions = p'.solutions ∧ tally.nodes = p'.nodes ∧ tally.pruned = p'.pruned := by
  rcases (run_follows hr h visitor).2 out hrun with ⟨left', p'', hs', rfl⟩
  rcases hs.unique hs' with ⟨rfl, rfl⟩
  cases left with
  | error r => simp [conclude] at hres
  | ok signal =>
    obtain rfl : p'.tally _ = tally := Except.ok.inj hres
    exact ⟨rfl, rfl, rfl⟩

end DancingLinks.Search
