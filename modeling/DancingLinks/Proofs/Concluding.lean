import DancingLinks.Proofs.Following

/-! # Searches that conclude

The rules that come with the library choose an active column whenever there is one. A search by such
a rule, with a visitor that answers, ends with a tally unless a counter runs out of words; and no
rule at all is asked about a matrix whose primary columns are all covered.
-/
namespace DancingLinks

open CoverMatrix Search

variable {L : Type} {m : CoverMatrix L} {t : Table} {cs : List Nat}

namespace CoverMatrix

variable {κ : Type} [LT κ] [DecidableLT κ] {priority : Nat → Except Fault κ}

theorem foldl_better_mem (first : Ranked κ) (rest : List (Ranked κ)) :
    rest.foldl Ranked.better first ∈ first :: rest := by
  induction rest generalizing first with
  | nil => exact List.mem_cons_self
  | cons a rest ih =>
    have hstep : first.better a = a ∨ first.better a = first := by
      rw [Ranked.better]
      split
      · exact Or.inl rfl
      · exact Or.inr rfl
    rcases List.mem_cons.mp (ih (first.better a)) with h | h
    · rw [List.foldl_cons, h]
      rcases hstep with he | he <;> simp [he]
    · exact List.mem_cons_of_mem first (List.mem_cons_of_mem a h)

omit [LT κ] [DecidableLT κ] in
theorem exists_mapM_rank (m : CoverMatrix L) (h : ∀ c, ∃ k, priority c = .ok k)
    (columns : List Nat) : ∃ ranked, columns.mapM (m.rank priority) = .ok ranked ∧
      ranked.map (·.column) = columns := by
  induction columns with
  | nil => exact ⟨[], rfl, rfl⟩
  | cons c columns ih =>
    rcases h c with ⟨k, hk⟩
    rcases ih with ⟨ranked, hr, hcols⟩
    refine ⟨⟨c, m.size c, k⟩ :: ranked, ?_, by rw [List.map_cons, hcols]⟩
    rw [List.mapM_cons, hr, rank, hk]
    rfl

theorem Under.exists_minColumn (hm : m.Under t cs) (hs : t.active cs ≠ [])
    (h : ∀ c, ∃ k, priority c = .ok k) :
    ∃ c ∈ t.active cs, m.minColumn priority = .ok (.ok c) := by
  rcases exists_mapM_rank m h (t.active cs) with ⟨ranked, hr, hcols⟩
  cases ranked with
  | nil => exact absurd hcols.symm hs
  | cons first rest =>
    refine ⟨(rest.foldl Ranked.better first).column, ?_, ?_⟩
    · rw [← hcols]
      exact List.mem_map_of_mem (foldl_better_mem first rest)
    · simp only [minColumn, hm.activeColumns, hr, bind, Except.bind]
      rfl

end CoverMatrix

/-- The rules that come with the library: by size with a priority for every column, leftmost, by
lot, and pruning by any of them. -/
inductive Offered : {σ : Type} → BranchingRule L σ → Prop
  | fewestRows {κ : Type} [LT κ] [DecidableLT κ] {priority : Nat → Except Fault κ}
    (h : ∀ c, ∃ k, priority c = .ok k) : Offered (.fewestRows priority)
  | leftmost : Offered .leftmost
  | drawn {γ : Type} (d : Draw γ) : Offered (.drawn d)
  | withPruning {σ : Type} {inner : BranchingRule L σ} (h : Offered inner) (p : Pruning) :
    Offered (inner.withPruning p)

theorem alwaysChooses_fewestRows {κ : Type} [LT κ] [DecidableLT κ]
    {priority : Nat → Except Fault κ} (h : ∀ c, ∃ k, priority c = .ok k) (t : Table)
    (state : Unit) :
    AlwaysChooses (BranchingRule.fewestRows priority : BranchingRule L Unit) t state := by
  intro s _ m cs hm hs
  rcases hm.exists_minColumn hs h with ⟨c, hc, hmin⟩
  refine ⟨c, (), t.active cs, ?_, hm.activeColumns, hc⟩
  simp only [BranchingRule.fewestRows, hmin, bind, Except.bind]
  rfl

theorem Draw.alwaysChooses {γ : Type} (d : Draw γ) (t : Table) (state : γ) :
    AlwaysChooses (.drawn d : BranchingRule L γ) t state := by
  intro g _ m cs hm hs
  rcases d.exists_mem (t.active cs) g hs with ⟨c, hc, hd⟩
  have hpair : d.choose (t.active cs) g = (some c, (d.choose (t.active cs) g).2) :=
    Prod.ext hd rfl
  refine ⟨c, (d.choose (t.active cs) g).2, t.active cs, ?_, hm.activeColumns, hc⟩
  simp only [BranchingRule.drawn, drawnColumn, hm.activeColumns, bind, Except.bind]
  rw [hpair]
  rfl

theorem Offered.alwaysChooses {σ : Type} {rule : BranchingRule L σ} (h : Offered rule)
    (t : Table) (state : σ) : AlwaysChooses rule t state := by
  induction h with
  | fewestRows h => exact alwaysChooses_fewestRows h t state
  | leftmost => exact alwaysChooses_leftmost t state
  | drawn d => exact d.alwaysChooses t state
  | withPruning _ _ ih => exact ih state

namespace Search

variable {σ ω : Type} {rule rule' : BranchingRule L σ} {visit : Visitor L ω} {state : σ}
  {visitor : ω}

/-- Two rules give the same answers about matrices with a column left. -/
def AgreeUnsolved (rule rule' : BranchingRule L σ) : Prop :=
  ∀ (m : CoverMatrix L) (s : σ), m.isSolved = .ok false → rule.select m s = rule'.select m s

/-- What a rule answers when no column is left does not matter to a search. -/
theorem explore_congr (h : AgreeUnsolved rule rule') (depth : Nat) :
    explore rule visit depth = explore rule' visit depth := by
  induction depth with
  | zero => rfl
  | succ depth ih =>
    funext path m p
    rw [explore, explore, ih, searchFrom, searchFrom]
    cases p.enter path with
    | error i => rfl
    | ok p =>
      cases hs : m.isSolved with
      | error f => rfl
      | ok solved =>
        cases solved with
        | true => rfl
        | false =>
          have hsel := h m p.rule hs
          simp only [Progress.guard, bind, Except.bind, Bool.false_eq_true, if_false, hsel]

theorem run_congr (h : AgreeUnsolved rule rule') (hp : rule.pruning = rule'.pruning)
    (state : σ) (visit : Visitor L ω) (visitor : ω) (m : CoverMatrix L) :
    rule.run state visit visitor m = rule'.run state visit visitor m := by
  have hbegin : rule.begin state visitor m.closingEvents =
      rule'.begin state visitor m.closingEvents := by
    rw [BranchingRule.begin, BranchingRule.begin, hp]
  rw [run_eq, run_eq, hbegin, explore_congr h]

/-- The search ended with a tally, or its calls or the branches it abandoned could not be counted in
words any more. -/
def Concludes (x : Except Interruption (Outcome L σ ω)) : Prop :=
  (∃ out tally, x = .ok out ∧ out.result = .ok tally) ∨
    ∃ events, x = .error ⟨.overflow, events⟩ ∧
      (Word.modulus ≤ calls events + 1 ∨ Word.modulus ≤ abandonments events + 1)

/-- A rule that always chooses is never to blame for how a search ends. -/
theorem Explores.exists_signal {task : Task} {p p' : Progress σ ω}
    {left : Except Rejection Signal} (hr : AlwaysChooses rule t p.rule)
    (h : Explores rule visit t task m p left p') : ∃ signal, left = .ok signal := by
  induction h with
  | @solved path cs m p signal w _ _ _ => exact ⟨signal, rfl⟩
  | @rejected path cs m p r s hu hs hsel =>
    rcases hr p.rule .start m cs hu hs with ⟨c, s', active, hsel', -, -⟩
    rw [hsel'] at hsel
    cases hsel
  | branched hu hsel hc _ _ ih =>
    exact ih (hr.later (.asked .start hu (List.ne_nil_of_mem hc) hsel))
  | searched _ ha _ ih => exact ih (Progress.rule_accept ha ▸ hr)
  | abandoned _ _ => exact ⟨.proceed, rfl⟩
  | exhausted => exact ⟨.proceed, rfl⟩
  | next h _ _ ihrest => exact ihrest (hr.later h.reaches)
  | ended _ _ ih => exact ih hr

/-- With a rule that always chooses and a visitor that answers, nothing but a counter can end a
search early, and the one of abandoned branches only if the rule prunes. -/
theorem run_ends (hm : m.Under t cs) (hr : AlwaysChooses rule t state) (hv : Returns visit)
    (visitor : ω) :
    (∃ out tally, rule.run state visit visitor m = .ok out ∧ out.result = .ok tally) ∨
      ∃ events, rule.run state visit visitor m = .error ⟨.overflow, events⟩ ∧
        (Word.modulus ≤ calls events + 1 ∨
          rule.pruning ≠ none ∧ Word.modulus ≤ abandonments events + 1) := by
  rcases run_follows hr.choosesActive hm visitor with ⟨hblame, hok⟩
  cases hrun : rule.run state visit visitor m with
  | ok out =>
    rcases hok out hrun with ⟨left, p', hex, hconc⟩
    rcases hex.exists_signal hr with ⟨signal, rfl⟩
    exact Or.inl ⟨out, p'.tally (signal = .stop), rfl, by rw [hconc, conclude]⟩
  | error i =>
    cases hblame i hrun with
    | @rule m cs s f events hreach hu hs hf =>
      rcases hr s hreach m cs hu hs with ⟨c, s', active, hsel, -, -⟩
      rw [hsel] at hf
      cases hf
    | @visitor s w f events hf =>
      rcases hv s w with ⟨answer, ha⟩
      rw [ha] at hf
      cases hf
    | calls h => exact Or.inr ⟨_, rfl, Or.inl h⟩
    | abandonments hp h => exact Or.inr ⟨_, rfl, Or.inr ⟨hp, h⟩⟩

theorem run_concludes (hm : m.Under t cs) (hr : AlwaysChooses rule t state) (hv : Returns visit)
    (visitor : ω) : Concludes (rule.run state visit visitor m) := by
  rcases run_ends hm hr hv visitor with h | ⟨events, hrun, h⟩
  · exact Or.inl h
  · exact Or.inr ⟨events, hrun, h.imp_right And.right⟩

/-- A search by a rule of the library never fails: whatever was covered before, it ends with a tally
unless a counter runs out of words, and the rule is not asked when no column is left. -/
theorem offered_run_concludes [DecidableEq L] (hm : m.Reached t cs) (hr : Offered rule)
    (state : σ) :
    (∀ {ω : Type} (visit : Visitor L ω) (visitor : ω), Returns visit →
      Concludes (rule.run state visit visitor m)) ∧
    Concludes (rule.count state m) ∧ Concludes (rule.first state m) ∧
    ∀ rule' : BranchingRule L σ, AgreeUnsolved rule rule' → rule.pruning = rule'.pruning →
      ∀ {ω : Type} (visit : Visitor L ω) (visitor : ω),
        rule'.run state visit visitor m = rule.run state visit visitor m := by
  have hall {ω : Type} (visit : Visitor L ω) (visitor : ω) (hv : Returns visit) :
      Concludes (rule.run state visit visitor m) :=
    run_concludes hm.under (hr.alwaysChooses t state) hv visitor
  refine ⟨hall, hall _ _ fun _ _ => ⟨_, rfl⟩, hall _ _ fun _ _ => ⟨_, rfl⟩, ?_⟩
  intro rule' h hp ω visit visitor
  exact (run_congr h hp state visit visitor m).symm

theorem offered_run_concludes_sample : ∃ m : CoverMatrix Char, sample.cover 2 = .ok m ∧
    Concludes ((BranchingRule.fewestRowsLeftmost.withPruning {}).count () m) ∧
    Concludes ((BranchingRule.fewestRowsLeftmost.withPruning {}).first () m) := by
  have hcover : ∃ m, sample.cover 2 = .ok m := ⟨_, rfl⟩
  rcases hcover with ⟨m, hm⟩
  have hmoves : Nested sampleTable [] [.cover 2] [2] := .cover (by decide) (by decide) .nil
  have hrun : [Move.cover 2].foldlM Move.apply sample = .ok m := by
    rw [List.foldlM_cons, Move.apply, hm]
    rfl
  have hreached : m.Reached sampleTable [2] := ⟨sample, _, built_sample, hmoves, hrun⟩
  rcases offered_run_concludes hreached (.withPruning (.fewestRows fun _ => ⟨0, rfl⟩) {}) () with
    ⟨-, hcount, hfirst, -⟩
  exact ⟨m, hm, hcount, hfirst⟩

end Search

end DancingLinks
