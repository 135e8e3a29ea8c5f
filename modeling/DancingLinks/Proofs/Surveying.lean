import DancingLinks.Proofs.Overrunning

/-! # What a search leaves out

A search that is not cut short finds exact covers only, each at most once, and misses none but those
behind a branch that it reports as abandoned. If the rule looks at nothing but the matrix, pruning
takes covers out of the list that is found without it and leaves the others in their order.
-/
namespace DancingLinks

open CoverMatrix

namespace Search

variable {L σ ω ω' : Type} {rule rule' : BranchingRule L σ} {visit : Visitor L ω}
  {visit' : Visitor L ω'} {t : Table} {m : CoverMatrix L} {p p' : Progress σ ω}
  {q q' : Progress σ ω'} {left left' : Except Rejection Signal} {task : Task} {cs : List Nat}
  {state : σ} {visitor : ω} {out : Outcome L σ ω} {tally : Tally}

theorem searches_of_run (hm : m.Under t cs) (hr : ChoosesActive rule t state)
    (hrun : rule.run state visit visitor m = .ok out) (hres : out.result = .ok tally)
    (hstop : tally.stopped = false) :
    ∃ p', Searches rule state visit visitor t cs m (.ok .proceed) p' ∧
      out = conclude (.ok .proceed) m.close p' ∧ tally = p'.tally false := by
  rcases (run_follows hr hm visitor).2 out hrun with ⟨left, p', hs, rfl⟩
  cases left with
  | error r => simp [conclude] at hres
  | ok signal =>
    obtain rfl : p'.tally (signal = .stop) = tally := Except.ok.inj hres
    cases signal with
    | stop => simp [Progress.tally] at hstop
    | proceed => exact ⟨p', hs, rfl, rfl⟩

theorem run_surveys (hm : m.Under t cs) (hr : ChoosesActive rule t state)
    (hrun : rule.run state visit visitor m = .ok out) (hres : out.result = .ok tally)
    (hstop : tally.stopped = false) :
    ∃ sols : List (Solution L), callAll visit sols visitor = .ok out.visitor ∧
      sols.map (·.rows) = found out.events ∧ tally.solutions = sols.length ∧
      tally.pruned = (dropped out.events).length ∧
      Surveys (found out.events) (dropped out.events) (t.IsCover cs) := by
  rcases searches_of_run hm hr hrun hres hstop with ⟨p', hs, rfl, rfl⟩
  rcases hs.visits with ⟨sols, hvisits⟩
  rcases hs.surveys hm.ordered rfl trivial with ⟨qs, ds, hf, hd, hsurvey⟩
  have hpath (xs : List (List Nat)) : xs.map ([] ++ ·) = xs := List.map_id' xs
  rw [found_begin, List.append_nil, Task.path, hpath] at hf
  rw [dropped_begin, List.append_nil, Task.path, hpath] at hd
  have hfound := hvisits.found
  rw [found_begin, List.append_nil, hf, List.reverse_inj] at hfound
  have hdropped := hs.length_dropped
  rw [dropped_begin, hd, List.length_reverse] at hdropped
  refine ⟨sols, hvisits.calls, ?_, ?_, ?_, ?_⟩
  · rw [found_conclude, hf, List.reverse_reverse, hfound]
  · exact hvisits.solutions.trans (Nat.zero_add _)
  · rw [dropped_conclude, hd, List.reverse_reverse]
    exact ((Nat.zero_add _).symm.trans hdropped.symm)
  · rwa [found_conclude, hf, List.reverse_reverse, dropped_conclude, hd, List.reverse_reverse]

/-- A run that neither prunes nor is stopped enumerates the covers, unless its calls cannot be
counted in words. -/
theorem run_completes (hm : m.Under t cs) (hp : rule.pruning = none)
    (hr : AlwaysChooses rule t state) (hv : AlwaysProceeds visit) (visitor : ω) :
    Overflows (rule.run state visit visitor m) ∨
    ∃ out, ∃ sols : List (Solution L), ∃ nodes, rule.run state visit visitor m = .ok out ∧
      callAll visit sols visitor = .ok out.visitor ∧ sols.map (·.rows) = found out.events ∧
      out.result = .ok ⟨sols.length, nodes, 0, false⟩ ∧
      Enumerates (found out.events) (t.IsCover cs) := by
  rcases exists_whole_search hm hr hv visitor with ⟨p', hs⟩
  rcases searches_enumerate hm hp hr hv hs with ⟨sols, hcalls, hfound, hsolutions, henum⟩
  rcases hs.run_or_overflows hm hp with hrun | hover
  · have hrows : found (conclude (.ok .proceed) m.close p').events = sols.map (·.rows) := by
      rw [found_conclude, hfound, List.reverse_reverse]
    refine Or.inr ⟨_, sols, p'.nodes, hrun, hcalls, hrows.symm, ?_, ?_⟩
    · simp [conclude, Progress.tally, hsolutions, pruned_of_searches hp hs]
    · rwa [hrows]
  · exact Or.inl hover

def MatrixOnly (rule : BranchingRule L σ) : Prop :=
  ∀ (m : CoverMatrix L) (s s' : σ),
    (rule.select m s).map Prod.fst = (rule.select m s').map Prod.fst

theorem MatrixOnly.choosesActive {s s' : σ} (h : MatrixOnly rule) (hr : ChoosesActive rule t s) :
    ChoosesActive rule t s' := by
  intro s₁ _ m cs c s₂ hm hcs hsel
  have hsame := h m s s₁
  rw [hsel] at hsame
  rcases hs : rule.select m s with f | ⟨choice, s₃⟩
  · rw [hs] at hsame
    cases hsame
  · rw [hs] at hsame
    obtain rfl : choice = .ok c := Except.ok.inj hsame
    exact hr s .start m cs c s₃ hm hcs hs

theorem MatrixOnly.alwaysChooses {s s' : σ} (h : MatrixOnly rule) (hr : AlwaysChooses rule t s) :
    AlwaysChooses rule t s' := by
  intro s₁ _ m cs hm hcs
  rcases hr s .start m cs hm hcs with ⟨c, s₂, active, hsel, hactive, hc⟩
  have hsame := h m s s₁
  rw [hsel] at hsame
  rcases hs : rule.select m s₁ with f | ⟨choice, s₃⟩
  · rw [hs] at hsame
    cases hsame
  · rw [hs] at hsame
    obtain rfl : .ok c = choice := Except.ok.inj hsame
    exact ⟨c, s₃, active, rfl, hactive, hc⟩

theorem MatrixOnly.choice_eq {s₁ s₂ s₁' s₂' : σ} {c c' : Nat} (h : MatrixOnly rule)
    (hc : rule.select m s₁ = .ok (.ok c, s₁')) (hc' : rule.select m s₂ = .ok (.ok c', s₂')) :
    c = c' := by
  have hsame := h m s₁ s₂
  rw [hc, hc'] at hsame
  exact Except.ok.inj (Except.ok.inj hsame)

/-- Of two searches whose rules choose alike and of which one does not prune, the other one finds a
part of what that one finds, in the same order. -/
theorem Explores.found_sublist (hsel : rule'.select = rule.select) (hmat : MatrixOnly rule)
    (h : Explores rule visit t task m p left p') (hl : left = .ok .proceed)
    (h' : Explores rule' visit' t task m q left' q') (hl' : left' = .ok .proceed)
    (hs : q.samples = none) :
    ∃ xs ys : List (List Nat), found p'.events = xs.reverse ++ found p.events ∧
      found q'.events = ys.reverse ++ found q.events ∧ xs.Sublist ys := by
  induction h generalizing q left' q' with
  | @solved path cs m p signal w _ hactive _ =>
    cases h' with
    | solved _ _ _ => exact ⟨[path], [path], rfl, rfl, .refl _⟩
    | rejected _ hactive' _ => exact absurd hactive hactive'
    | branched _ _ hc _ _ => simp [hactive] at hc
  | rejected _ _ _ => cases hl
  | branched _ hr hc hm _ ih =>
    cases h' with
    | solved _ hactive _ => simp [hactive] at hc
    | rejected _ _ _ => cases hl'
    | branched _ hr' _ hm' h' =>
      rw [hsel] at hr'
      obtain rfl := hmat.choice_eq hr hr'
      obtain rfl := Except.ok.inj (hm.symm.trans hm')
      rcases ih hl h' hl' hs with ⟨xs, ys, hfound⟩
      exact ⟨xs, ys, hfound⟩
  | searched hm ha _ ih =>
    rcases Progress.accept_eq ha with ⟨samples, rfl, -⟩
    cases h' with
    | searched hm' ha' h' =>
      rcases Progress.accept_eq ha' with ⟨samples', rfl, hsamples⟩
      obtain rfl := Except.ok.inj (hm.symm.trans hm')
      rcases ih hl h' hl' (hsamples hs).1 with ⟨xs, ys, hfound⟩
      exact ⟨xs, ys, hfound⟩
    | abandoned _ ha' =>
      rcases Progress.accept_eq ha' with ⟨samples', -, hsamples⟩
      exact Bool.noConfusion (hsamples hs).2
  | abandoned _ ha =>
    rcases Progress.accept_eq ha with ⟨samples, rfl, -⟩
    rcases h'.visits with ⟨sols, hsols⟩
    exact ⟨[], sols.map (·.rows), rfl, hsols.found, List.nil_sublist _⟩
  | exhausted =>
    cases h' with
    | exhausted => exact ⟨[], [], rfl, rfl, .refl _⟩
  | next _ _ ih ihrest =>
    cases h' with
    | next h' hrest' =>
      rcases ih rfl h' rfl hs with ⟨xs, ys, hfx, hfy, hsub⟩
      rcases ihrest hl hrest' hl' (h'.unpruned hs).1 with ⟨xs', ys', hfx', hfy', hsub'⟩
      refine ⟨xs ++ xs', ys ++ ys', ?_, ?_, hsub.append hsub'⟩
      · rw [hfx', hfx, List.reverse_append, List.append_assoc]
      · rw [hfy', hfy, List.reverse_append, List.append_assoc]
    | ended _ hne => exact absurd hl' hne
  | ended _ hne _ => exact absurd hl hne

end Search

def BranchingRule.unpruned {L σ : Type} (rule : BranchingRule L σ) : BranchingRule L σ where
  select := rule.select
  pruning := none

namespace Search

variable {L σ ω ω' : Type} {inner : BranchingRule L σ} {visit : Visitor L ω}
  {visit' : Visitor L ω'} {t : Table} {m : CoverMatrix L} {cs : List Nat} {state state' : σ}
  {visitor : ω} {visitor' : ω'} {out : Outcome L σ ω} {out' : Outcome L σ ω'}
  {tally tally' : Tally}

theorem sublist_of_runs {p : Pruning} (hm : m.Under t cs) (hr : ChoosesActive inner t state)
    (hmat : MatrixOnly inner) (hrun : (inner.withPruning p).run state visit visitor m = .ok out)
    (hres : out.result = .ok tally) (hstop : tally.stopped = false)
    (hrun' : inner.unpruned.run state' visit' visitor' m = .ok out')
    (hres' : out'.result = .ok tally') (hstop' : tally'.stopped = false) :
    ∃ sols : List (Solution L), callAll visit' sols visitor' = .ok out'.visitor ∧
      (found out.events).Sublist (sols.map (·.rows)) := by
  have hpruned : ChoosesActive (inner.withPruning p) t state := hr
  have hunpruned : ChoosesActive inner.unpruned t state' := hmat.choosesActive hr
  have halike : MatrixOnly (inner.withPruning p) := hmat
  have hselect : inner.unpruned.select = (inner.withPruning p).select := rfl
  rcases run_surveys hm hunpruned hrun' hres' hstop' with ⟨sols, hcalls, hrows, -⟩
  refine ⟨sols, hcalls, ?_⟩
  rw [hrows]
  rcases searches_of_run hm hpruned hrun hres hstop with ⟨p₁, hs, rfl, -⟩
  rcases searches_of_run hm hunpruned hrun' hres' hstop' with ⟨p₂, hs', rfl, -⟩
  rcases hs.found_sublist hselect halike rfl hs' rfl rfl with ⟨xs, ys, hf, hf', hsub⟩
  rw [found_begin, List.append_nil] at hf hf'
  rwa [found_conclude, found_conclude, hf, hf', List.reverse_reverse, List.reverse_reverse]

/-- Pruning only takes covers away, and only those behind a branch that it reports: what a run that
was not cut short visits are exact covers, none twice, and every other exact cover includes the rows
of an abandoned branch. With choices that depend on the matrix only, the covers come in the order in
which they come without pruning; and if the rule always chooses, there is a run without pruning
unless its calls cannot be counted in words. -/
theorem pruning_only_removes [DecidableEq L] {p : Pruning} (hm : m.Reached t cs)
    (hr : ChoosesActive inner t state)
    (hrun : (inner.withPruning p).run state visit visitor m = .ok out)
    (hres : out.result = .ok tally) (hstop : tally.stopped = false) :
    ∃ sols : List (Solution L), callAll visit sols visitor = .ok out.visitor ∧
      tally.solutions = sols.length ∧ tally.pruned = (dropped out.events).length ∧
      Surveys (sols.map (·.rows)) (dropped out.events) (t.IsCover cs) ∧
      (tally.pruned = 0 → Enumerates (sols.map (·.rows)) (t.IsCover cs)) ∧
      (MatrixOnly inner → ∀ {ω' : Type} {visit' : Visitor L ω'} (state' : σ) (visitor' : ω'),
        (∀ {out' : Outcome L σ ω'} {tally' : Tally},
          inner.unpruned.run state' visit' visitor' m = .ok out' → out'.result = .ok tally' →
          tally'.stopped = false → ∃ sols' : List (Solution L),
            callAll visit' sols' visitor' = .ok out'.visitor ∧
            (sols.map (·.rows)).Sublist (sols'.map (·.rows))) ∧
        (AlwaysChooses inner t state → AlwaysProceeds visit' →
          (∃ events, inner.unpruned.run state' visit' visitor' m = .error ⟨.overflow, events⟩ ∧
            Word.modulus ≤ calls events + 1) ∨
          ∃ out' tally', inner.unpruned.run state' visit' visitor' m = .ok out' ∧
            out'.result = .ok tally' ∧ tally'.stopped = false)) := by
  have hpruning : ChoosesActive (inner.withPruning p) t state := hr
  rcases run_surveys hm.under hpruning hrun hres hstop with
    ⟨sols, hcalls, hrows, hsolutions, hpruned, hsurvey⟩
  rw [← hrows] at hsurvey
  refine ⟨sols, hcalls, hsolutions, hpruned, hsurvey, ?_, ?_⟩
  · intro hzero
    have hnone : dropped out.events = [] :=
      List.eq_nil_of_length_eq_zero (hpruned.symm.trans hzero)
    rw [hnone] at hsurvey
    exact hsurvey.enumerates
  · intro hmat ω' visit' state' visitor'
    constructor
    · intro out' tally' hrun' hres' hstop'
      rw [hrows]
      exact sublist_of_runs hm.under hr hmat hrun hres hstop hrun' hres' hstop'
    · intro hchooses hproceeds
      have hunpruned : AlwaysChooses inner.unpruned t state' := hmat.alwaysChooses hchooses
      rcases run_completes hm.under rfl hunpruned hproceeds visitor' with
        h | ⟨out', sols', nodes, hrun', -, -, hres', -⟩
      · exact Or.inl h
      · exact Or.inr ⟨out', _, hrun', hres', rfl⟩

def crowdedTable : Table := ⟨[true, true], [[0], [0], [0, 1], [1]]⟩

def crowded : CoverMatrix Char where
  headers := #[⟨'a', true, 3⟩, ⟨'b', true, 2⟩]
  across := #[⟨2, 1⟩, ⟨0, 2⟩, ⟨1, 0⟩, ⟨3, 3⟩, ⟨4, 4⟩, ⟨6, 6⟩, ⟨5, 5⟩, ⟨7, 7⟩]
  down := #[⟨0, 0⟩, ⟨5, 3⟩, ⟨7, 6⟩, ⟨1, 4⟩, ⟨3, 5⟩, ⟨4, 1⟩, ⟨2, 7⟩, ⟨6, 2⟩]
  column := #[0, 0, 1, 0, 0, 0, 1, 1]
  row := #[none, none, none, some 0, some 1, some 2, some 2, some 3]
  rowHeads := #[3, 4, 5, 7]
  removedRows := 0
  isClosed := false

theorem reached_crowded : crowded.Reached crowdedTable [] := by
  have h₀ := @Built.ofColumns Char _ [('a', true), ('b', true)] _ rfl
  have h₁ := @Built.addRow Char _ _ _ _ [0] 0 h₀ rfl
  have h₂ := @Built.addRow Char _ _ _ _ [0] 1 h₁ rfl
  have h₃ := @Built.addRow Char _ _ _ _ [0, 1] 2 h₂ rfl
  exact ⟨crowded, [], @Built.addRow Char _ _ _ _ [1] 3 h₃ rfl, .nil, rfl⟩

/-- Abandons what hides more than three rows, from the third branch of a depth on. -/
def aboveThree : Pruning :=
  { minSamples := 2, statistics := ⟨fun _ _ => 3.0, fun removed _ => 3 < removed⟩ }

theorem pruning_only_removes_crowded : ∃ out out',
    (BranchingRule.leftmost.withPruning aboveThree).run () collect [] crowded = .ok out ∧
    out.result = .ok ⟨2, 5, 1, false⟩ ∧ out.visitor = [[0, 3], [1, 3]] ∧
    Surveys [[0, 3], [1, 3]] [[2]] (crowdedTable.IsCover []) ∧
    BranchingRule.leftmost.unpruned.run () collect [] crowded = .ok out' ∧
    out'.visitor = [[0, 3], [1, 3], [2]] ∧ out.visitor.Sublist out'.visitor := by
  have hrun : ∃ out,
      (BranchingRule.leftmost.withPruning aboveThree).run () collect [] crowded = .ok out ∧
      out.result = .ok ⟨2, 5, 1, false⟩ ∧ out.visitor = [[0, 3], [1, 3]] ∧
      dropped out.events = [[2]] := ⟨_, rfl, rfl, rfl, rfl⟩
  have hrun' : ∃ out, BranchingRule.leftmost.unpruned.run () collect [] crowded = .ok out ∧
      out.result = .ok ⟨3, 6, 0, false⟩ ∧ out.visitor = [[0, 3], [1, 3], [2]] :=
    ⟨_, rfl, rfl, rfl⟩
  rcases hrun with ⟨out, hrun, hres, hvisitor, hdropped⟩
  rcases hrun' with ⟨out', hrun', hres', hvisitor'⟩
  have hactive := (alwaysChooses_leftmost (L := Char) crowdedTable ()).choosesActive
  rcases pruning_only_removes reached_crowded hactive hrun hres rfl with
    ⟨sols, hcalls, -, -, hsurvey, -, hsame⟩
  have hrows : out.visitor = sols.map (·.rows) :=
    (Except.ok.inj ((callAll_collect sols []).symm.trans hcalls)).symm
  rcases (hsame (fun _ _ _ => rfl) () []).1 hrun' hres' rfl with ⟨sols', hcalls', hsub⟩
  have hrows' : out'.visitor = sols'.map (·.rows) :=
    (Except.ok.inj ((callAll_collect sols' []).symm.trans hcalls')).symm
  rw [← hrows, ← hrows'] at hsub
  rw [← hrows, hvisitor, hdropped] at hsurvey
  exact ⟨out, out', hrun, hres, hvisitor, hsurvey, hrun', hvisitor', hsub⟩

end Search

end DancingLinks
