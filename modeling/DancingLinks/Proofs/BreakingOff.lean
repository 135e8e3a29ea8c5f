import DancingLinks.Proofs.Keeping
import DancingLinks.Proofs.Surveying

/-! # Searches that break off

A search with a fault does, up to there, what a search without faults does: the one with a rule that
rejects and a visitor that stops where they had a fault, counted without bound. So what is true of
the events of every derivation and of all their beginnings is true of every run, however it ends.
-/
namespace DancingLinks

open CoverMatrix

/-- The rule that rejects where another one has a fault. -/
def BranchingRule.spared {L σ : Type} (rule : BranchingRule L σ) : BranchingRule L σ where
  select m s :=
    match rule.select m s with
    | .ok answer => .ok answer
    | .error _ => .ok (.error .noColumnLeft, s)
  pruning := rule.pruning

namespace Search

variable {L σ ω : Type} {rule : BranchingRule L σ} {visit : Visitor L ω} {t : Table} {task : Task}
  {m : CoverMatrix L} {p p' : Progress σ ω} {left : Except Rejection Signal} {path cs : List Nat}
  {c : Nat} {s s' : σ} {w : ω}

/-- The visitor that stops the search where another one has a fault. -/
def spare (visit : Visitor L ω) : Visitor L ω := fun x w =>
  match visit x w with
  | .ok answer => .ok answer
  | .error _ => .ok (.stop, w)

theorem select_of_spared (h : rule.spared.select m s = .ok (.ok c, s')) :
    rule.select m s = .ok (.ok c, s') := by
  cases hsel : rule.select m s with
  | ok answer => simpa [BranchingRule.spared, hsel] using h
  | error f => simp [BranchingRule.spared, hsel] at h

theorem Reaches.of_spared (h : Reaches rule.spared.select t s s') : Reaches rule.select t s s' := by
  induction h with
  | start => exact .start
  | @asked m cs s₁ s₂ choice _ hm hs hsel ih =>
    cases hasked : rule.select m s₁ with
    | ok answer =>
      obtain rfl : answer = (choice, s₂) := by simpa [BranchingRule.spared, hasked] using hsel
      exact .asked ih hm hs hasked
    | error f =>
      obtain ⟨-, rfl⟩ : .error .noColumnLeft = choice ∧ s₁ = s₂ := by
        simpa [BranchingRule.spared, hasked] using hsel
      exact ih

theorem ChoosesActive.spared (h : ChoosesActive rule t s) : ChoosesActive rule.spared t s :=
  fun s₁ hs₁ m cs c s' hm hs hsel => h s₁ hs₁.of_spared m cs c s' hm hs (select_of_spared hsel)

theorem answers_spared (rule : BranchingRule L σ) (t : Table) (s : σ) :
    Answers rule.spared t s := by
  intro s _ m cs _ _
  cases hsel : rule.select m s <;> simp [BranchingRule.spared, hsel]

theorem returns_spare (visit : Visitor L ω) : Returns (spare visit) := by
  intro x w
  cases hv : visit x w <;> simp [spare, hv]

theorem Explores.events_suffix (h : Explores rule visit t task m p left p') :
    p.events <:+ p'.events := by
  induction h with
  | solved _ _ _ => exact (List.suffix_cons _ _).trans (List.suffix_cons _ _)
  | rejected _ _ _ => exact List.suffix_cons _ _
  | branched _ _ _ _ _ ih => exact ((List.suffix_cons _ _).trans (List.suffix_cons _ _)).trans ih
  | searched _ ha _ ih =>
    obtain ⟨samples, rfl, -⟩ := Progress.accept_eq ha
    exact ih
  | abandoned _ ha =>
    obtain ⟨samples, rfl, -⟩ := Progress.accept_eq ha
    exact List.suffix_cons _ _
  | exhausted => exact List.suffix_rfl
  | next _ _ ih ihrest => exact ih.trans ihrest
  | ended _ _ ih => exact ih

/-- A part of the program ends as the derivation does, or its events are the first ones of those of
the derivation. -/
abbrev EndsWithin (m : CoverMatrix L) (left : Except Rejection Signal) (p' : Progress σ ω) :
    Except Interruption (Exit L σ ω) → Prop :=
  Post (· = (left, m, p')) (· <:+ p'.events)

/-- How the program gets on with a part of a search with the given outcome. -/
def Attempts (rule : BranchingRule L σ) (visit : Visitor L ω) (t : Table) :
    Task → CoverMatrix L → Progress σ ω → Except Rejection Signal → Progress σ ω → Prop
  | .position path cs, m, p, left, p' => ∀ depth, (t.active cs).length < depth →
    EndsWithin m left p' (explore rule visit depth path m p)
  | .row path cs c r, m, p, left, p' => m.Under t cs → c ∈ t.row r →
    (∀ d ∈ t.others r c, d ∉ cs) →
    ∀ depth, (t.active (cs ++ t.others r c)).length < depth →
    EndsWithin m left p' (tryRow (explore rule visit depth) path (t.entry r c) m p)
  | .rows path cs c rs, m, p, left, p' => m.Under t cs → c < t.columnCount →
    (∃ above, t.rowsUnder cs c = above ++ rs) → (∀ r ∈ rs, ∀ d ∈ t.others r c, d ∉ cs) →
    ∀ depth fuel, (∀ r ∈ rs, (t.active (cs ++ t.others r c)).length < depth) →
    rs.length ≤ fuel →
    EndsWithin m left p'
      (branch (explore rule visit depth) path fuel (rs.head?.map (t.entry · c)) m p)

theorem explore_uncounted {depth : Nat} (h : Word.modulus ≤ p.nodes + 1) :
    explore rule visit (depth + 1) path m p = .error ⟨.overflow, p.events⟩ := by
  simp only [explore, searchFrom, Progress.enter_of_le h, bind, Except.bind]

theorem present_endsWithin {signal : Signal} (hp : p.Sound rule)
    (hcalls : p.nodes + 1 < Word.modulus) (hv : spare visit ⟨m, path⟩ p.visitor = .ok (signal, w)) :
    EndsWithin m (.ok signal) (((p.entered path).solved path).visited w)
      (present visit path m (p.entered path)) := by
  have hsol : (p.entered path).solutions + 1 < Word.modulus :=
    (Nat.succ_le_succ hp.solutions).trans_lt hcalls
  have hsame : ((p.entered path).solved path).visitor = p.visitor := rfl
  simp only [present, Progress.solve_of_lt hsol, hsame, bind, Except.bind]
  cases hvis : visit ⟨m, path⟩ p.visitor with
  | error f => exact List.suffix_rfl
  | ok answer =>
    obtain rfl : answer = (signal, w) := by simpa [spare, hvis] using hv
    rfl

section

variable {descend : List Nat → CoverMatrix L → Progress σ ω → Except Interruption (Exit L σ ω)}
  {fuel c r : Nat} {rs : List Nat} {p₁ : Progress σ ω}

theorem branch_next_endsWithin {above : List Nat} (hu : m.Under t cs) (hc : c < t.columnCount)
    (hrows : t.rowsUnder cs c = above ++ r :: rs)
    (htry : EndsWithin m (.ok .proceed) p₁ (tryRow descend path (t.entry r c) m p))
    (hlater : p₁.events <:+ p'.events)
    (hrest : EndsWithin m left p' (branch descend path fuel (rs.head?.map (t.entry · c)) m p₁)) :
    EndsWithin m left p'
      (branch descend path (fuel + 1) ((r :: rs).head?.map (t.entry · c)) m p) := by
  cases hx : tryRow descend path (t.entry r c) m p with
  | error i =>
    rw [hx] at htry
    simp only [List.head?_cons, Option.map_some, branch, hx, bind, Except.bind]
    exact List.IsSuffix.trans htry hlater
  | ok e =>
    obtain rfl : e = (.ok .proceed, m, p₁) := by rwa [hx] at htry
    rwa [branch_next hu hc hrows hx]

theorem branch_ended_endsWithin (hl : left ≠ .ok .proceed)
    (htry : EndsWithin m left p' (tryRow descend path (t.entry r c) m p)) :
    EndsWithin m left p'
      (branch descend path (fuel + 1) ((r :: rs).head?.map (t.entry · c)) m p) := by
  cases hx : tryRow descend path (t.entry r c) m p with
  | error i =>
    rw [hx] at htry
    simp only [List.head?_cons, Option.map_some, branch, hx, bind, Except.bind]
    exact htry
  | ok e =>
    obtain rfl : e = (left, m, p') := by rwa [hx] at htry
    rw [branch_ended hl hx]
    rfl

end

/-- The program ends as a derivation without its faults does, or breaks off before. -/
theorem Explores.attempts (h : Explores rule.spared (spare visit) t task m p left p')
    (hp : p.Sound rule.spared) : Attempts rule visit t task m p left p' := by
  induction h with
  | @solved path cs m p signal w hu hs hv =>
    intro depth hdepth
    obtain ⟨depth, rfl⟩ := Nat.exists_eq_add_of_lt hdepth
    by_cases hcalls : p.nodes + 1 < Word.modulus
    · rw [explore_solved hcalls hu hs]
      exact present_endsWithin hp hcalls hv
    · rw [explore_uncounted (not_lt.mp hcalls)]
      exact (List.suffix_cons _ _).trans (List.suffix_cons _ _)
  | @rejected path cs m p r s hu hs hr =>
    intro depth hdepth
    obtain ⟨depth, rfl⟩ := Nat.exists_eq_add_of_lt hdepth
    by_cases hcalls : p.nodes + 1 < Word.modulus
    · cases hsel : rule.select m p.rule with
      | error f =>
        rw [explore_faulty hcalls hu hs hsel]
        exact List.suffix_rfl
      | ok answer =>
        obtain rfl : answer = (.error r, s) := by simpa [BranchingRule.spared, hsel] using hr
        rw [explore_rejected hcalls hu hs hsel]
        rfl
    · rw [explore_uncounted (not_lt.mp hcalls)]
      exact List.suffix_cons _ _
  | @branched path cs m m₁ p p' s c left hu hr hc hm hrows ih =>
    intro depth hdepth
    obtain ⟨depth, rfl⟩ := Nat.exists_eq_add_of_lt hdepth
    by_cases hcalls : p.nodes + 1 < Word.modulus
    · have hcs : c ∉ cs := (Table.mem_active.mp hc).2
      have hct : c < t.columnCount := (Table.mem_active.mp hc).1.lt
      obtain ⟨m₂, hcov, hunc, h₁⟩ := hu.cover_step hct hcs
      obtain rfl : m₁ = m₂ := Except.ok.inj (hm.symm.trans hcov)
      have hdepth' : ∀ r ∈ t.rowsUnder cs c,
          (t.active (cs ++ [c] ++ t.others r c)).length < (t.active cs).length + depth := by
        intro r _
        have hlt := Table.length_active_others_lt hc r
        omega
      have hbranch := ih { hp.entered path with } h₁ hct ⟨[], Table.rowsUnder_concat_self hcs⟩
        (fun r hr => hu.ordered.others_notMem hcs hr) _ _ hdepth'
        (h₁.length_rowsUnder_last_le hct hcs)
      rw [explore_branched hcalls hu (select_of_spared hr) hc hcov h₁]
      apply Post.bind hbranch
      rintro _ rfl
      simp only [hunc, Progress.guard, bind, Except.bind]
      rfl
    · rw [explore_uncounted (not_lt.mp hcalls)]
      exact (Explores.branched hu hr hc hm hrows).events_suffix
  | @searched path cs m m₁ p p₁ p' c r left hm ha _ ih =>
    intro hu hc hcs depth hdepth
    obtain ⟨m₂, hcov, hunc, -, h₁⟩ := hu.others_step hc hcs
    obtain rfl : m₁ = m₂ := Except.ok.inj (hm.symm.trans hcov)
    rw [tryRow_searched hu hc hcov ha]
    apply Post.bind (ih (hp.accept ha) depth hdepth)
    rintro _ rfl
    simp only [hunc, Progress.guard, bind, Except.bind]
    rfl
  | @abandoned path cs m m₁ p p₁ c r hm ha =>
    intro hu hc hcs depth _
    obtain ⟨m₂, hcov, hunc, -, h₁⟩ := hu.others_step hc hcs
    obtain rfl : m₁ = m₂ := Except.ok.inj (hm.symm.trans hcov)
    rw [tryRow_abandoned hu hc hcov ha]
    by_cases hover : p₁.pruned + 1 < Word.modulus
    · simp only [Progress.abandon_of_lt hover, hunc, Progress.guard, bind, Except.bind]
      rfl
    · rw [Progress.abandon_of_le (not_lt.mp hover)]
      exact List.suffix_cons _ _
  | exhausted =>
    intro _ _ _ _ depth fuel _ _
    cases fuel <;> rfl
  | @next path cs rs m p p₁ p' c r left hrow hrest ih ihrest =>
    rintro hu hc ⟨above, habove⟩ hcs depth fuel hdepth hfuel
    cases fuel with
    | zero => simp at hfuel
    | succ fuel =>
      simp only [List.mem_cons, forall_eq_or_imp] at hcs hdepth
      have hcr : c ∈ t.row r := Table.mem_row_of_rowsUnder habove
      apply branch_next_endsWithin hu hc habove (ih hp hu hcr hcs.1 depth hdepth.1)
        hrest.events_suffix
      exact ihrest (hrow.sound hp) hu hc ⟨above ++ [r], by rw [habove, List.append_cons]⟩ hcs.2
        depth fuel hdepth.2 (Nat.le_of_succ_le_succ hfuel)
  | @ended path cs rs m p p' c r left hrow hl ih =>
    rintro hu hc ⟨above, habove⟩ hcs depth fuel hdepth hfuel
    cases fuel with
    | zero => simp at hfuel
    | succ fuel =>
      simp only [List.mem_cons, forall_eq_or_imp] at hcs hdepth
      have hcr : c ∈ t.row r := Table.mem_row_of_rowsUnder habove
      exact branch_ended_endsWithin hl (ih hp hu hcr hcs.1 depth hdepth.1)

/-- What is picked from the events of a run, however it ends, is the beginning of what is picked
from those of a search without its faults. -/
theorem exists_searches_spared (hm : m.Under t cs) (hr : ChoosesActive rule t s)
    (visit : Visitor L ω) (visitor : ω) :
    ∃ left p', Searches rule.spared s (spare visit) visitor t cs m left p' ∧
      ∀ {α : Type} (pick : Event → Option α), (∀ tally, pick (.finished tally) = none) →
        (happened (rule.run s visit visitor m)).filterMap pick <+:
          (p'.events.filterMap pick).reverse := by
  obtain ⟨left, p', hs⟩ := exists_searches hr.spared (answers_spared rule t s) (returns_spare visit)
    hm visitor
  have hends : EndsWithin m.close left p' (explore rule visit (m.columnCount + 1) [] m.close
      (rule.begin s visitor m.closingEvents)) :=
    hs.attempts (sound_begin rule.spared s visitor m) _ (length_active_lt hm)
  refine ⟨left, p', hs, fun pick hpick => ?_⟩
  rw [run_eq]
  cases hx : explore rule visit (m.columnCount + 1) [] m.close
      (rule.begin s visitor m.closingEvents) with
  | error i =>
    rw [hx] at hends
    have hsuffix : i.events <:+ p'.events := hends
    rw [Except.map, happened, List.filterMap_reverse, List.reverse_prefix]
    exact hsuffix.filterMap pick
  | ok e =>
    obtain rfl : e = (left, m.close, p') := by rwa [hx] at hends
    rw [Except.map, happened, filterMap_conclude hpick]

end Search

end DancingLinks
