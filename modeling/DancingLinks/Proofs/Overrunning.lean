import DancingLinks.Proofs.Keeping
import DancingLinks.Proofs.Enumerating

/-! # Searches that run out of words

Derivations count without bound, the program in words. It follows a derivation whose calls are words
to its end, and any other one up to the call that it cannot count.
-/
namespace DancingLinks.Search

open CoverMatrix

variable {L σ ω : Type} {rule : BranchingRule L σ} {visit : Visitor L ω} {t : Table}
  {m : CoverMatrix L} {p p' : Progress σ ω} {left : Except Rejection Signal} {cs : List Nat}

def Overflows {α : Type} (x : Except Interruption α) : Prop :=
  ∃ events, x = .error ⟨.overflow, events⟩ ∧ Word.modulus ≤ calls events + 1

theorem Overflows.bind {α β : Type} {x : Except Interruption α} (h : Overflows x)
    (k : α → Except Interruption β) : Overflows (x >>= k) := by
  obtain ⟨events, rfl, hcalls⟩ := h
  exact ⟨events, rfl, hcalls⟩

theorem overflows_enter (hp : p.Sound rule) (h : Word.modulus ≤ p.nodes + 1) (path : List Nat) :
    Overflows (p.enter path) :=
  ⟨p.events, Progress.enter_of_le h, hp.nodes ▸ h⟩

def Overruns (rule : BranchingRule L σ) (visit : Visitor L ω) (t : Table) :
    Task → CoverMatrix L → Progress σ ω → Prop
  | .position path cs, m, p => ∀ depth, (t.active cs).length < depth →
    Overflows (explore rule visit depth path m p)
  | .row path cs c r, m, p => m.Under t cs → c ∈ t.row r → (∀ d ∈ t.others r c, d ∉ cs) →
    ∀ depth, (t.active (cs ++ t.others r c)).length < depth →
    Overflows (tryRow (explore rule visit depth) path (t.entry r c) m p)
  | .rows path cs c rs, m, p => m.Under t cs → c < t.columnCount →
    (∃ above, t.rowsUnder cs c = above ++ rs) → (∀ r ∈ rs, ∀ d ∈ t.others r c, d ∉ cs) →
    ∀ depth fuel, (∀ r ∈ rs, (t.active (cs ++ t.others r c)).length < depth) →
    rs.length ≤ fuel →
    Overflows (branch (explore rule visit depth) path fuel (rs.head?.map (t.entry · c)) m p)

/-- The program follows a derivation up to the call that it cannot count. -/
theorem Explores.overruns {task : Task} (h : Explores rule visit t task m p left p')
    (hp : p.Sound rule) (hnodes : p.nodes < Word.modulus) (hover : Word.modulus ≤ p'.nodes)
    (hpruned : p'.pruned < Word.modulus) : Overruns rule visit t task m p := by
  induction h with
  | @solved path cs m p signal w _ _ _ =>
    intro depth hdepth
    obtain ⟨depth, rfl⟩ := Nat.exists_eq_add_of_lt hdepth
    exact (overflows_enter hp hover path).bind _
  | @rejected path cs m p r s _ _ _ =>
    intro depth hdepth
    obtain ⟨depth, rfl⟩ := Nat.exists_eq_add_of_lt hdepth
    exact (overflows_enter hp hover path).bind _
  | @branched path cs m m₁ p p' s c left hu hr hc hm hrows ih =>
    intro depth hdepth
    obtain ⟨depth, rfl⟩ := Nat.exists_eq_add_of_lt hdepth
    by_cases hcalls : p.nodes + 1 < Word.modulus
    case neg => exact (overflows_enter hp (not_lt.mp hcalls) path).bind _
    case pos =>
    have hcs : c ∉ cs := (Table.mem_active.mp hc).2
    have hct : c < t.columnCount := (Table.mem_active.mp hc).1.lt
    obtain ⟨m₂, hcov, -, h₁⟩ := hu.cover_step hct hcs
    obtain rfl : m₁ = m₂ := Except.ok.inj (hm.symm.trans hcov)
    rw [explore_branched hcalls hu hr hc hm h₁]
    apply Overflows.bind
    apply ih { hp.entered path with } hcalls hover hpruned h₁ hct
      ⟨[], Table.rowsUnder_concat_self hcs⟩ (fun r hr => hu.ordered.others_notMem hcs hr) _ _ _
      (h₁.length_rowsUnder_last_le hct hcs)
    intro r _
    have hlt := Table.length_active_others_lt hc r
    omega
  | @searched path cs m m₁ p p₁ p' c r left hm ha _ ih =>
    intro hu hc hcs depth hdepth
    obtain ⟨samples, rfl, -⟩ := Progress.accept_eq ha
    rw [tryRow_searched hu hc hm ha]
    exact (ih (hp.accept ha) hnodes hover hpruned depth hdepth).bind _
  | abandoned _ ha =>
    obtain ⟨samples, rfl, -⟩ := Progress.accept_eq ha
    exact absurd hnodes (not_lt.mpr hover)
  | exhausted => exact absurd hnodes (not_lt.mpr hover)
  | @next path cs rs m p p₁ p' c r left hrow hrest ih ihrest =>
    rintro hu hc ⟨above, habove⟩ hcs depth fuel hdepth hfuel
    cases fuel with
    | zero => simp at hfuel
    | succ fuel =>
      simp only [List.mem_cons, forall_eq_or_imp] at hcs hdepth
      have hcr : c ∈ t.row r := Table.mem_row_of_rowsUnder habove
      have hpruned₁ := hrest.counters_le.2.trans_lt hpruned
      by_cases hfirst : p₁.nodes < Word.modulus
      · have htry := hrow.computes hp hfirst hpruned₁ hu hcr hcs.1 depth hdepth.1
        rw [branch_next hu hc habove htry]
        exact ihrest (hrow.sound hp) hfirst hover hpruned hu hc
          ⟨above ++ [r], by rw [habove, List.append_cons]⟩ hcs.2 depth fuel hdepth.2
          (Nat.le_of_succ_le_succ hfuel)
      · exact (ih hp hnodes (not_lt.mp hfirst) hpruned₁ hu hcr hcs.1 depth hdepth.1).bind _
  | @ended path cs rs m p p' c r left hrow hl ih =>
    rintro hu hc ⟨above, habove⟩ hcs depth fuel hdepth hfuel
    cases fuel with
    | zero => simp at hfuel
    | succ fuel =>
      simp only [List.mem_cons, forall_eq_or_imp] at hcs hdepth
      have hcr : c ∈ t.row r := Table.mem_row_of_rowsUnder habove
      exact (ih hp hnodes hover hpruned hu hcr hcs.1 depth hdepth.1).bind _

section

variable {state : σ} {visitor : ω} (hs : Searches rule state visit visitor t cs m left p')
  (hm : m.Under t cs) (hp : rule.pruning = none)

include hs hm hp

theorem Explores.run_of_lt (hnodes : p'.nodes < Word.modulus) :
    rule.run state visit visitor m = .ok (conclude left m.close p') :=
  run_of_searches hm hs hnodes (by rw [pruned_of_searches hp hs]; decide)

theorem Explores.overflows_of_le (hnodes : Word.modulus ≤ p'.nodes) :
    Overflows (rule.run state visit visitor m) := by
  have hpruned : p'.pruned < Word.modulus := by
    rw [pruned_of_searches hp hs]
    decide
  have hzero : 0 < Word.modulus := by decide
  obtain ⟨events, hx, hcalls⟩ := hs.overruns (sound_begin rule state visitor m) hzero hnodes
    hpruned _ (length_active_lt hm)
  rw [run_eq, hx]
  exact ⟨events, rfl, hcalls⟩

/-- A run without pruning ends as its search does, or its calls cannot be counted in words. -/
theorem Explores.run_or_overflows :
    rule.run state visit visitor m = .ok (conclude left m.close p') ∨
      Overflows (rule.run state visit visitor m) :=
  (lt_or_ge p'.nodes Word.modulus).imp (hs.run_of_lt hm hp) (hs.overflows_of_le hm hp)

end

end DancingLinks.Search
