import DancingLinks.Proofs.Following

/-! # What every step of a search keeps

A property of the progress that every step keeps holds when the search ends, and the events of a
search that is interrupted have whatever property the events had all the time. Nothing is asked of
the matrix, of the rule or of the visitor.
-/
namespace DancingLinks.Search

variable {L σ ω α β : Type} {P : α → Prop} {Q : β → Prop} {E : List Event → Prop}
  {p q : Progress σ ω} {path : List Nat}

/-- What is true of an outcome: `P` of an answer, `E` of the events before a fault. -/
def Post (P : α → Prop) (E : List Event → Prop) : Except Interruption α → Prop
  | .ok a => P a
  | .error i => E i.events

theorem Post.bind {x : Except Interruption α} {k : α → Except Interruption β}
    (hx : Post P E x) (hk : ∀ a, P a → Post Q E (k a)) : Post Q E (x >>= k) := by
  cases x with
  | error i => exact hx
  | ok a => exact hk a hx

theorem Post.guard {x : Except Fault α} {k : α → Except Interruption β} (he : E p.events)
    (hk : ∀ a, x = .ok a → Post Q E (k a)) : Post Q E (p.guard x >>= k) := by
  cases x with
  | error f => exact he
  | ok a => exact hk a rfl

theorem enter_post (he : E p.events) : Post (fun q => p.enter path = .ok q) E (p.enter path) := by
  rw [Progress.enter]
  exact .guard he fun nodes hn => by simp only [hn]; rfl

theorem solve_post (he : E p.events) : Post (fun q => p.solve path = .ok q) E (p.solve path) := by
  rw [Progress.solve]
  exact .guard he fun solutions hs => by simp only [hs]; rfl

theorem abandon_post {row removed : Nat} (he : E p.events) :
    Post (fun q => p.abandon path row removed = .ok q) E (p.abandon path row removed) := by
  rw [Progress.abandon]
  exact .guard he fun pruned hp => by simp only [hp]; rfl

theorem accept_post {depth removed : Nat} (he : E p.events) :
    Post (fun a => p.accept depth removed = .ok a) E (p.accept depth removed) := by
  rw [Progress.accept]
  cases p.samples with
  | none => rfl
  | some samples => exact .guard he fun judged hj => by simp only [hj]; rfl

/-- The progress is `inside` the search between two steps, and `before` a position while it is on
the way to the one with that path; the events of both are `reported`. -/
structure Invariant (inside : Progress σ ω → Prop) (before : List Nat → Progress σ ω → Prop)
    (reported : List Event → Prop) : Prop where
  events : ∀ p, inside p → reported p.events
  events_before : ∀ path p, before path p → reported p.events
  enter : ∀ path p q, before path p → p.enter path = .ok q → inside q
  chosen : ∀ p s, inside p → inside (p.chosen s)
  branching : ∀ p path c size, inside p → inside (p.note (.branching path c size))
  solve : ∀ path p q, inside p → p.solve path = .ok q → inside q
  visited : ∀ p w, inside p → inside (p.visited w)
  accepted : ∀ path row removed p q, inside p → p.accept path.length removed = .ok (true, q) →
    before (path ++ [row]) q
  abandoned : ∀ path row removed p q q', inside p →
    p.accept path.length removed = .ok (false, q) → q.abandon path row removed = .ok q' → inside q'

namespace Invariant

variable {rule : BranchingRule L σ} {visit : Visitor L ω} {m : CoverMatrix L}
  {inside : Progress σ ω → Prop} {before : List Nat → Progress σ ω → Prop}
  {reported : List Event → Prop}

abbrev Exits (inside : Progress σ ω → Prop) (reported : List Event → Prop) :
    Except Interruption (Exit L σ ω) → Prop :=
  Post (fun e => inside e.2.2) reported

theorem present_exits (inv : Invariant inside before reported) (h : inside p) :
    Exits inside reported (present visit path m p) := by
  rw [present]
  apply Post.bind (solve_post (inv.events p h))
  intro q hq
  have hq := inv.solve path p q h hq
  apply Post.guard (inv.events q hq)
  rintro ⟨signal, w⟩ -
  exact inv.visited q w hq

theorem tryRow_exits {node : Nat}
    {descend : List Nat → CoverMatrix L → Progress σ ω → Except Interruption (Exit L σ ω)}
    (inv : Invariant inside before reported) (h : inside p)
    (hd : ∀ row m q, before (path ++ [row]) q →
      Exits inside reported (descend (path ++ [row]) m q)) :
    Exits inside reported (tryRow descend path node m p) := by
  have he := inv.events p h
  rw [tryRow]
  apply Post.guard he
  intro row _
  apply Post.guard he
  intro m₁ _
  apply Post.bind (accept_post he)
  rintro ⟨accepted, q⟩ hq
  have hleave (e : Exit L σ ω) (hin : inside e.2.2) : Exits inside reported
      (e.2.2.guard (e.2.1.uncoverRowOthers node) >>= fun m => pure (e.1, m, e.2.2)) :=
    Post.guard (inv.events _ hin) fun _ _ => hin
  cases accepted with
  | true =>
    apply Post.bind (hd row m₁ q (inv.accepted path row _ p q h hq))
    exact hleave
  | false =>
    obtain ⟨samples, hs, -⟩ := Progress.accept_eq hq
    have heq : reported q.events := by
      rw [hs]
      exact he
    simp only [Bool.false_eq_true, if_false, pure_bind]
    apply Post.bind (abandon_post heq)
    intro q' hq'
    exact hleave (.ok .proceed, m₁, q') (inv.abandoned path row _ p q q' h hq hq')

theorem branch_exits {fuel : Nat} {node : Option Nat}
    {descend : List Nat → CoverMatrix L → Progress σ ω → Except Interruption (Exit L σ ω)}
    (inv : Invariant inside before reported) (h : inside p)
    (hd : ∀ row m q, before (path ++ [row]) q →
      Exits inside reported (descend (path ++ [row]) m q)) :
    Exits inside reported (branch descend path fuel node m p) := by
  induction fuel generalizing node m p with
  | zero =>
    cases node with
    | none => exact h
    | some node => exact inv.events p h
  | succ fuel ih =>
    cases node with
    | none => exact h
    | some node =>
      rw [branch]
      apply Post.bind (inv.tryRow_exits h hd)
      rintro ⟨left, m₁, q⟩ hq
      cases left with
      | error r => exact hq
      | ok signal =>
        cases signal with
        | stop => exact hq
        | proceed => exact Post.guard (inv.events q hq) fun next _ => ih hq

/-- A search keeps what its steps keep. -/
theorem explore_exits {depth : Nat} (inv : Invariant inside before reported) (h : before path p) :
    Exits inside reported (explore rule visit depth path m p) := by
  induction depth generalizing path m p with
  | zero => exact inv.events_before path p h
  | succ depth ih =>
    rw [explore]
    apply Post.bind (enter_post (inv.events_before path p h))
    intro q hq
    have hq := inv.enter path p q h hq
    apply Post.guard (inv.events q hq)
    intro solved _
    cases solved with
    | true => exact inv.present_exits hq
    | false =>
      apply Post.guard (inv.events q hq)
      rintro ⟨choice, s⟩ -
      have hs := inv.chosen q s hq
      cases choice with
      | error r => exact hs
      | ok column =>
        have hb := inv.branching _ path column (m.size column) hs
        apply Post.guard (inv.events _ hb)
        intro m₁ _
        apply Post.guard (inv.events _ hb)
        intro first _
        apply Post.bind (inv.branch_exits hb fun row m q hq => ih hq)
        rintro ⟨left, m₂, q₂⟩ hq₂
        exact Post.guard (inv.events q₂ hq₂) fun _ _ => hq₂

end Invariant

def InWords (p : Progress σ ω) : Prop := p.nodes < Word.modulus ∧ p.pruned < Word.modulus

theorem lt_of_add {a b s : Nat} (h : Word.add a b = .ok s) : s < Word.modulus := by
  rw [Word.add, Word.check] at h
  split at h
  · rename_i hs
    cases h
    exact hs
  · cases h

theorem guard_eq_ok {x : Except Fault α} {k : α → Except Interruption β} {b : β}
    (h : (p.guard x >>= k) = .ok b) : ∃ a, x = .ok a ∧ k a = .ok b := by
  cases x with
  | error f => cases h
  | ok a => exact ⟨a, rfl, h⟩

theorem inWords_invariant :
    Invariant (InWords (σ := σ) (ω := ω)) (fun _ => InWords) fun _ => True where
  events _ _ := trivial
  events_before _ _ _ := trivial
  enter path p q h hq := by
    obtain ⟨nodes, hn, ⟨⟩⟩ := guard_eq_ok hq
    exact ⟨lt_of_add hn, h.2⟩
  chosen _ _ h := h
  branching _ _ _ _ h := h
  solve path p q h hq := by
    obtain ⟨solutions, -, ⟨⟩⟩ := guard_eq_ok hq
    exact h
  visited _ _ h := h
  accepted path row removed p q h hq := by
    obtain ⟨samples, rfl, -⟩ := Progress.accept_eq hq
    exact h
  abandoned path row removed p q q' h hq hq' := by
    obtain ⟨samples, rfl, -⟩ := Progress.accept_eq hq
    obtain ⟨pruned, hp, ⟨⟩⟩ := guard_eq_ok hq'
    exact ⟨h.1, lt_of_add hp⟩

variable {rule : BranchingRule L σ} {visit : Visitor L ω} {m : CoverMatrix L} {state : σ}
  {visitor : ω} {out : Outcome L σ ω} {tally : Tally}

/-- What a run keeps is true of the progress that it ends with. -/
theorem Invariant.exists_conclude {inside : Progress σ ω → Prop}
    {before : List Nat → Progress σ ω → Prop} {reported : List Event → Prop}
    (inv : Invariant inside before reported)
    (h : before [] (rule.begin state visitor m.closingEvents))
    (hrun : rule.run state visit visitor m = .ok out) :
    ∃ left m' p', inside p' ∧ out = conclude left m' p' := by
  have hex : Exits inside reported (explore rule visit (m.columnCount + 1) [] m.close
      (rule.begin state visitor m.closingEvents)) := inv.explore_exits h
  rw [run_eq] at hrun
  cases hx : explore rule visit (m.columnCount + 1) [] m.close
      (rule.begin state visitor m.closingEvents) with
  | error i =>
    rw [hx] at hrun
    cases hrun
  | ok e =>
    rw [hx] at hrun hex
    exact ⟨e.1, e.2.1, e.2.2, hex, (Except.ok.inj hrun).symm⟩

theorem tally_in_words (hrun : rule.run state visit visitor m = .ok out)
    (hres : out.result = .ok tally) :
    tally.nodes < Word.modulus ∧ tally.pruned < Word.modulus := by
  have hzero : 0 < Word.modulus := by decide
  have hbegin : InWords (rule.begin state visitor m.closingEvents) := ⟨hzero, hzero⟩
  obtain ⟨left, m', p', hp, rfl⟩ := inWords_invariant.exists_conclude hbegin hrun
  cases left with
  | error r => simp [conclude] at hres
  | ok signal =>
    obtain rfl : p'.tally (signal = .stop) = tally := Except.ok.inj hres
    exact hp

end DancingLinks.Search
