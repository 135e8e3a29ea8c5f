import DancingLinks.Proofs.Following

/-! # A search leaves no trace

However a search ends, the matrix comes back as it was, closed, and a rejection is the one that the
rule answered last. What a search does depends on no event before it, so a second search of the same
matrix does all the same again.
-/
namespace DancingLinks.Search

open CoverMatrix

variable {L σ ω α β : Type} {es : List Event} {p : Progress σ ω} {path : List Nat}

def Progress.after (p : Progress σ ω) (es : List Event) : Progress σ ω :=
  { p with events := p.events ++ es }

/-- The outcome with the events `es` before its own, `f` adding them to an outcome without fault. -/
def later (es : List Event) (f : α → α) : Except Interruption α → Except Interruption α
  | .ok a => .ok (f a)
  | .error i => .error ⟨i.fault, i.events ++ es⟩

def exitAfter (es : List Event) (e : Exit L σ ω) : Exit L σ ω := (e.1, e.2.1, e.2.2.after es)

theorem later_bind {f : α → α} {f' : β → β} {x y : Except Interruption α}
    {k k' : α → Except Interruption β} (hx : y = later es f x)
    (hk : ∀ a, k' (f a) = later es f' (k a)) : (y >>= k') = later es f' (x >>= k) := by
  subst hx
  cases x with
  | error i => rfl
  | ok a => exact hk a

theorem guard_after {q : Progress σ ω} {f : β → β} {x : Except Fault α}
    {k k' : α → Except Interruption β} (hq : q = p.after es) (hk : ∀ a, k' a = later es f (k a)) :
    (q.guard x >>= k') = later es f (p.guard x >>= k) := by
  subst hq
  cases x with
  | error f => rfl
  | ok a => exact hk a

theorem enter_after : (p.after es).enter path = later es (·.after es) (p.enter path) :=
  guard_after rfl fun _ => rfl

theorem solve_after : (p.after es).solve path = later es (·.after es) (p.solve path) :=
  guard_after rfl fun _ => rfl

theorem abandon_after {row removed : Nat} : (p.after es).abandon path row removed =
    later es (·.after es) (p.abandon path row removed) :=
  guard_after rfl fun _ => rfl

theorem accept_after {depth removed : Nat} : (p.after es).accept depth removed =
    later es (fun a => (a.1, a.2.after es)) (p.accept depth removed) := by
  have hsame : (p.after es).samples = p.samples := rfl
  rw [Progress.accept, Progress.accept, hsame]
  cases p.samples with
  | none => rfl
  | some samples => exact guard_after rfl fun _ => rfl

variable {rule : BranchingRule L σ} {visit : Visitor L ω} {m : CoverMatrix L}

theorem present_after :
    present visit path m (p.after es) = later es (exitAfter es) (present visit path m p) := by
  rw [present, present, solve_after]
  apply later_bind rfl
  intro p
  exact guard_after rfl fun _ => rfl

variable {descend : List Nat → CoverMatrix L → Progress σ ω → Except Interruption (Exit L σ ω)}

theorem tryRow_after {node : Nat}
    (hd : ∀ path m p, descend path m (p.after es) = later es (exitAfter es) (descend path m p)) :
    tryRow descend path node m (p.after es) =
      later es (exitAfter es) (tryRow descend path node m p) := by
  rw [tryRow, tryRow]
  apply guard_after rfl
  intro row
  apply guard_after rfl
  intro m
  simp only [accept_after]
  apply later_bind rfl
  rintro ⟨accepted, p⟩
  cases accepted with
  | true =>
    simp only [if_true, hd]
    apply later_bind rfl
    rintro ⟨left, m, p⟩
    exact guard_after rfl fun _ => rfl
  | false =>
    simp only [Bool.false_eq_true, if_false, abandon_after]
    apply later_bind rfl
    intro p
    exact guard_after rfl fun _ => rfl

theorem branch_after {fuel : Nat} {node : Option Nat} {q : Progress σ ω} (hq : q = p.after es)
    (hd : ∀ path m p, descend path m (p.after es) = later es (exitAfter es) (descend path m p)) :
    branch descend path fuel node m q =
      later es (exitAfter es) (branch descend path fuel node m p) := by
  subst hq
  induction fuel generalizing node m p with
  | zero => cases node <;> rfl
  | succ fuel ih =>
    cases node with
    | none => rfl
    | some node =>
      rw [branch, branch, tryRow_after hd]
      apply later_bind rfl
      rintro ⟨left, m, p⟩
      cases left with
      | error r => rfl
      | ok signal =>
        cases signal with
        | stop => rfl
        | proceed => exact guard_after rfl fun _ => ih

/-- A search does the same whatever happened before it. -/
theorem explore_after {depth : Nat} : explore rule visit depth path m (p.after es) =
    later es (exitAfter es) (explore rule visit depth path m p) := by
  induction depth generalizing path m p with
  | zero => rfl
  | succ depth ih =>
    rw [explore, explore, searchFrom, searchFrom, enter_after]
    apply later_bind rfl
    intro p
    apply guard_after rfl
    intro solved
    cases solved with
    | true => exact present_after
    | false =>
      apply guard_after rfl
      rintro ⟨choice, s⟩
      cases choice with
      | error r => rfl
      | ok column =>
        dsimp only
        apply guard_after
        · rfl
        · intro m₁
          apply guard_after
          · rfl
          · intro first
            apply later_bind
            · exact branch_after rfl fun _ _ _ => ih
            · rintro ⟨left, m₂, p₂⟩
              exact guard_after rfl fun _ => rfl

variable {t : Table} {cs : List Nat} {state : σ} {visitor : ω} {out : Outcome L σ ω}

theorem begin_after (es : List Event) :
    rule.begin state visitor es = (rule.begin state visitor []).after es := by
  rw [BranchingRule.begin, BranchingRule.begin]
  cases rule.pruning <;> rfl

theorem conclude_after (left : Except Rejection Signal) (es : List Event) :
    conclude left m (p.after es) =
      { conclude left m p with events := es.reverse ++ (conclude left m p).events } := by
  cases left with
  | error r => simp [conclude, Progress.after]
  | ok signal => simp [conclude, Progress.after, Progress.note, Progress.tally]

/-- A run on the closed matrix does the same, except that it does not close the matrix. -/
theorem run_close (h : rule.run state visit visitor m = .ok out) :
    ∃ again, rule.run state visit visitor m.close = .ok again ∧
      out = { again with events := m.closingEvents ++ again.events } := by
  rw [run_eq, begin_after, explore_after] at h
  have hclosed : rule.run state visit visitor m.close =
      (explore rule visit (m.columnCount + 1) [] m.close (rule.begin state visitor [])).map
        fun e => conclude e.1 e.2.1 e.2.2 := run_eq rule state visit visitor m.close
  rw [hclosed]
  cases hx : explore rule visit (m.columnCount + 1) [] m.close (rule.begin state visitor []) with
  | error i =>
    rw [hx] at h
    cases h
  | ok e =>
    rw [hx] at h
    refine ⟨_, rfl, ?_⟩
    have hrev : m.closingEvents.reverse = m.closingEvents := by
      rw [closingEvents]
      split <;> rfl
    rw [← hrev, ← conclude_after]
    exact (Except.ok.inj h).symm

theorem Explores.rejection {task : Task} {p' : Progress σ ω} {left : Except Rejection Signal}
    {r : Rejection} (h : Explores rule visit t task m p left p') (hl : left = .error r) :
    ∃ m' s, rule.select m' s = .ok (.error r, p'.rule) := by
  induction h with
  | solved _ _ _ => cases hl
  | @rejected path cs m p r' s _ _ hr =>
    cases hl
    exact ⟨m, p.rule, hr⟩
  | branched _ _ _ _ _ ih => exact ih hl
  | searched _ _ _ ih => exact ih hl
  | abandoned _ _ => cases hl
  | exhausted => cases hl
  | next _ _ _ ih => exact ih hl
  | ended _ _ ih => exact ih hl

/-- However a search ends, the matrix is as before, closed; a rejection is the rule's own; and
running again on that matrix does the same again. -/
theorem run_restores [DecidableEq L] (hm : m.Reached t cs) (hr : ChoosesActive rule t state) :
    (∀ i, rule.run state visit visitor m = .error i → Blame rule visit t state i) ∧
      ∀ out, rule.run state visit visitor m = .ok out →
        out.matrix = m.close ∧
        (∀ r, out.result = .error r → ∃ m' s, rule.select m' s = .ok (.error r, out.rule)) ∧
        ∃ again, rule.run state visit visitor out.matrix = .ok again ∧
          again.matrix = out.matrix ∧ again.result = out.result ∧ again.rule = out.rule ∧
          again.visitor = out.visitor ∧ m.closingEvents ++ again.events = out.events := by
  rcases run_follows hr hm.under visitor with ⟨hblame, hok⟩
  refine ⟨hblame, fun out hout => ?_⟩
  rcases hok out hout with ⟨left, p', hex, hconc⟩
  have hmatrix : out.matrix = m.close := by rw [hconc, matrix_conclude]
  refine ⟨hmatrix, ?_, ?_⟩
  · intro r hres
    have hleft : left = .error r := by
      cases left with
      | error r' => simpa [hconc, conclude] using hres
      | ok signal => simp [hconc, conclude] at hres
    rw [hconc, rule_conclude]
    exact hex.rejection hleft
  · rcases run_close hout with ⟨again, hagain, hsame⟩
    rw [hmatrix]
    refine ⟨again, hagain, ?_, ?_, ?_, ?_, ?_⟩
    · rw [← hmatrix, hsame]
    all_goals rw [hsame]

theorem run_restores_sample : ∃ out again,
    BranchingRule.leftmost.run () (fun s _ => .ok (.stop, s.rows)) [] sample = .ok out ∧
    out.matrix = sample.close ∧
    BranchingRule.leftmost.run () (fun s _ => .ok (.stop, s.rows)) [] out.matrix = .ok again ∧
    again.result = out.result ∧ again.visitor = out.visitor := by
  have hrun : ∃ out, BranchingRule.leftmost.run () (fun s _ => .ok (.stop, s.rows)) [] sample =
      .ok out := ⟨_, rfl⟩
  rcases hrun with ⟨out, hrun⟩
  rcases (run_restores reached_sample (alwaysChooses_leftmost sampleTable ()).choosesActive).2 out
    hrun with ⟨hmatrix, -, again, hagain, -, hresult, -, hvisitor, -⟩
  exact ⟨out, again, hrun, hmatrix, hagain, hresult, hvisitor⟩

end DancingLinks.Search
