import DancingLinks.Proofs.Surveying

/-! # The dialogue of a search

What a search learns from outside are the columns that the rule chooses and the signals of the
visitor. The turns of a search that runs to its end list them in order. A rule and a visitor that
give the same answers make the search go the same way, and the first of them that ends it makes it
stop right there.
-/
namespace DancingLinks.Search

open CoverMatrix

variable {L σ σ' ω ω' : Type} {rule : BranchingRule L σ} {rule' : BranchingRule L σ'}
  {visit : Visitor L ω} {visit' : Visitor L ω'} {s s₁ s₂ : σ} {w w₁ w₂ : ω}
  {s' s₁' s₂' : σ'} {w' w₁' w₂' : ω'}

/-- A question that let the search go on: a matrix of which the rule chose a column, or a cover
after which the visitor let the search proceed. -/
inductive Turn (L : Type) where
  | choice (m : CoverMatrix L) (column : Nat)
  | cover (s : Solution L)

variable {xs ys : List (Turn L)} {turn : Turn L}

def covers (turns : List (Turn L)) : List (Solution L) :=
  turns.filterMap fun
    | .cover s => some s
    | .choice _ _ => none

def choices (turns : List (Turn L)) : Nat :=
  turns.countP fun
    | .choice _ _ => true
    | .cover _ => false

@[simp] theorem covers_nil : covers ([] : List (Turn L)) = [] := rfl

@[simp] theorem covers_choice (m : CoverMatrix L) (c : Nat) :
    covers (.choice m c :: xs) = covers xs := rfl

@[simp] theorem covers_cover (x : Solution L) : covers (.cover x :: xs) = x :: covers xs := rfl

@[simp] theorem covers_append (xs ys : List (Turn L)) :
    covers (xs ++ ys) = covers xs ++ covers ys := List.filterMap_append

@[simp] theorem choices_nil : choices ([] : List (Turn L)) = 0 := rfl

@[simp] theorem choices_choice (m : CoverMatrix L) (c : Nat) :
    choices (.choice m c :: xs) = choices xs + 1 := by simp [choices]

@[simp] theorem choices_cover (x : Solution L) : choices (.cover x :: xs) = choices xs := by
  simp [choices]

@[simp] theorem choices_append (xs ys : List (Turn L)) :
    choices (xs ++ ys) = choices xs + choices ys := List.countP_append

/-- The rule and the visitor answer the turns in order, from their states before to those after. -/
inductive Converses (rule : BranchingRule L σ) (visit : Visitor L ω) :
    List (Turn L) → σ → ω → σ → ω → Prop
  | nil {s : σ} {w : ω} : Converses rule visit [] s w s w
  | choice {turns : List (Turn L)} {m : CoverMatrix L} {c : Nat} {s s₁ s₂ : σ} {w w₂ : ω}
    (h : rule.select m s = .ok (.ok c, s₁)) (hrest : Converses rule visit turns s₁ w s₂ w₂) :
    Converses rule visit (.choice m c :: turns) s w s₂ w₂
  | cover {turns : List (Turn L)} {x : Solution L} {s s₂ : σ} {w w₁ w₂ : ω}
    (h : visit x w = .ok (.proceed, w₁)) (hrest : Converses rule visit turns s w₁ s₂ w₂) :
    Converses rule visit (.cover x :: turns) s w s₂ w₂

theorem Converses.append (h : Converses rule visit xs s w s₁ w₁)
    (h' : Converses rule visit ys s₁ w₁ s₂ w₂) : Converses rule visit (xs ++ ys) s w s₂ w₂ := by
  induction h with
  | nil => exact h'
  | choice h _ ih => exact .choice h (ih h')
  | cover h _ ih => exact .cover h (ih h')

theorem Converses.of_append (h : Converses rule visit (xs ++ ys) s w s₂ w₂) :
    ∃ s₁ w₁, Converses rule visit xs s w s₁ w₁ ∧ Converses rule visit ys s₁ w₁ s₂ w₂ := by
  induction xs generalizing s w with
  | nil => exact ⟨s, w, .nil, h⟩
  | cons x xs ih =>
    cases h with
    | choice hx hrest =>
      obtain ⟨s₁, w₁, hxs, hys⟩ := ih hrest
      exact ⟨s₁, w₁, .choice hx hxs, hys⟩
    | cover hx hrest =>
      obtain ⟨s₁, w₁, hxs, hys⟩ := ih hrest
      exact ⟨s₁, w₁, .cover hx hxs, hys⟩

theorem callAll_append (xs ys : List (Solution L)) (w : ω) :
    callAll visit (xs ++ ys) w = callAll visit xs w >>= callAll visit ys :=
  List.foldlM_append

theorem Converses.callAll_covers (h : Converses rule visit xs s w s₁ w₁) :
    callAll visit (covers xs) w = .ok w₁ := by
  induction h with
  | nil => rfl
  | choice _ _ ih => exact ih
  | cover hx _ ih =>
    rw [covers_cover, callAll, List.foldlM_cons, hx]
    exact ih

inductive Breaks (rule : BranchingRule L σ) (visit : Visitor L ω) :
    Turn L → σ → ω → Except Rejection Signal → σ → ω → Prop
  | rejected {m : CoverMatrix L} {c : Nat} {s s₁ : σ} {w : ω} {r : Rejection}
    (h : rule.select m s = .ok (.error r, s₁)) :
    Breaks rule visit (.choice m c) s w (.error r) s₁ w
  | stopped {x : Solution L} {s : σ} {w w₁ : ω} (h : visit x w = .ok (.stop, w₁)) :
    Breaks rule visit (.cover x) s w (.ok .stop) s w₁

theorem Breaks.ne_proceed {left : Except Rejection Signal}
    (h : Breaks rule visit turn s w left s₁ w₁) : left ≠ .ok .proceed := by
  cases h <;> simp

/-- A cover at which the visitor stops the search is the last one that it is called with. -/
theorem Converses.callAll_break {left : Except Rejection Signal}
    (h : Converses rule visit xs s w s₁ w₁) (hb : Breaks rule visit turn s₁ w₁ left s₂ w₂) :
    callAll visit (covers (xs ++ [turn])) w = .ok w₂ := by
  rw [covers_append, callAll_append, h.callAll_covers]
  cases hb with
  | rejected _ => rfl
  | stopped hx => simp [callAll, hx, Except.map, bind, Except.bind, pure, Except.pure]

def Progress.given (p : Progress σ ω) (s : σ') (w : ω') : Progress σ' ω' :=
  ⟨s, w, p.samples, p.solutions, p.nodes, p.pruned, p.events⟩

variable {t : Table} {task : Task} {m : CoverMatrix L} {p p₁ p' : Progress σ ω}
  {left : Except Rejection Signal}

theorem Progress.accept_given {depth removed : Nat} {accepted : Bool}
    (h : p.accept depth removed = .ok (accepted, p₁)) (s' : σ') (w' : ω') :
    (p.given s' w').accept depth removed = .ok (accepted, p₁.given s' w') := by
  rw [Progress.accept] at h ⊢
  have hsame : (p.given s' w').samples = p.samples := rfl
  rw [hsame]
  cases hs : p.samples with
  | none =>
    rw [hs] at h
    cases h
    rfl
  | some samples =>
    simp only [hs] at h ⊢
    cases hj : samples.judge depth removed with
    | error f =>
      rw [hj] at h
      cases h
    | ok judged =>
      rw [hj] at h
      cases h
      rfl

/-- The covers of the turns were counted and reported between two progresses. -/
structure Records (turns : List (Turn L)) (p : Progress σ ω) (q : Progress σ' ω') : Prop where
  found : Search.found q.events = ((covers turns).map (·.rows)).reverse ++ Search.found p.events
  solutions : q.solutions = p.solutions + (covers turns).length

theorem Records.trans {q : Progress σ' ω'} (hx : Records xs p p₁) (hy : Records ys p₁ q) :
    Records (xs ++ ys) p q where
  found := by
    rw [hy.found, hx.found, covers_append, List.map_append, List.reverse_append,
      List.append_assoc]
  solutions := by
    rw [hy.solutions, hx.solutions, covers_append, List.length_append, Nat.add_assoc]

/-- A part of a search that is to run to its end at `p'` goes through the turns: to the end with
answers to all of them, and up to an answer that ends it. -/
structure Script (t : Table) (task : Task) (m : CoverMatrix L) (p : Progress σ ω)
    (turns : List (Turn L)) (p' : Progress σ ω) : Prop where
  whole : ∀ {σ' ω' : Type} {rule' : BranchingRule L σ'} {visit' : Visitor L ω'} {s' s₁' : σ'}
    {w' w₁' : ω'}, Converses rule' visit' turns s' w' s₁' w₁' →
    Explores rule' visit' t task m (p.given s' w') (.ok .proceed) (p'.given s₁' w₁')
  broken : ∀ {σ' ω' : Type} {rule' : BranchingRule L σ'} {visit' : Visitor L ω'}
    {s' s₁' s₂' : σ'} {w' w₁' w₂' : ω'} {done rest : List (Turn L)} {turn : Turn L}
    {left : Except Rejection Signal}, turns = done ++ turn :: rest →
    Converses rule' visit' done s' w' s₁' w₁' → Breaks rule' visit' turn s₁' w₁' left s₂' w₂' →
    ∃ q : Progress σ' ω', Explores rule' visit' t task m (p.given s' w') left q ∧
      q.rule = s₂' ∧ q.visitor = w₂' ∧ q.nodes ≤ p'.nodes ∧ q.pruned ≤ p'.pruned ∧
      Records (done ++ [turn]) p q

/-- Where a list is split at an element, a prefix of it ends before the element or behind it. -/
theorem append_eq_append_cons {α : Type} {xs ys done rest : List α} {x : α}
    (h : xs ++ ys = done ++ x :: rest) :
    (∃ zs, xs = done ++ x :: zs) ∨ ∃ zs, done = xs ++ zs ∧ ys = zs ++ x :: rest := by
  obtain ⟨zs, rfl, hys⟩ | ⟨zs, rfl, hrest⟩ := List.append_eq_append_iff.mp h
  · exact Or.inr ⟨zs, rfl, hys⟩
  · cases zs with
    | nil => exact Or.inr ⟨[], by simp, hrest.symm⟩
    | cons z zs =>
      obtain ⟨rfl, -⟩ := List.cons.inj hrest
      exact Or.inl ⟨zs, rfl⟩

namespace Script

variable {path cs rs : List Nat} {c r : Nat} {m₁ : CoverMatrix L}

theorem solved (hu : m.Under t cs) (hs : t.active cs = []) :
    Script t (.position path cs) m p [.cover ⟨m, path⟩]
      (((p.entered path).solved path).visited w) where
  whole h := by
    cases h with
    | cover hx hrest =>
      cases hrest
      exact .solved hu hs hx
  broken {_ _ _ _ _ _ _ _ _ _ done _ _ _} hturns hdone hb := by
    cases done with
    | cons _ done => simp at hturns
    | nil =>
      obtain ⟨rfl, -⟩ := List.cons.inj hturns
      cases hdone
      cases hb with
      | stopped hx => exact ⟨_, .solved hu hs hx, rfl, rfl, le_rfl, le_rfl, rfl, rfl⟩

theorem branched (hu : m.Under t cs) (hc : c ∈ t.active cs) (hm : m.cover c = .ok m₁)
    (h : Script t (.rows path (cs ++ [c]) c (t.rowsUnder cs c)) m₁
      (((p.entered path).chosen s).note (.branching path c (t.rowsUnder cs c).length)) xs p')
    (hle : p.nodes + 1 ≤ p'.nodes ∧ p.pruned ≤ p'.pruned) :
    Script t (.position path cs) m p (.choice m c :: xs) p' where
  whole hconv := by
    cases hconv with
    | choice hx hrest => exact .branched hu hx hc hm (h.whole hrest)
  broken {_ _ _ _ _ _ _ _ _ _ done _ _ _} hturns hdone hb := by
    cases done with
    | nil =>
      obtain ⟨rfl, -⟩ := List.cons.inj hturns
      cases hdone
      cases hb with
      | rejected hx =>
        exact ⟨_, .rejected hu (List.ne_nil_of_mem hc) hx, rfl, rfl, hle.1, hle.2, rfl, rfl⟩
    | cons x done =>
      obtain ⟨rfl, hxs⟩ := List.cons.inj hturns
      cases hdone with
      | choice hx hrest =>
        obtain ⟨q, hex, hrule, hvis, hn, hp, hr⟩ := h.broken hxs hrest hb
        exact ⟨q, .branched hu hx hc hm hex, hrule, hvis, hn, hp, hr.found, hr.solutions⟩

theorem searched (hm : m.coverRowOthers (t.entry r c) = .ok m₁)
    (ha : p.accept path.length m₁.removedRows = .ok (true, p₁))
    (h : Script t (.position (path ++ [r]) (cs ++ t.others r c)) m₁ p₁ xs p') :
    Script t (.row path cs c r) m p xs p' where
  whole hconv := .searched hm (Progress.accept_given ha _ _) (h.whole hconv)
  broken hturns hdone hb := by
    obtain ⟨q, hex, hrule, hvis, hn, hp, hr⟩ := h.broken hturns hdone hb
    obtain ⟨samples, rfl, -⟩ := Progress.accept_eq ha
    exact ⟨q, .searched hm (Progress.accept_given ha _ _) hex, hrule, hvis, hn, hp, hr.found,
      hr.solutions⟩

/-- Nothing is asked while a branch is abandoned or when the rows are exhausted. -/
theorem silent (h : ∀ {σ' ω' : Type} {rule' : BranchingRule L σ'} {visit' : Visitor L ω'}
    (s' : σ') (w' : ω'),
      Explores rule' visit' t task m (p.given s' w') (.ok .proceed) (p'.given s' w')) :
    Script t task m p [] p' where
  whole hconv := by
    cases hconv
    exact h _ _
  broken hturns := by simp at hturns

theorem next (hx : Script t (.row path cs c r) m p xs p₁)
    (hy : Script t (.rows path cs c rs) m p₁ ys p') (hr : Records xs p p₁)
    (hle : p₁.nodes ≤ p'.nodes ∧ p₁.pruned ≤ p'.pruned) :
    Script t (.rows path cs c (r :: rs)) m p (xs ++ ys) p' where
  whole hconv := by
    obtain ⟨s₁', w₁', hxs, hys⟩ := hconv.of_append
    exact .next (hx.whole hxs) (hy.whole hys)
  broken hturns hdone hb := by
    obtain ⟨zs, hxs⟩ | ⟨zs, rfl, hys⟩ := append_eq_append_cons hturns
    · obtain ⟨q, hex, hrule, hvis, hn, hp, hr⟩ := hx.broken hxs hdone hb
      exact ⟨q, .ended hex hb.ne_proceed, hrule, hvis, hn.trans hle.1, hp.trans hle.2, hr⟩
    · obtain ⟨s₁', w₁', hxs, hzs⟩ := hdone.of_append
      obtain ⟨q, hex, hrule, hvis, hn, hp, hr'⟩ := hy.broken hys hzs hb
      rw [List.append_assoc]
      exact ⟨q, .next (hx.whole hxs) hex, hrule, hvis, hn, hp, hr.trans hr'⟩

end Script

def branched (events : List Event) : List (Nat × Nat) :=
  events.filterMap fun
    | .branching _ column size => some (column, size)
    | _ => none

/-- A search that runs to its end has turns, which its own rule and visitor answer. -/
theorem Explores.exists_script (h : Explores rule visit t task m p left p')
    (hl : left = .ok .proceed) :
    ∃ turns, Converses rule visit turns p.rule p.visitor p'.rule p'.visitor ∧
      Script t task m p turns p' ∧ Records turns p p' ∧
      (Search.branched p'.events).length = (Search.branched p.events).length + choices turns := by
  induction h with
  | solved hu hs hv =>
    cases hl
    exact ⟨_, .cover hv .nil, .solved hu hs, ⟨rfl, rfl⟩, rfl⟩
  | rejected _ _ _ => cases hl
  | branched hu hr hc hm hrows ih =>
    obtain ⟨turns, hconv, hscript, hrep, hcount⟩ := ih hl
    refine ⟨_, .choice hr hconv, .branched hu hc hm hscript hrows.counters_le,
      ⟨hrep.found, hrep.solutions⟩, ?_⟩
    rw [hcount, choices_choice, Nat.add_comm (choices turns), ← Nat.add_assoc]
    rfl
  | searched hm ha _ ih =>
    obtain ⟨turns, hconv, hscript, hrep, hcount⟩ := ih hl
    have hrow := Script.searched hm ha hscript
    obtain ⟨samples, rfl, -⟩ := Progress.accept_eq ha
    exact ⟨turns, hconv, hrow, ⟨hrep.found, hrep.solutions⟩, hcount⟩
  | @abandoned path cs m m₁ p p₁ c r hm ha =>
    have hrow : Script t (.row path cs c r) m p [] (p₁.abandoned path r m₁.removedRows) :=
      .silent fun s' w' => .abandoned hm (Progress.accept_given ha s' w')
    obtain ⟨samples, rfl, -⟩ := Progress.accept_eq ha
    exact ⟨[], .nil, hrow, ⟨rfl, rfl⟩, rfl⟩
  | exhausted => exact ⟨[], .nil, .silent fun _ _ => .exhausted, ⟨rfl, rfl⟩, rfl⟩
  | next _ hrest ih ihrest =>
    obtain ⟨xs, hxs, hx, hrx, hcx⟩ := ih rfl
    obtain ⟨ys, hys, hy, hry, hcy⟩ := ihrest hl
    refine ⟨xs ++ ys, hxs.append hys, .next hx hy hrx hrest.counters_le, hrx.trans hry, ?_⟩
    rw [hcy, hcx, choices_append, Nat.add_assoc]
  | ended _ hne _ => exact absurd hl hne

end DancingLinks.Search
