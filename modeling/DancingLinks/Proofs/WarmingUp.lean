import DancingLinks.Proofs.Keeping
import DancingLinks.Proofs.Surveying

/-! # Pruning before it has samples

A depth abandons nothing before its window has warmed up. The window of a depth is never longer than
the list of branches tried there, so the first of them are searched; and a window that is too short
to warm up is as good as none, so that a search with it goes as it goes without pruning.
-/
namespace DancingLinks

open CoverMatrix

namespace Pruning

variable {p : Pruning} {window : List Nat} {removed : Nat}

theorem length_slide_le (p : Pruning) (window : List Nat) (removed : Nat) :
    (p.slide window removed).length ≤ window.length + 1 := by
  rw [slide, List.length_append, List.length_singleton]
  split
  · rw [List.length_drop]
    omega
  · exact le_rfl

theorem length_slide_le_sampleCap (hcap : p.sampleCap ≠ 0) (h : window.length ≤ p.sampleCap) :
    (p.slide window removed).length ≤ p.sampleCap := by
  rw [slide, List.length_append, List.length_singleton]
  split
  · rw [List.length_drop]
    omega
  · omega

theorem exceeds_of_lt (h : window.length < p.warmUp) : p.exceeds window removed = false := by
  rw [exceeds, bound?, if_pos h]

theorem warmUp_le_of_exceeds (h : p.exceeds window removed = true) :
    p.warmUp ≤ window.length := by
  by_contra hlt
  rw [exceeds_of_lt (not_le.mp hlt)] at h
  cases h

end Pruning

namespace DepthSamples

variable {s s' : DepthSamples} {depth removed : Nat} {abandoned : Bool}

theorem pruning_record (h : s.record depth removed = .ok s') : s'.pruning = s.pruning := by
  rw [record] at h
  split at h
  · cases h
    rfl
  · cases hw : Word.add depth 1 with
    | error f =>
      rw [hw] at h
      cases h
    | ok depths =>
      rw [hw] at h
      cases h
      rfl

theorem judge_eq (h : s.judge depth removed = .ok (abandoned, s')) :
    s.pruning.exceeds (s.window depth) removed = abandoned ∧ s.record depth removed = .ok s' := by
  rw [judge] at h
  cases hr : s.record depth removed with
  | error f =>
    rw [hr] at h
    cases h
  | ok t =>
    rw [hr] at h
    cases h
    exact ⟨rfl, rfl⟩

theorem length_window_record_le (h : s.record depth removed = .ok s') (d : Nat) :
    (s'.window d).length ≤ (s.window d).length + if d = depth then 1 else 0 := by
  rw [window_record h d]
  by_cases hd : d = depth
  · subst hd
    simp only [true_and, if_true]
    split
    · exact s.pruning.length_slide_le _ _
    · exact Nat.le_succ _
  · simp [hd]

theorem length_window_record_le_sampleCap (h : s.record depth removed = .ok s')
    (hs : ∀ d, (s.window d).length ≤ s.pruning.sampleCap) (d : Nat) :
    (s'.window d).length ≤ s.pruning.sampleCap := by
  rw [window_record h d]
  split
  case isTrue hd => exact Pruning.length_slide_le_sampleCap hd.2 (hs depth)
  case isFalse => exact hs d

end DepthSamples

namespace Search

variable {L σ ω : Type} {rule inner : BranchingRule L σ} {visit : Visitor L ω} {t : Table}
  {m : CoverMatrix L} {p p₁ q : Progress σ ω} {path cs : List Nat} {c r : Nat} {pruning : Pruning}
  {samples : DepthSamples} {events : List Event}

/-- Whether the branches tried at a depth were searched, in the order of the events. A branch at a
depth leads to a position whose path is longer by one. -/
def tries (depth : Nat) (events : List Event) : List Bool :=
  events.filterMap fun
    | .entered path => if path.length = depth + 1 then some true else none
    | .abandoned path _ _ => if path.length = depth then some false else none
    | _ => none

theorem tries_entered (depth : Nat) (path : List Nat) (events : List Event) :
    tries depth (.entered path :: events) =
      if path.length = depth + 1 then true :: tries depth events else tries depth events := by
  rw [tries, List.filterMap_cons]
  split <;> simp_all [tries]

theorem tries_abandoned (depth : Nat) (path : List Nat) (row removed : Nat)
    (events : List Event) : tries depth (.abandoned path row removed :: events) =
      if path.length = depth then false :: tries depth events else tries depth events := by
  rw [tries, List.filterMap_cons]
  split <;> simp_all [tries]

theorem length_tries_entered (depth : Nat) (path : List Nat) (events : List Event) :
    (tries depth (.entered path :: events)).length =
      (tries depth events).length + if depth + 1 = path.length then 1 else 0 := by
  rw [tries_entered]
  simp only [Eq.comm (b := path.length)]
  split <;> rfl

theorem length_tries_abandoned (depth : Nat) (path : List Nat) (row removed : Nat)
    (events : List Event) : (tries depth (.abandoned path row removed :: events)).length =
      (tries depth events).length + if depth = path.length then 1 else 0 := by
  rw [tries_abandoned]
  simp only [Eq.comm (b := path.length)]
  split <;> rfl

/-- Of the events, the latest of which comes first, the first branches of every depth were
searched. -/
def WarmsUp (pruning : Pruning) (events : List Event) : Prop :=
  ∀ depth, ∀ searched ∈ (tries depth events).reverse.take pruning.warmUp, searched = true

theorem WarmsUp.entered (h : WarmsUp pruning events) (path : List Nat) :
    WarmsUp pruning (.entered path :: events) := by
  intro depth searched hs
  rw [tries_entered] at hs
  split at hs
  · rw [List.reverse_cons, List.take_append] at hs
    obtain hs | hs := List.mem_append.mp hs
    · exact h depth searched hs
    · exact List.mem_singleton.mp (List.mem_of_mem_take hs)
  · exact h depth searched hs

/-- A branch may be abandoned when enough of them were tried before it. -/
theorem WarmsUp.abandoned {row removed : Nat} (h : WarmsUp pruning events)
    (hlen : pruning.warmUp ≤ (tries path.length events).length) :
    WarmsUp pruning (.abandoned path row removed :: events) := by
  intro depth searched hs
  rw [tries_abandoned] at hs
  split at hs
  case isTrue hd =>
    subst hd
    rw [List.reverse_cons,
      List.take_append_of_le_length (hlen.trans_eq (List.length_reverse).symm)] at hs
    exact h path.length searched hs
  case isFalse => exact h depth searched hs

theorem Progress.accept_samples {depth removed : Nat} {accepted : Bool}
    (hs : p.samples = some samples) (h : p.accept depth removed = .ok (accepted, q)) :
    ∃ samples', samples.judge depth removed = .ok (!accepted, samples') ∧
      q = { p with samples := some samples' } := by
  rw [accept, hs] at h
  cases hj : samples.judge depth removed with
  | error f =>
    simp only [hj] at h
    cases h
  | ok judged =>
    simp only [hj] at h
    cases h
    exact ⟨judged.2, by rw [Bool.not_not], rfl⟩

/-- No window is longer than the list of branches tried at its depth, but for those that `ahead`
says are yet to be reported. -/
structure Watched (pruning : Pruning) (ahead : Nat → Nat) (p : Progress σ ω) : Prop where
  samples : ∃ samples, p.samples = some samples ∧ samples.pruning = pruning ∧
    ∀ d, (samples.window d).length ≤ (tries d p.events).length + ahead d
  warmsUp : WarmsUp pruning p.events

theorem Watched.judged {ahead : Nat → Nat} {depth removed : Nat} {accepted : Bool}
    (h : Watched pruning ahead p) (hq : p.accept depth removed = .ok (accepted, q)) :
    Watched pruning (fun d => ahead d + if d = depth then 1 else 0) q ∧
      (accepted = false → pruning.warmUp ≤ (tries depth q.events).length + ahead depth) := by
  obtain ⟨samples, hs, hpruning, hlen⟩ := h.samples
  obtain ⟨samples', hj, rfl⟩ := Progress.accept_samples hs hq
  obtain ⟨hexceeds, hrecord⟩ := DepthSamples.judge_eq hj
  refine ⟨⟨⟨samples', rfl, (DepthSamples.pruning_record hrecord).trans hpruning, fun d => ?_⟩,
    h.warmsUp⟩, ?_⟩
  · have hwindow := DepthSamples.length_window_record_le hrecord d
    have hd := hlen d
    show (samples'.window d).length ≤ (tries d p.events).length + _
    omega
  · intro hno
    rw [hpruning, hno] at hexceeds
    exact (Pruning.warmUp_le_of_exceeds hexceeds).trans (hlen depth)

/-- The branch on the way to a position is yet to be reported. -/
theorem watched_invariant (pruning : Pruning) :
    Invariant (Watched (σ := σ) (ω := ω) pruning fun _ => 0)
      (fun path => Watched pruning fun d => if d + 1 = path.length then 1 else 0)
      (WarmsUp pruning) where
  events _ h := h.warmsUp
  events_before _ _ h := h.warmsUp
  enter path p q h hq := by
    obtain ⟨nodes, -, ⟨⟩⟩ := guard_eq_ok hq
    obtain ⟨samples, hs, hpruning, hlen⟩ := h.samples
    refine ⟨⟨samples, hs, hpruning, fun d => ?_⟩, h.warmsUp.entered path⟩
    exact (hlen d).trans_eq (length_tries_entered d path p.events).symm
  chosen _ _ h := ⟨h.samples, h.warmsUp⟩
  branching _ _ _ _ h := ⟨h.samples, h.warmsUp⟩
  solve path p q h hq := by
    obtain ⟨solutions, -, ⟨⟩⟩ := guard_eq_ok hq
    exact ⟨h.samples, h.warmsUp⟩
  visited _ _ h := ⟨h.samples, h.warmsUp⟩
  accepted path row removed p q h hq := by
    obtain ⟨hq, -⟩ := h.judged hq
    simpa [eq_comm] using hq
  abandoned path row removed p q q' h hq hq' := by
    obtain ⟨hq, hlen⟩ := h.judged hq
    obtain ⟨pruned, -, ⟨⟩⟩ := guard_eq_ok hq'
    obtain ⟨samples, hs, hpruning, hwindow⟩ := hq.samples
    refine ⟨⟨samples, hs, hpruning, fun d => ?_⟩, hq.warmsUp.abandoned (hlen rfl)⟩
    simp only [Nat.zero_add] at hwindow
    exact (hwindow d).trans_eq (length_tries_abandoned d path row removed q.events).symm

/-- In a run that prunes, the first branches of every depth are searched. -/
theorem run_warmsUp (hp : rule.pruning = some pruning) (state : σ) (visit : Visitor L ω)
    (visitor : ω) (m : CoverMatrix L) (depth : Nat) :
    ∀ searched ∈ (tries depth (happened (rule.run state visit visitor m))).take pruning.warmUp,
      searched = true := by
  have hnone (d : Nat) : tries d (rule.begin state visitor m.closingEvents).events = [] :=
    filterMap_begin (fun _ => rfl) (fun _ _ _ _ => rfl) rule state visitor m
  have hbegin : Watched pruning (fun d => if d + 1 = ([] : List Nat).length then 1 else 0)
      (rule.begin state visitor m.closingEvents) := by
    refine ⟨⟨.empty pruning, ?_, rfl, fun d => ?_⟩, fun d => ?_⟩
    · rw [BranchingRule.begin, hp]
      rfl
    · simp [DepthSamples.window_empty]
    · simp [hnone d]
  have hexits : Invariant.Exits (Watched pruning fun _ => 0) (WarmsUp pruning)
      (explore rule visit (m.columnCount + 1) [] m.close
        (rule.begin state visitor m.closingEvents)) :=
    (watched_invariant pruning).explore_exits hbegin
  rw [run_eq]
  cases hx : explore rule visit (m.columnCount + 1) [] m.close
      (rule.begin state visitor m.closingEvents) with
  | error i =>
    rw [hx] at hexits
    have htries : tries depth i.events.reverse = (tries depth i.events).reverse :=
      List.filterMap_reverse
    simp only [Except.map, happened, htries]
    exact hexits depth
  | ok e =>
    rw [hx] at hexits
    have htries : tries depth (conclude e.1 e.2.1 e.2.2).events =
        (tries depth e.2.2.events).reverse := filterMap_conclude (fun _ => rfl) _ _ _
    simp only [Except.map, happened, htries]
    exact hexits.warmsUp depth

def unannounced (events : List Event) : List Event :=
  events.filter fun
    | .pruning _ => false
    | _ => true

def Progress.plain (p : Progress σ ω) : Progress σ ω :=
  { p with samples := none, events := unannounced p.events }

/-- Nothing has been abandoned, no window is above the cap, and the rule goes on choosing active
columns. -/
structure Idle (rule : BranchingRule L σ) (t : Table) (pruning : Pruning) (p : Progress σ ω) :
    Prop where
  samples : ∃ samples, p.samples = some samples ∧ samples.pruning = pruning ∧
    ∀ d, (samples.window d).length ≤ pruning.sampleCap
  pruned : p.pruned = 0
  active : ChoosesActive rule t p.rule

/-- Windows below the warm-up accept every branch. -/
theorem Idle.accept {depth : Nat} (hcap : pruning.sampleCap < pruning.warmUp)
    (hp : Idle rule t pruning p) (h : m.IsFrame t) (hd : depth < t.columnCount) (removed : Nat) :
    ∃ p₁, p.accept depth removed = .ok (true, p₁) ∧ Idle rule t pruning p₁ ∧
      p₁.plain = p.plain := by
  obtain ⟨accepted, p₁, hacc⟩ := p.exists_accept h hd removed
  obtain ⟨samples, hs, rfl, hlen⟩ := hp.samples
  obtain ⟨samples', hj, rfl⟩ := Progress.accept_samples hs hacc
  obtain ⟨hexceeds, hrecord⟩ := DepthSamples.judge_eq hj
  rw [Pruning.exceeds_of_lt ((hlen depth).trans_lt hcap)] at hexceeds
  obtain rfl : accepted = true := by simpa using hexceeds.symm
  exact ⟨_, hacc, ⟨⟨samples', rfl, DepthSamples.pruning_record hrecord,
    DepthSamples.length_window_record_le_sampleCap hrecord hlen⟩, hp.pruned, hp.active⟩, rfl⟩

/-- A part of a search ends as it does without samples, with the matrix that it began with. -/
def Agrees (rule : BranchingRule L σ) (t : Table) (pruning : Pruning) (m : CoverMatrix L) :
    Except Interruption (Exit L σ ω) → Except Interruption (Exit L σ ω) → Prop
  | .ok (left, m', p), x => m' = m ∧ Idle rule t pruning p ∧ x = .ok (left, m, p.plain)
  | .error i, x => x = .error ⟨i.fault, unannounced i.events⟩

theorem Agrees.restore {m₁ : CoverMatrix L} {x y : Except Interruption (Exit L σ ω)}
    (h : Agrees rule t pruning m₁ x y) (undo : CoverMatrix L → Except Fault (CoverMatrix L))
    (hundo : undo m₁ = .ok m) :
    Agrees rule t pruning m
      (x >>= fun e => e.2.2.guard (undo e.2.1) >>= fun m => pure (e.1, m, e.2.2))
      (y >>= fun e => e.2.2.guard (undo e.2.1) >>= fun m => pure (e.1, m, e.2.2)) := by
  cases x with
  | error i =>
    have hy : y = _ := h
    rw [hy]
    rfl
  | ok e =>
    obtain ⟨left, m₂, p₂⟩ := e
    obtain ⟨rfl, hp₂, rfl⟩ := h
    simp only [Progress.guard, hundo, bind, Except.bind]
    exact ⟨rfl, hp₂, rfl⟩

section Steps

variable {descend descend' : List Nat → CoverMatrix L → Progress σ ω →
  Except Interruption (Exit L σ ω)} {depth fuel : Nat}

theorem tryRow_agrees (hcap : pruning.sampleCap < pruning.warmUp) (h : m.Under t cs)
    (hc : c ∈ t.row r) (hcs : ∀ d ∈ t.others r c, d ∉ cs) (hpath : path.length < t.columnCount)
    (hp : Idle rule t pruning p)
    (hd : ∀ m₁ p₁, m₁.Under t (cs ++ t.others r c) → Idle rule t pruning p₁ →
      Agrees rule t pruning m₁ (descend (path ++ [r]) m₁ p₁) (descend' (path ++ [r]) m₁ p₁.plain)) :
    Agrees rule t pruning m (tryRow descend path (t.entry r c) m p)
      (tryRow descend' path (t.entry r c) m p.plain) := by
  obtain ⟨m₁, hcov, hunc, -, h₁⟩ := h.others_step hc hcs
  obtain ⟨p₁, hacc, hp₁, hplain⟩ := hp.accept hcap h.toIsFrame hpath m₁.removedRows
  have hacc' : p.plain.accept path.length m₁.removedRows = .ok (true, p₁.plain) := by
    rw [hplain]
    rfl
  rw [tryRow_searched h hc hcov hacc, tryRow_searched h hc hcov hacc']
  exact (hd m₁ p₁ h₁ hp₁).restore (·.uncoverRowOthers (t.entry r c)) hunc

theorem branch_agrees {above rs : List Nat} (hcap : pruning.sampleCap < pruning.warmUp)
    (h : m.Under t cs) (hc : c < t.columnCount) (hrows : t.rowsUnder cs c = above ++ rs)
    (hcs : ∀ r ∈ rs, ∀ d ∈ t.others r c, d ∉ cs) (hpath : path.length < t.columnCount)
    (hp : Idle rule t pruning p)
    (hd : ∀ r m₁ p₁, m₁.Under t (cs ++ t.others r c) → Idle rule t pruning p₁ →
      Agrees rule t pruning m₁ (descend (path ++ [r]) m₁ p₁) (descend' (path ++ [r]) m₁ p₁.plain)) :
    Agrees rule t pruning m (branch descend path fuel (rs.head?.map (t.entry · c)) m p)
      (branch descend' path fuel (rs.head?.map (t.entry · c)) m p.plain) := by
  induction rs generalizing above fuel p with
  | nil => cases fuel <;> exact ⟨rfl, hp, rfl⟩
  | cons r rs ih =>
    cases fuel with
    | zero => rfl
    | succ fuel =>
      have hrow : c ∈ t.row r := Table.mem_row_of_rowsUnder hrows
      have htry := tryRow_agrees hcap h hrow (hcs r List.mem_cons_self) hpath hp (hd r)
      cases hx : tryRow descend path (t.entry r c) m p with
      | error i =>
        rw [hx] at htry
        simp only [List.head?_cons, Option.map_some, branch, hx, show _ = _ from htry, bind,
          Except.bind]
        rfl
      | ok e =>
        obtain ⟨left, m₁, p₁⟩ := e
        rw [hx] at htry
        obtain ⟨rfl, hp₁, hx'⟩ := htry
        by_cases hl : left = .ok .proceed
        · subst hl
          rw [branch_next h hc hrows hx, branch_next h hc hrows hx']
          exact ih (by rw [hrows, List.append_cons])
            (fun i hi => hcs i (List.mem_cons_of_mem r hi)) hp₁
        · rw [branch_ended hl hx, branch_ended hl hx']
          exact ⟨rfl, hp₁, rfl⟩

theorem present_agrees (hp : Idle rule t pruning p) :
    Agrees rule t pruning m (present visit path m p) (present visit path m p.plain) := by
  have hsame : p.plain.solutions = p.solutions := rfl
  rw [present, present, Progress.solve, Progress.solve, hsame]
  cases Word.add p.solutions 1 with
  | error f => rfl
  | ok solutions =>
    simp only [Progress.guard, Progress.note, Progress.plain, bind, Except.bind, pure, Except.pure]
    cases visit ⟨m, path⟩ p.visitor with
    | error f => rfl
    | ok answer => exact ⟨rfl, ⟨hp.samples, hp.pruned, hp.active⟩, rfl⟩

theorem explore_agrees (hcap : pruning.sampleCap < pruning.warmUp)
    (h : m.Under t cs) (hpath : path.length + (t.active cs).length ≤ t.columnCount)
    (hp : Idle rule t pruning p) :
    Agrees rule t pruning m (explore rule visit depth path m p)
      (explore rule.unpruned visit depth path m p.plain) := by
  induction depth generalizing path cs m p with
  | zero => rfl
  | succ depth ih =>
    by_cases hcalls : p.nodes + 1 < Word.modulus
    case neg =>
      have hcalls' : Word.modulus ≤ p.plain.nodes + 1 := not_lt.mp hcalls
      simp only [explore, searchFrom, Progress.enter_of_le (not_lt.mp hcalls),
        Progress.enter_of_le hcalls',
        bind, Except.bind]
      rfl
    case pos =>
    have hcalls' : p.plain.nodes + 1 < Word.modulus := hcalls
    by_cases hs : t.active cs = []
    · rw [explore_solved hcalls h hs, explore_solved hcalls' h hs]
      exact present_agrees ⟨hp.samples, hp.pruned, hp.active⟩
    · cases hsel : rule.select m p.rule with
      | error f =>
        have hsel' : rule.unpruned.select m p.plain.rule = .error f := hsel
        rw [explore_faulty hcalls h hs hsel, explore_faulty hcalls' h hs hsel']
        rfl
      | ok answer =>
        obtain ⟨choice, s⟩ := answer
        cases choice with
        | error r =>
          have hsel' : rule.unpruned.select m p.plain.rule = .ok (.error r, s) := hsel
          rw [explore_rejected hcalls h hs hsel, explore_rejected hcalls' h hs hsel']
          exact ⟨rfl, ⟨hp.samples, hp.pruned, hp.active.later (.asked .start h hs hsel)⟩, rfl⟩
        | ok c =>
          have hsel' : rule.unpruned.select m p.plain.rule = .ok (.ok c, s) := hsel
          have hc := hp.active.mem_active h hs hsel
          have hactive := hp.active.later (.asked .start h hs hsel)
          have hcs : c ∉ cs := (Table.mem_active.mp hc).2
          have hct : c < t.columnCount := (Table.mem_active.mp hc).1.lt
          obtain ⟨m₁, hcov, hunc, h₁⟩ := h.cover_step hct hcs
          have hpos : 0 < (t.active cs).length := List.length_pos_of_mem hc
          have hpath₁ : path.length < t.columnCount := by omega
          have hp₁ : Idle rule t pruning (((p.entered path).chosen s).note
              (.branching path c (t.rowsUnder cs c).length)) := ⟨hp.samples, hp.pruned, hactive⟩
          have hrows : t.rowsUnder (cs ++ [c]) c = [] ++ t.rowsUnder cs c :=
            Table.rowsUnder_concat_self hcs
          rw [explore_branched hcalls h hsel hc hcov h₁,
            explore_branched hcalls' h hsel' hc hcov h₁]
          refine Agrees.restore ?_ (·.uncover c) hunc
          apply branch_agrees hcap h₁ hct hrows (fun r hr => h.ordered.others_notMem hcs hr) hpath₁
            hp₁
          intro r m₂ p₂ h₂ hp₂
          have hlt := Table.length_active_others_lt hc r
          apply ih h₂ _ hp₂
          rw [List.length_append, List.length_singleton]
          omega

end Steps

def unannouncedRun : Except Interruption (Outcome L σ ω) → Except Interruption (Outcome L σ ω)
  | .ok out => .ok { out with events := unannounced out.events }
  | .error i => .error ⟨i.fault, unannounced i.events⟩

theorem conclude_plain (left : Except Rejection Signal) (m : CoverMatrix L) (p : Progress σ ω) :
    unannouncedRun (.ok (conclude left m p)) = .ok (conclude left m p.plain) := by
  have hevents (events : List Event) : unannounced events.reverse = (unannounced events).reverse :=
    List.filter_reverse
  cases left with
  | error r => simp only [unannouncedRun, conclude, hevents, Progress.plain]
  | ok signal =>
    simp only [unannouncedRun, conclude, hevents]
    rfl

theorem begin_plain (rule : BranchingRule L σ) (state : σ) (visitor : ω) (m : CoverMatrix L) :
    (rule.begin state visitor m.closingEvents).plain =
      rule.unpruned.begin state visitor m.closingEvents := by
  cases hp : rule.pruning <;> cases hc : m.isClosed <;>
    simp [BranchingRule.begin, BranchingRule.unpruned, Progress.plain, unannounced,
      CoverMatrix.closingEvents, CoverMatrix.closing, hp, hc]

/-- A run whose windows never warm up goes as it goes without pruning. -/
theorem run_unwarmed (hp : rule.pruning = some pruning)
    (hcap : pruning.sampleCap < pruning.warmUp) (hm : m.Under t cs) {state : σ}
    (hr : ChoosesActive rule t state) (visit : Visitor L ω) (visitor : ω) :
    rule.unpruned.run state visit visitor m =
        unannouncedRun (rule.run state visit visitor m) ∧
      ∀ out tally, rule.run state visit visitor m = .ok out → out.result = .ok tally →
        tally.pruned = 0 := by
  have hidle : Idle rule t pruning (rule.begin state visitor m.closingEvents) := by
    refine ⟨⟨.empty pruning, ?_, rfl, fun d => ?_⟩, rfl, hr⟩
    · rw [BranchingRule.begin, hp]
      rfl
    · simp [DepthSamples.window_empty]
  have hclose : m.close.Under t cs := { hm with }
  have hagree : Agrees rule t pruning m.close
      (explore rule visit (m.columnCount + 1) [] m.close
        (rule.begin state visitor m.closingEvents)) _ :=
    explore_agrees hcap hclose ((Nat.zero_add _).trans_le (t.length_active_le cs)) hidle
  rw [begin_plain] at hagree
  rw [run_eq, run_eq]
  cases hx : explore rule visit (m.columnCount + 1) [] m.close
      (rule.begin state visitor m.closingEvents) with
  | error i =>
    rw [hx] at hagree
    have hy : explore rule.unpruned visit (m.columnCount + 1) [] m.close
      (rule.unpruned.begin state visitor m.closingEvents) = _ := hagree
    rw [hy]
    refine ⟨rfl, ?_⟩
    intro out tally h
    cases h
  | ok e =>
    obtain ⟨left, m', p⟩ := e
    rw [hx] at hagree
    obtain ⟨rfl, hp, hy⟩ := hagree
    rw [hy]
    refine ⟨(conclude_plain left m.close p).symm, ?_⟩
    rintro out tally ⟨⟩ hres
    cases left with
    | error r => simp [conclude] at hres
    | ok signal =>
      obtain rfl : p.tally (signal = .stop) = tally := Except.ok.inj hres
      exact hp.pruned

/-- Warming up protects branches: however samples are compared, the first branches tried at a depth
are searched, in a run that faults no less than in one that does not. And if the cap keeps windows
from warming up, the run is the one by the same choices without pruning but for its announcement: it
ends with the same result or the same fault, leaves the same states of the rule and of the visitor,
and reports the same. -/
theorem warm_up_protects_branches [DecidableEq L] {state : σ} (hm : m.Reached t cs)
    (hr : ChoosesActive inner t state) (pruning : Pruning) (visit : Visitor L ω) (visitor : ω) :
    (∀ depth, ∀ searched ∈ (tries depth
        (happened ((inner.withPruning pruning).run state visit visitor m))).take
          (max 2 pruning.minSamples), searched = true) ∧
    (pruning.sampleCap < max 2 pruning.minSamples →
      inner.unpruned.run state visit visitor m =
        unannouncedRun ((inner.withPruning pruning).run state visit visitor m) ∧
      (inner.pruning = none → inner.run state visit visitor m =
        unannouncedRun ((inner.withPruning pruning).run state visit visitor m)) ∧
      ∀ out tally, (inner.withPruning pruning).run state visit visitor m = .ok out →
        out.result = .ok tally → tally.pruned = 0) := by
  have hwarm : max 2 pruning.minSamples = pruning.warmUp := Nat.max_comm _ _
  rw [hwarm]
  constructor
  · exact run_warmsUp rfl state visit visitor m
  · intro hcap
    have hactive : ChoosesActive (inner.withPruning pruning) t state := hr
    have hpruning : (inner.withPruning pruning).pruning = some pruning := rfl
    obtain ⟨hrun, hzero⟩ := run_unwarmed hpruning hcap hm.under hactive visit visitor
    refine ⟨hrun, fun hnone => ?_, hzero⟩
    have hself : inner = inner.unpruned := by
      rw [BranchingRule.unpruned, ← hnone]
    rw [hself]
    exact hrun

/-- Where samples would keep a cover from being found, a window of one sample keeps none. -/
theorem warm_up_protects_branches_crowded : ∃ out out',
    (BranchingRule.leftmost.withPruning aboveThree).run () collect [] crowded = .ok out ∧
      out.visitor = [[0, 3], [1, 3]] ∧
      (∀ depth, ∀ searched ∈ (tries depth out.events).take 2, searched = true) ∧
    (BranchingRule.leftmost.withPruning { aboveThree with sampleCap := 1 }).run () collect []
        crowded = .ok out' ∧
      out'.visitor = [[0, 3], [1, 3], [2]] ∧ out'.result = .ok ⟨3, 6, 0, false⟩ := by
  have hrun : ∃ out,
      (BranchingRule.leftmost.withPruning aboveThree).run () collect [] crowded = .ok out ∧
      out.visitor = [[0, 3], [1, 3]] := ⟨_, rfl, rfl⟩
  have hplain : ∃ out, BranchingRule.leftmost.run () collect [] crowded = .ok out ∧
      out.visitor = [[0, 3], [1, 3], [2]] ∧ out.result = .ok ⟨3, 6, 0, false⟩ := ⟨_, rfl, rfl, rfl⟩
  obtain ⟨out, hrun, hvisitor⟩ := hrun
  obtain ⟨out', hplain, hvisitor', hresult⟩ := hplain
  have hactive := (alwaysChooses_leftmost (L := Char) crowdedTable ()).choosesActive
  obtain ⟨hwarm, -⟩ := warm_up_protects_branches reached_crowded hactive aboveThree collect []
  obtain ⟨-, hcap⟩ := warm_up_protects_branches reached_crowded hactive
    { aboveThree with sampleCap := 1 } collect []
  obtain ⟨-, hsame, -⟩ := hcap (by decide)
  rw [hrun] at hwarm
  rw [hsame rfl] at hplain
  cases hx : (BranchingRule.leftmost.withPruning { aboveThree with sampleCap := 1 }).run () collect
      [] crowded with
  | error i =>
    rw [hx] at hplain
    cases hplain
  | ok out₁ =>
    rw [hx] at hplain
    obtain rfl := Except.ok.inj hplain
    exact ⟨out, out₁, hrun, hvisitor, hwarm, rfl, hvisitor', hresult⟩

/-- A rule that prunes by itself does not do so under pruning that cannot warm up: what it abandons
alone is searched. -/
theorem pruning_replaces_pruning : crowded.Reached crowdedTable [] ∧
    ChoosesActive (L := Char) (BranchingRule.leftmost.withPruning aboveThree) crowdedTable () ∧
    1 < max 2 10 ∧ ∃ out out',
      (BranchingRule.leftmost.withPruning aboveThree).run () collect [] crowded = .ok out ∧
        out.visitor = [[0, 3], [1, 3]] ∧ out.result = .ok ⟨2, 5, 1, false⟩ ∧
      ((BranchingRule.leftmost.withPruning aboveThree).withPruning
          { sampleCap := 1, minSamples := 10 }).run () collect [] crowded = .ok out' ∧
        out'.visitor = [[0, 3], [1, 3], [2]] ∧ out'.result = .ok ⟨3, 6, 0, false⟩ := by
  have hactive := (alwaysChooses_leftmost (L := Char) crowdedTable ()).choosesActive
  exact ⟨reached_crowded, hactive, by decide, _, _, rfl, rfl, rfl, rfl, rfl, rfl⟩

end Search

end DancingLinks
