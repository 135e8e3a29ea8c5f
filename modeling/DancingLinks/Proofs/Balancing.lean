import DancingLinks.Proofs.Interrupting

/-! # The balance of the counters

Every position of a search is a cover, which the visitor is called with, or a column is asked for
and the position branches into the rows that the column shows. So the counters of a search that
tries all its rows add up: every row was a position more or an abandoned branch more. The log keeps
the same accounts, with a record of every cover, of every column and of every abandoned branch.
-/
namespace DancingLinks

open CoverMatrix

variable {L σ ω : Type}

/-- The rule that also counts how often it is asked. -/
def BranchingRule.counted (rule : BranchingRule L σ) : BranchingRule L (σ × Nat) where
  select m s := do
    let (choice, state) ← rule.select m s.1
    return (choice, state, s.2 + 1)
  pruning := rule.pruning

namespace Search

variable {rule : BranchingRule L σ} {visit : Visitor L ω} {t : Table} {task : Task}
  {m : CoverMatrix L} {p p₁ p' : Progress σ ω} {left : Except Rejection Signal} {cs : List Nat}
  {asked asked' : Nat} {signals signals' : List Signal}

def recorded (visit : Visitor L ω) : Visitor L (ω × List Signal) := fun x w => do
  let (signal, state) ← visit x w.1
  return (signal, state, w.2 ++ [signal])

theorem select_counted {s s' : σ} {choice : Except Rejection Nat}
    (h : rule.select m s = .ok (choice, s')) (n : Nat) :
    rule.counted.select m (s, n) = .ok (choice, s', n + 1) := by
  simp only [BranchingRule.counted, h]
  rfl

theorem visit_recorded {x : Solution L} {w w' : ω} {signal : Signal}
    (h : visit x w = .ok (signal, w')) (seen : List Signal) :
    recorded visit x (w, seen) = .ok (signal, w', seen ++ [signal]) := by
  simp only [recorded, h]
  rfl

def numbers (events : List Event) : List Nat :=
  events.filterMap fun
    | .solved number _ => some number
    | _ => none

/-- The columns that the search branched on, each with the depth before it and the size after it. -/
def branchings (events : List Event) : List (Nat × Nat × Nat) :=
  events.filterMap fun
    | .branching path column size => some (path.length, column, size)
    | _ => none

/-- Between two progresses a column was asked for so many times, and the visitor was called with the
next covers and answered with the signals. -/
structure Accounts (asked : Nat) (signals : List Signal) (p p' : Progress σ ω) : Prop where
  nodes : p'.nodes = p.nodes + (signals.length + asked)
  solutions : p'.solutions = p.solutions + signals.length
  numbers : Search.numbers p'.events =
    (List.range' (p.solutions + 1) signals.length).reverse ++ Search.numbers p.events
  branchings : (Search.branchings p'.events).length = (Search.branchings p.events).length + asked

theorem Accounts.nil {q : Progress σ ω} (hn : q.nodes = p.nodes) (hs : q.solutions = p.solutions)
    (he : Search.numbers q.events = Search.numbers p.events)
    (hb : (Search.branchings q.events).length = (Search.branchings p.events).length) :
    Accounts 0 [] p q :=
  ⟨hn, hs, he, hb⟩

theorem Accounts.trans (h : Accounts asked signals p p₁) (h' : Accounts asked' signals' p₁ p') :
    Accounts (asked + asked') (signals ++ signals') p p' where
  nodes := by
    rw [h'.nodes, h.nodes, List.length_append]
    omega
  solutions := by rw [h'.solutions, h.solutions, List.length_append, Nat.add_assoc]
  numbers := by
    have hnext : p₁.solutions + 1 = p.solutions + 1 + signals.length := by
      rw [h.solutions]
      omega
    rw [h'.numbers, h.numbers, hnext, List.length_append, ← List.range'_append_1,
      List.reverse_append, List.append_assoc]
  branchings := by rw [h'.branchings, h.branchings, Nat.add_assoc]

/-- A search that no rejection ends goes the same way while the questions and the signals are kept,
and it was stopped if and only if the last signal says so. -/
theorem Explores.accounts (h : Explores rule visit t task m p left p')
    (hl : ∀ r, left ≠ .error r) :
    ∃ asked signals, Accounts asked signals p p' ∧
      (left = .ok .stop ↔ signals.getLast? = some .stop) ∧
      ∀ n seen, Explores rule.counted (recorded visit) t task m
        (p.given (p.rule, n) (p.visitor, seen)) left
        (p'.given (p'.rule, n + asked) (p'.visitor, seen ++ signals)) := by
  induction h with
  | @solved path cs m p signal w hu hs hv =>
    refine ⟨0, [signal], ⟨rfl, rfl, rfl, rfl⟩, by simp, fun n seen => ?_⟩
    exact .solved hu hs (visit_recorded hv seen)
  | @rejected path cs m p r s _ _ _ => exact absurd rfl (hl r)
  | @branched path cs m m₁ p p' s c left hu hr hc hm _ ih =>
    obtain ⟨asked, signals, hacc, hstop, hrec⟩ := ih hl
    refine ⟨asked + 1, signals, ⟨?_, hacc.solutions, hacc.numbers, ?_⟩, hstop, fun n seen => ?_⟩
    · rw [hacc.nodes]
      simp only [Progress.entered, Progress.chosen, Progress.note]
      omega
    · rw [hacc.branchings, Nat.add_comm asked, ← Nat.add_assoc]
      rfl
    · rw [Nat.add_comm asked, ← Nat.add_assoc]
      exact .branched hu (select_counted hr n) hc hm (hrec (n + 1) seen)
  | searched hm ha _ ih =>
    obtain ⟨asked, signals, hacc, hstop, hrec⟩ := ih hl
    have hrow := fun n seen => Explores.searched hm (Progress.accept_given ha _ _) (hrec n seen)
    obtain ⟨samples, rfl, -⟩ := Progress.accept_eq ha
    exact ⟨asked, signals, ⟨hacc.nodes, hacc.solutions, hacc.numbers, hacc.branchings⟩, hstop, hrow⟩
  | @abandoned path cs m m₁ p p₁ c r hm ha =>
    have hrow (n : Nat) (seen : List Signal) : Explores rule.counted (recorded visit) t
        (.row path cs c r) m (p.given (p.rule, n) (p.visitor, seen)) (.ok .proceed)
        ((p₁.given (p.rule, n) (p.visitor, seen)).abandoned path r m₁.removedRows) :=
      .abandoned hm (Progress.accept_given ha _ _)
    obtain ⟨samples, rfl, -⟩ := Progress.accept_eq ha
    refine ⟨0, [], .nil rfl rfl rfl rfl, by simp, fun n seen => ?_⟩
    rw [List.append_nil]
    exact hrow n seen
  | exhausted =>
    refine ⟨0, [], .nil rfl rfl rfl rfl, by simp, fun n seen => ?_⟩
    rw [List.append_nil]
    exact .exhausted
  | @next path cs rs m p p₁ p' c r left _ _ ih ihrest =>
    obtain ⟨asked, xs, hx, hxstop, hxrec⟩ := ih (by simp)
    obtain ⟨asked', ys, hy, hystop, hyrec⟩ := ihrest hl
    refine ⟨asked + asked', xs ++ ys, hx.trans hy, ?_, fun n seen => ?_⟩
    · have hgo : xs.getLast? ≠ some .stop := fun he => by simpa using hxstop.mpr he
      rw [hystop, List.getLast?_append]
      cases ys.getLast? with
      | none => simpa using hgo
      | some signal => simp
    · rw [← Nat.add_assoc, ← List.append_assoc]
      exact .next (hxrec n seen) (hyrec (n + asked) (seen ++ xs))
  | ended _ hne ih =>
    obtain ⟨asked, signals, hacc, hstop, hrec⟩ := ih hl
    exact ⟨asked, signals, hacc, hstop, fun n seen => .ended (hrec n seen) hne⟩

def sizes (events : List Event) : Nat := ((branchings events).map (·.2.2)).sum

@[simp] theorem sizes_entered (path : List Nat) (events : List Event) :
    sizes (.entered path :: events) = sizes events := rfl

@[simp] theorem sizes_branching (path : List Nat) (c size : Nat) (events : List Event) :
    sizes (.branching path c size :: events) = size + sizes events := rfl

@[simp] theorem sizes_solved (number : Nat) (path : List Nat) (events : List Event) :
    sizes (.solved number path :: events) = sizes events := rfl

@[simp] theorem sizes_abandoned (path : List Nat) (row removed : Nat) (events : List Event) :
    sizes (.abandoned path row removed :: events) = sizes events := rfl

def Task.width : Task → Nat
  | .position _ _ => 1
  | .row _ _ _ _ => 1
  | .rows _ _ _ rs => rs.length

/-- What a part of a search has entered or abandoned is what stood at its top and the rows of the
columns that it branched on, all of them unless it was cut short. -/
theorem Explores.balances (h : Explores rule visit t task m p left p') :
    p'.nodes + p'.pruned + sizes p.events ≤ p.nodes + p.pruned + task.width + sizes p'.events ∧
      (left = .ok .proceed → p'.nodes + p'.pruned + sizes p.events =
        p.nodes + p.pruned + task.width + sizes p'.events) := by
  induction h with
  | solved _ _ _ =>
    simp only [Progress.entered, Progress.solved, Progress.visited, Progress.note, sizes_solved,
      sizes_entered, Task.width]
    omega
  | rejected _ _ _ =>
    simp only [Progress.entered, Progress.chosen, Progress.note, sizes_entered, Task.width]
    omega
  | branched _ _ _ _ _ ih =>
    simp only [Progress.entered, Progress.chosen, Progress.note, sizes_branching, sizes_entered,
      Task.width] at ih ⊢
    refine ⟨by omega, fun hl => ?_⟩
    have hall := ih.2 hl
    omega
  | searched _ ha _ ih =>
    obtain ⟨samples, rfl, -⟩ := Progress.accept_eq ha
    exact ih
  | abandoned _ ha =>
    obtain ⟨samples, rfl, -⟩ := Progress.accept_eq ha
    simp only [Progress.abandoned, Progress.note, sizes_abandoned, Task.width]
    omega
  | exhausted => exact ⟨le_rfl, fun _ => rfl⟩
  | next _ _ ih ihrest =>
    have hrow := ih.2 rfl
    simp only [Task.width, List.length_cons] at hrow ihrest ⊢
    refine ⟨by omega, fun hl => ?_⟩
    have hall := ihrest.2 hl
    omega
  | ended _ hne ih =>
    simp only [Task.width, List.length_cons] at ih ⊢
    exact ⟨by omega, fun hl => absurd hl hne⟩

theorem numbers_conclude (left : Except Rejection Signal) (m : CoverMatrix L) (p : Progress σ ω) :
    numbers (conclude left m p).events = (numbers p.events).reverse :=
  filterMap_conclude (fun _ => rfl) left m p

theorem numbers_begin (rule : BranchingRule L σ) (state : σ) (visitor : ω) (m : CoverMatrix L) :
    numbers (rule.begin state visitor m.closingEvents).events = [] :=
  filterMap_begin (fun _ => rfl) (fun _ _ _ _ => rfl) rule state visitor m

theorem branchings_begin (rule : BranchingRule L σ) (state : σ) (visitor : ω)
    (m : CoverMatrix L) :
    branchings (rule.begin state visitor m.closingEvents).events = [] :=
  filterMap_begin (fun _ => rfl) (fun _ _ _ _ => rfl) rule state visitor m

theorem branchings_conclude (left : Except Rejection Signal) (m : CoverMatrix L)
    (p : Progress σ ω) : branchings (conclude left m p).events = (branchings p.events).reverse :=
  filterMap_conclude (fun _ => rfl) left m p

theorem sizes_conclude (left : Except Rejection Signal) (m : CoverMatrix L) (p : Progress σ ω) :
    sizes (conclude left m p).events = sizes p.events := by
  rw [sizes, branchings_conclude, List.map_reverse, List.sum_reverse, sizes]

/-- The records whose text begins as given. -/
def logged (start : String) (events : List Event) : List (Level × String) :=
  (events.filterMap Event.record?).filter fun r => start.toList.isPrefixOf r.2.toList

/-- A log has a line for every record that its level takes. -/
theorem lines_eq (limit : Level) (events : List Event) : Event.lines limit events =
    ((events.filterMap Event.record?).filter (limit.takes ·.1)).map fun r =>
      r.1.name ++ " " ++ r.2 := by
  rw [Event.lines, List.filter_filterMap, List.map_filterMap]
  congr 1
  funext e
  rw [Event.line?]
  cases e.record? with
  | none => rfl
  | some r => cases h : limit.takes r.1 <;> simp [Option.filter, h]

theorem logged_eq {start : String} (pick : Event → Option (Level × String))
    (h : ∀ e : Event, e.record?.filter (fun r => start.toList.isPrefixOf r.2.toList) = pick e)
    (events : List Event) : logged start events = events.filterMap pick := by
  rw [logged, List.filter_filterMap]
  congr 1
  exact funext h

theorem toString_string (text : String) : toString text = text := rfl

theorem logged_solution (events : List Event) : logged "solution " events =
    List.zipWith (fun number rows => (.debug, s!"solution {number} with {rows.length} rows"))
      (numbers events) (found events) := by
  rw [logged_eq (fun
      | .solved number path => some (.debug, s!"solution {number} with {path.length} rows")
      | _ => none) fun e => by cases e <;> simp [Event.record?, Option.filter, toString_string]]
  induction events with
  | nil => rfl
  | cons e events ih =>
    cases e with
    | solved number path => exact congrArg (List.cons _) ih
    | closed | pruning | entered | branching | abandoned | finished => exact ih

theorem logged_covering (events : List Event) : logged "depth " events =
    (branchings events).map fun b =>
      (.trace, s!"depth {b.1}: covering column {b.2.1} with {b.2.2} rows") := by
  rw [branchings, List.map_filterMap]
  refine logged_eq _ (fun e => ?_) events
  cases e <;> simp [Event.record?, Option.filter, toString_string]

theorem length_logged_pruned (events : List Event) :
    (logged "pruned row " events).length = (dropped events).length := by
  rw [logged, List.filter_filterMap, dropped, List.length_filterMap_eq_countP,
    List.length_filterMap_eq_countP]
  congr 1
  funext e
  cases e <;> simp [Event.record?, Option.filter, toString_string]

variable {state : σ} {visitor : ω} {out : Outcome L σ ω} {tally : Tally}

/-- The counters of a run, the log of its events, the questions that the rule was asked and the
signals of the visitor add up. -/
structure Balanced (tally : Tally) (events : List Event) (asked : Nat) (signals : List Signal) :
    Prop where
  solutions : tally.solutions = signals.length
  numbered : logged "solution " events =
    List.zipWith (fun number rows => (.debug, s!"solution {number} with {rows.length} rows"))
      (List.range' 1 tally.solutions) (found events)
  found : (Search.found events).length = tally.solutions
  pruned : tally.pruned = (logged "pruned row " events).length
  nodes : tally.nodes = tally.solutions + asked
  covering : logged "depth " events = (branchings events).map fun b =>
    (.trace, s!"depth {b.1}: covering column {b.2.1} with {b.2.2} rows")
  asked : asked = (logged "depth " events).length
  stopped : tally.stopped = true ↔ signals.getLast? = some .stop
  le : tally.nodes + tally.pruned ≤ 1 + ((branchings events).map (·.2.2)).sum
  eq : tally.stopped = false →
    tally.nodes + tally.pruned = 1 + ((branchings events).map (·.2.2)).sum

theorem Searches.balanced {signal : Signal}
    (hs : Searches rule state visit visitor t cs m (.ok signal) p')
    (hacc : Accounts asked signals (rule.begin state visitor m.closingEvents) p')
    (hstop : signal = .stop ↔ signals.getLast? = some .stop) :
    Balanced (p'.tally (signal = .stop)) (conclude (.ok signal) m.close p').events asked
      signals := by
  obtain ⟨hle, hall⟩ := hs.balances
  have hsolutions : p'.solutions = signals.length := hacc.solutions.trans (Nat.zero_add _)
  have hsizes : sizes (rule.begin state visitor m.closingEvents).events = 0 := by
    rw [sizes, branchings_begin]
    rfl
  rw [hsizes, ← sizes_conclude (.ok signal) m.close p'] at hle hall
  have hnumbers : numbers (conclude (.ok signal) m.close p').events =
      List.range' 1 p'.solutions := by
    rw [numbers_conclude, hacc.numbers, numbers_begin, List.append_nil, List.reverse_reverse,
      hsolutions]
    rfl
  have hdropped : p'.pruned = (dropped (conclude (.ok signal) m.close p').events).length := by
    have hlength := hs.length_dropped
    rw [dropped_begin] at hlength
    rw [dropped_conclude, List.length_reverse]
    exact (hlength.trans (Nat.zero_add _)).symm
  have hbranchings : asked = (branchings (conclude (.ok signal) m.close p').events).length := by
    rw [branchings_conclude, List.length_reverse, hacc.branchings, branchings_begin]
    exact (Nat.zero_add _).symm
  have hfound : (found (conclude (.ok signal) m.close p').events).length = p'.solutions := by
    obtain ⟨sols, hvisits⟩ := hs.visits
    rw [found_conclude, List.length_reverse, hvisits.found, found_begin, hvisits.solutions]
    simp [BranchingRule.begin]
  exact {
    solutions := hsolutions
    numbered := by
      rw [logged_solution, hnumbers]
      rfl
    found := hfound
    pruned := by
      rw [length_logged_pruned]
      exact hdropped
    nodes := by
      have hnodes : p'.nodes = 0 + (signals.length + asked) := hacc.nodes
      rwa [Nat.zero_add, ← hsolutions] at hnodes
    covering := logged_covering _
    asked := by rw [logged_covering, List.length_map, ← hbranchings]
    stopped := by
      rw [← hstop]
      exact decide_eq_true_iff
    le := hle
    eq := by
      intro hgo
      cases signal with
      | proceed => exact hall rfl
      | stop => simp [Progress.tally] at hgo }

/-- A run that ends without a rejection is balanced. The covers counted are those that the visitor
was called with, and their records carry the numbers from one on; the other positions are those for
which a column was asked, and the column of each is recorded with its size; the branches counted as
abandoned are those recorded; and the run was stopped if and only if the visitor's last signal says
so. The positions entered and the branches abandoned are the first position and the rows of the
columns recorded, all of them unless the run was stopped. -/
theorem run_balances [DecidableEq L] (hm : m.Reached t cs) (hr : ChoosesActive rule t state)
    (hrun : rule.run state visit visitor m = .ok out) (hres : out.result = .ok tally) :
    ∃ asked signals, rule.counted.run (state, 0) (recorded visit) (visitor, []) m =
        .ok ⟨.ok tally, out.matrix, (out.rule, asked), (out.visitor, signals), out.events⟩ ∧
      Balanced tally out.events asked signals := by
  have hwords := tally_in_words hrun hres
  obtain ⟨left, p', hs, rfl⟩ := (run_follows hr hm.under visitor).2 out hrun
  cases left with
  | error r => simp [conclude] at hres
  | ok signal =>
    obtain rfl : p'.tally (signal = .stop) = tally := Except.ok.inj hres
    obtain ⟨asked, signals, hacc, hstop, hrec⟩ := hs.accounts (by simp)
    have hsearch : Searches rule.counted (state, 0) (recorded visit) (visitor, []) t cs m
        (.ok signal) (p'.given (p'.rule, asked) (p'.visitor, signals)) := by
      have hpruning : rule.counted.pruning = rule.pruning := rfl
      rw [Searches, begin_given hpruning state visitor]
      have hstart := hrec 0 []
      rwa [Nat.zero_add, List.nil_append] at hstart
    refine ⟨asked, signals, ?_, Searches.balanced hs hacc (by simpa using hstop)⟩
    rw [run_of_searches hm.under hsearch hwords.1 hwords.2]
    rfl

/-- Two positions of the sample branch, each into one row, and the third is its cover. -/
theorem run_balances_sample : ∃ out,
    (BranchingRule.leftmost.counted.run ((), 0) (recorded collect) ([], []) sample = .ok out ∧
      out.rule.2 = 2 ∧ out.visitor.2 = [.proceed]) ∧
    logged "solution " out.events = [(.debug, "solution 1 with 2 rows")] ∧
    logged "depth " out.events = [(.trace, "depth 0: covering column 0 with 1 rows"),
      (.trace, "depth 1: covering column 1 with 1 rows")] ∧
    (logged "pruned row " out.events).length = 0 ∧
    (3 : Nat) + 0 = 1 + ((branchings out.events).map (·.2.2)).sum := by
  have hrun : ∃ out, BranchingRule.leftmost.run () collect [] sample = .ok out ∧
      out.result = .ok ⟨1, 3, 0, false⟩ ∧ found out.events = [[0, 1]] ∧
      branchings out.events = [(0, 0, 1), (1, 1, 1)] := ⟨_, rfl, rfl, rfl, rfl⟩
  obtain ⟨out, hrun, hres, hfound, hbranchings⟩ := hrun
  have hactive := (alwaysChooses_leftmost (L := Char) sampleTable ()).choosesActive
  obtain ⟨asked, signals, hcounted, h⟩ := run_balances reached_sample hactive hrun hres
  have hcovering := h.covering
  rw [hbranchings] at hcovering
  have hasked : asked = 2 := by rw [h.asked, hcovering]; rfl
  have hnumbered := h.numbered
  rw [hfound] at hnumbered
  have hgo : signals = [.proceed] := by
    match signals, h.solutions, h.stopped with
    | [.proceed], _, _ => rfl
    | [.stop], _, hstop => simp at hstop
  exact ⟨_, ⟨hcounted, hasked, hgo⟩, hnumbered, hcovering, h.pruned.symm, h.eq rfl⟩

end Search

end DancingLinks
