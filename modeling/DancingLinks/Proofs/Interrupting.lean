import DancingLinks.Proofs.Conversing
import DancingLinks.Proofs.Keeping

/-! # Searches that are cut short

A visitor that stops a search at some call, and a rule that fails at some question, leave the
search as it was up to there: the covers visited are the first ones of the search that is not cut
short, and a search that ends before it would be cut short is not changed at all.
-/
namespace DancingLinks.Search

open CoverMatrix

variable {L σ σ' ω ω' : Type} {rule : BranchingRule L σ} {rule' : BranchingRule L σ'}
  {visit : Visitor L ω} {visit' : Visitor L ω'} {s s₁ : σ} {w w₁ : ω} {s' s₁' s₂' : σ'}
  {w' w₁' w₂' : ω'} {xs turns done rest : List (Turn L)} {turn : Turn L} {k : Nat} {e : Rejection}

/-- The visitor lets the search proceed at its first calls and stops it at the `k`-th, which is
counted from one. -/
def StopsAt (visit : Visitor L ω) : Nat → ω → Prop
  | 0, _ => False
  | 1, w => ∀ x, ∃ w₁, visit x w = .ok (.stop, w₁)
  | k + 2, w => ∀ x, ∃ w₁, visit x w = .ok (.proceed, w₁) ∧ StopsAt visit (k + 1) w₁

/-- The second rule chooses like the first one `k` times and then answers with a rejection. -/
def FailsAfter (rule : BranchingRule L σ) (rule' : BranchingRule L σ') (e : Rejection) :
    Nat → σ → σ' → Prop
  | 0, _, s' => ∀ m, ∃ s₁', rule'.select m s' = .ok (.error e, s₁')
  | k + 1, s, s' => ∀ m c s₁, rule.select m s = .ok (.ok c, s₁) →
    ∃ s₁', rule'.select m s' = .ok (.ok c, s₁') ∧ FailsAfter rule rule' e k s₁ s₁'

theorem failsAfter_failingWith (inner : BranchingRule L σ) (e : Rejection) (k : Nat) (s : σ) :
    FailsAfter inner (inner.failingWith e) e k s (k, s) := by
  induction k generalizing s with
  | zero => exact fun m => ⟨(0, s), rfl⟩
  | succ k ih =>
    intro m c s₁ h
    refine ⟨(k, s₁), ?_, ih s₁⟩
    simp only [BranchingRule.failingWith, h, bind, Except.bind]
    rfl

/-- Up to the call at which it stops the search, the visitor takes part in the same turns. -/
theorem Converses.of_stopsAt (h : Converses rule visit xs s w s₁ w₁) (hv : StopsAt visit' k w')
    (hlt : (covers xs).length < k) : ∃ w₁', Converses rule visit' xs s w' s₁ w₁' ∧
      StopsAt visit' (k - (covers xs).length) w₁' := by
  induction h generalizing k w' with
  | nil => exact ⟨w', .nil, hv⟩
  | choice hc _ ih =>
    obtain ⟨w₁', hconv, hstop⟩ := ih hv hlt
    exact ⟨w₁', .choice hc hconv, hstop⟩
  | @cover turns x s s₂ w w₁ w₂ _ _ ih =>
    rw [covers_cover, List.length_cons] at hlt ⊢
    match k, hv with
    | k + 2, hv =>
      obtain ⟨w₂', hx, hv⟩ := hv x
      obtain ⟨w₁', hconv, hstop⟩ := ih hv (by omega)
      rw [show k + 2 - ((covers turns).length + 1) = k + 1 - (covers turns).length by omega]
      exact ⟨w₁', .cover hx hconv, hstop⟩

/-- Up to the question at which it fails, the rule takes part in the same turns. -/
theorem Converses.of_failsAfter (h : Converses rule visit xs s w s₁ w₁)
    (hr : FailsAfter rule rule' e k s s') (hle : choices xs ≤ k) :
    ∃ s₁', Converses rule' visit xs s' w s₁' w₁ ∧
      FailsAfter rule rule' e (k - choices xs) s₁ s₁' := by
  induction h generalizing k s' with
  | nil => exact ⟨s', .nil, hr⟩
  | @choice turns m c s s₁ s₂ w w₂ hc _ ih =>
    rw [choices_choice] at hle ⊢
    match k, hr with
    | k + 1, hr =>
      obtain ⟨s₂', hc', hr⟩ := hr m c s₁ hc
      obtain ⟨s₁', hconv, hfail⟩ := ih hr (by omega)
      rw [show k + 1 - (choices turns + 1) = k - choices turns by omega]
      exact ⟨s₁', .choice hc' hconv, hfail⟩
  | cover hx _ ih =>
    rw [choices_cover] at hle ⊢
    obtain ⟨s₁', hconv, hfail⟩ := ih hr hle
    exact ⟨s₁', .cover hx hconv, hfail⟩

theorem exists_split_of_lt_countP {α : Type} {p : α → Bool} {items : List α}
    (h : k < items.countP p) :
    ∃ before x after, items = before ++ x :: after ∧ p x = true ∧ before.countP p = k := by
  induction items generalizing k with
  | nil => simp at h
  | cons y items ih =>
    by_cases hy : p y = true
    · rw [List.countP_cons_of_pos hy] at h
      cases k with
      | zero => exact ⟨[], y, items, rfl, hy, rfl⟩
      | succ k =>
        obtain ⟨before, x, after, rfl, hx, hk⟩ := ih (Nat.lt_of_succ_lt_succ h)
        exact ⟨y :: before, x, after, rfl, hx, by rw [List.countP_cons_of_pos hy, hk]⟩
    · rw [List.countP_cons_of_neg hy] at h
      obtain ⟨before, x, after, rfl, hx, hk⟩ := ih h
      exact ⟨y :: before, x, after, rfl, hx, by rw [List.countP_cons_of_neg hy, hk]⟩

theorem exists_choice_of_lt (h : k < choices turns) :
    ∃ done m c rest, turns = done ++ .choice m c :: rest ∧ choices done = k := by
  obtain ⟨done, turn, rest, hturns, hturn, hk⟩ := exists_split_of_lt_countP h
  cases turn with
  | choice m c => exact ⟨done, m, c, rest, hturns, hk⟩
  | cover x => simp at hturn

theorem length_covers (turns : List (Turn L)) : (covers turns).length = turns.countP fun
    | .cover _ => true
    | .choice _ _ => false := by
  rw [covers, List.length_filterMap_eq_countP]
  congr 1
  ext turn
  cases turn <;> rfl

theorem exists_cover_of_lt (h : k < (covers turns).length) :
    ∃ done x rest, turns = done ++ .cover x :: rest ∧ (covers done).length = k := by
  rw [length_covers] at h
  obtain ⟨done, turn, rest, hturns, hturn, hk⟩ := exists_split_of_lt_countP h
  cases turn with
  | choice m c => simp at hturn
  | cover x => exact ⟨done, x, rest, hturns, by rw [length_covers, hk]⟩

variable {t : Table} {m : CoverMatrix L} {cs : List Nat} {state : σ} {visitor : ω} {state' : σ'}
  {visitor' : ω'} {out : Outcome L σ ω} {tally : Tally} {p' : Progress σ ω}

theorem Explores.ne_stop {task : Task} {p : Progress σ ω} {left : Except Rejection Signal}
    (hv : AlwaysProceeds visit) (h : Explores rule visit t task m p left p') :
    left ≠ .ok .stop := by
  induction h with
  | @solved path cs m p signal w _ _ hvis =>
    obtain ⟨w', hw⟩ := hv ⟨m, path⟩ p.visitor
    obtain ⟨rfl, -⟩ := Prod.mk.inj (Except.ok.inj (hw.symm.trans hvis))
    simp
  | rejected _ _ _ => simp
  | branched _ _ _ _ _ ih => exact ih
  | searched _ _ _ ih => exact ih
  | abandoned _ _ => simp
  | exhausted => simp
  | next _ _ _ ihrest => exact ihrest
  | ended _ _ ih => exact ih

theorem begin_given (hp : rule'.pruning = rule.pruning) (state : σ) (visitor : ω) (state' : σ')
    (visitor' : ω') (events : List Event) :
    rule'.begin state' visitor' events =
      (rule.begin state visitor events).given state' visitor' := by
  rw [BranchingRule.begin, BranchingRule.begin, hp]
  rfl

structure Course (rule : BranchingRule L σ) (state : σ) (visit : Visitor L ω) (visitor : ω)
    (t : Table) (cs : List Nat) (m : CoverMatrix L) (turns : List (Turn L)) (p' : Progress σ ω) :
    Prop where
  under : m.Under t cs
  script : Script t (.position [] cs) m.close (rule.begin state visitor m.closingEvents) turns p'
  converses : Converses rule visit turns state visitor p'.rule p'.visitor
  reports : Records turns (rule.begin state visitor m.closingEvents) p'
  length_branched : (branched p'.events).length = choices turns
  nodes : p'.nodes < Word.modulus
  pruned : p'.pruned < Word.modulus

theorem exists_course (hm : m.Under t cs) (hr : ChoosesActive rule t state)
    (hv : AlwaysProceeds visit) (hrun : rule.run state visit visitor m = .ok out) (hres : out.result = .ok tally) :
    ∃ turns p', Course rule state visit visitor t cs m turns p' ∧
      out = conclude (.ok .proceed) m.close p' ∧ tally = p'.tally false := by
  obtain ⟨left, p', hs, rfl⟩ := (run_follows hr hm visitor).2 out hrun
  have hwords := tally_in_words hrun hres
  cases left with
  | error r => simp [conclude] at hres
  | ok signal =>
    cases signal with
    | stop => exact absurd rfl (hs.ne_stop hv)
    | proceed =>
      obtain rfl : p'.tally false = tally := Except.ok.inj hres
      obtain ⟨turns, hconv, hscript, hrep, hcount⟩ := hs.exists_script rfl
      have hnone : branched (rule.begin state visitor m.closingEvents).events = [] :=
        filterMap_begin (fun _ => rfl) (fun _ _ _ _ => rfl) rule state visitor m
      rw [hnone, List.length_nil, Nat.zero_add] at hcount
      exact ⟨turns, p', ⟨hm, hscript, hconv, hrep, hcount, hwords.1, hwords.2⟩, rfl, rfl⟩

theorem Records.found_conclude {q : Progress σ' ω'}
    (h : Records turns (rule.begin state visitor m.closingEvents) q)
    (left : Except Rejection Signal) (m' : CoverMatrix L) :
    Search.found (conclude left m' q).events = (covers turns).map (·.rows) := by
  rw [Search.found_conclude, h.found, found_begin, List.append_nil, List.reverse_reverse]

theorem Records.given (h : Records turns (rule.begin state visitor m.closingEvents) p')
    (s : σ') (w : ω') :
    Records turns (rule.begin state visitor m.closingEvents) (p'.given s w) :=
  ⟨h.found, h.solutions⟩

namespace Course

/-- A run with answers to all turns goes the same way to the end. -/
theorem run_whole (h : Course rule state visit visitor t cs m turns p')
    (hp : rule'.pruning = rule.pruning)
    (hconv : Converses rule' visit' turns state' visitor' s₁' w₁') :
    rule'.run state' visit' visitor' m =
      .ok (conclude (.ok .proceed) m.close (p'.given s₁' w₁')) := by
  have hs := h.script.whole hconv
  rw [← begin_given hp] at hs
  exact run_of_searches h.under hs h.nodes h.pruned

/-- A run with answers up to one that ends it goes the same way up to there. -/
theorem run_broken {left : Except Rejection Signal}
    (h : Course rule state visit visitor t cs m turns p') (hp : rule'.pruning = rule.pruning)
    (hturns : turns = done ++ turn :: rest)
    (hdone : Converses rule' visit' done state' visitor' s₁' w₁')
    (hb : Breaks rule' visit' turn s₁' w₁' left s₂' w₂') :
    ∃ q, rule'.run state' visit' visitor' m = .ok (conclude left m.close q) ∧
      q.rule = s₂' ∧ q.visitor = w₂' ∧
      Records (done ++ [turn]) (rule.begin state visitor m.closingEvents) q := by
  obtain ⟨q, hs, hrule, hvis, hn, hpr, hrep⟩ := h.script.broken hturns hdone hb
  rw [← begin_given hp] at hs
  exact ⟨q, run_of_searches h.under hs (hn.trans_lt h.nodes) (hpr.trans_lt h.pruned), hrule, hvis,
    hrep⟩

/-- A visitor that stops the search at its `k`-th call is called with the first `k` covers. -/
theorem run_stopsAt (h : Course rule state visit visitor t cs m turns p')
    (hv : StopsAt visit' k visitor') : ∃ out' tally',
      rule.run state visit' visitor' m = .ok out' ∧ out'.result = .ok tally' ∧
      callAll visit' ((covers turns).take k) visitor' = .ok out'.visitor ∧
      found out'.events = ((covers turns).take k).map (·.rows) ∧
      (tally'.stopped = true ↔ k ≤ (covers turns).length) ∧
      ((covers turns).length < k →
        tally' = p'.tally false ∧ out'.rule = p'.rule ∧ out'.matrix = m.close) := by
  by_cases hk : (covers turns).length < k
  case pos =>
    obtain ⟨w₁', hconv, -⟩ := h.converses.of_stopsAt hv hk
    rw [List.take_of_length_le hk.le]
    exact ⟨_, p'.tally false, h.run_whole rfl hconv, rfl, hconv.callAll_covers,
      (h.reports.given _ _).found_conclude _ _, by simp [Progress.tally, hk],
      fun _ => ⟨rfl, rfl, rfl⟩⟩
  case neg =>
    obtain ⟨k, rfl⟩ : ∃ j, k = j + 1 := by
      cases k with
      | zero => exact hv.elim
      | succ k => exact ⟨k, rfl⟩
    obtain ⟨done, x, rest, rfl, hdone⟩ := exists_cover_of_lt (Nat.lt_of_succ_le (not_lt.mp hk))
    obtain ⟨s₁, w₁, hconv, -⟩ := h.converses.of_append
    obtain ⟨w₁', hconv', hstop⟩ := hconv.of_stopsAt hv (hdone ▸ Nat.lt_succ_self _)
    rw [hdone, Nat.add_sub_cancel_left] at hstop
    obtain ⟨w₂', hx⟩ := hstop x
    obtain ⟨q, hrun, -, hvis, hrep⟩ := h.run_broken rfl rfl hconv' (.stopped hx)
    have htake : (covers (done ++ .cover x :: rest)).take (k + 1) =
        covers (done ++ [.cover x]) := by
      rw [covers_append, covers_append, ← hdone, List.take_length_add_append]
      rfl
    rw [htake]
    refine ⟨_, q.tally true, hrun, rfl, ?_, hrep.found_conclude _ _, ?_, fun hlt => absurd hlt hk⟩
    · rw [visitor_conclude, hvis]
      exact hconv'.callAll_break (.stopped hx)
    · simpa [Progress.tally] using not_lt.mp hk

/-- A rule that fails after `k` questions does not change a run that asks no more of them, and ends
any other one with its rejection. -/
theorem run_failsAfter (h : Course rule state visit visitor t cs m turns p')
    (hp : rule'.pruning = rule.pruning) (hf : FailsAfter rule rule' e k state state') :
    (choices turns ≤ k → ∃ s₁', FailsAfter rule rule' e (k - choices turns) p'.rule s₁' ∧
      rule'.run state' visit visitor m =
        .ok (conclude (.ok .proceed) m.close (p'.given s₁' p'.visitor))) ∧
    (k < choices turns → ∃ out' seen, rule'.run state' visit visitor m = .ok out' ∧
      out'.result = .error e ∧ out'.matrix = m.close ∧ seen <+: covers turns ∧
      callAll visit seen visitor = .ok out'.visitor ∧ found out'.events = seen.map (·.rows)) := by
  constructor
  · intro hle
    obtain ⟨s₁', hconv, hfail⟩ := h.converses.of_failsAfter hf hle
    exact ⟨s₁', hfail, h.run_whole hp hconv⟩
  · intro hlt
    obtain ⟨done, m₁, c, rest, rfl, hdone⟩ := exists_choice_of_lt hlt
    obtain ⟨s₁, w₁, hconv, -⟩ := h.converses.of_append
    obtain ⟨s₁', hconv', hfail⟩ := hconv.of_failsAfter hf hdone.le
    rw [hdone, Nat.sub_self] at hfail
    obtain ⟨s₂', hx⟩ := hfail m₁
    obtain ⟨q, hrun, -, hvis, hrep⟩ := h.run_broken hp rfl hconv' (.rejected hx)
    refine ⟨_, covers done, hrun, rfl, rfl, ?_, ?_, ?_⟩
    · rw [covers_append]
      exact List.prefix_append _ _
    · rw [visitor_conclude, hvis]
      exact hconv'.callAll_covers
    · simpa using hrep.found_conclude (.error e) m.close

end Course

theorem first_stopsAt : StopsAt (fun (s : Solution L) _ => .ok (.stop, some s.rows)) 1 none :=
  fun x => ⟨some x.rows, rfl⟩

theorem branched_conclude (left : Except Rejection Signal) (m : CoverMatrix L)
    (p : Progress σ ω) : branched (conclude left m p).events = (branched p.events).reverse :=
  filterMap_conclude (fun _ => rfl) left m p

/-- A search that is cut short visits the first covers of the one that is not. A visitor that stops
at its `k`-th call is called with the first `k` covers, which are all of them if there are fewer,
and then nothing has changed; the first cover is what `first` hands out; and a rule that is
rejected after `k` choices changes nothing unless more of them are asked for, in which case the
search ends with the rejection after some of the first covers. -/
theorem cut_runs_visit_prefixes [DecidableEq L] (hm : m.Reached t cs)
    (hr : ChoosesActive rule t state) (hv : AlwaysProceeds visit)
    (hrun : rule.run state visit visitor m = .ok out) (hres : out.result = .ok tally) :
    ∃ sols : List (Solution L), callAll visit sols visitor = .ok out.visitor ∧
      found out.events = sols.map (·.rows) ∧
      (∀ {ω' : Type} {visit' : Visitor L ω'} {visitor' : ω'} {k : Nat}, StopsAt visit' k visitor' →
        ∃ out' tally', rule.run state visit' visitor' m = .ok out' ∧ out'.result = .ok tally' ∧
          callAll visit' (sols.take k) visitor' = .ok out'.visitor ∧
          found out'.events = (sols.take k).map (·.rows) ∧
          (tally'.stopped = true ↔ k ≤ sols.length) ∧ (sols.length < k → tally' = tally)) ∧
      (∃ out' tally', rule.first state m = .ok out' ∧ out'.result = .ok tally' ∧
        out'.visitor = (sols.map (·.rows)).head? ∧ (out'.visitor = none ↔ sols = [])) ∧
      ∀ {σ' : Type} {rule' : BranchingRule L σ'} {state' : σ'} {e : Rejection} {k : Nat},
        rule'.pruning = rule.pruning → FailsAfter rule rule' e k state state' →
        ((branched out.events).length ≤ k → ∃ out', rule'.run state' visit visitor m = .ok out' ∧
          out'.result = out.result ∧ out'.matrix = out.matrix ∧ out'.visitor = out.visitor ∧
          out'.events = out.events) ∧
        (k < (branched out.events).length → ∃ out' seen,
          rule'.run state' visit visitor m = .ok out' ∧ out'.result = .error e ∧ seen <+: sols ∧
          callAll visit seen visitor = .ok out'.visitor ∧
          found out'.events = seen.map (·.rows)) := by
  obtain ⟨turns, p', h, rfl, rfl⟩ := exists_course hm.under hr hv hrun hres
  have hbranched : (branched (conclude (.ok .proceed) m.close p').events).length =
      choices turns := by
    rw [branched_conclude, List.length_reverse, h.length_branched]
  rw [hbranched]
  refine ⟨covers turns, h.converses.callAll_covers, h.reports.found_conclude _ _, ?_, ?_, ?_⟩
  · intro ω' visit' visitor' k hstop
    obtain ⟨out', tally', hrun', hres', hcalls, hfound, hstopped, hsame⟩ := h.run_stopsAt hstop
    exact ⟨out', tally', hrun', hres', hcalls, hfound, hstopped, fun hlt => (hsame hlt).1⟩
  · obtain ⟨out', tally', hrun', hres', hcalls, -⟩ := h.run_stopsAt first_stopsAt
    have hhead : out'.visitor = ((covers turns).map (·.rows)).head? := by
      cases hc : covers turns with
      | nil =>
        rw [hc] at hcalls
        exact (Except.ok.inj hcalls).symm
      | cons x xs =>
        rw [hc] at hcalls
        exact (Except.ok.inj hcalls).symm
    exact ⟨out', tally', hrun', hres', hhead, by simp [hhead]⟩
  · intro σ' rule' state' e k hp hf
    obtain ⟨hwhole, hbroken⟩ := h.run_failsAfter hp hf
    constructor
    · intro hle
      obtain ⟨s₁', -, hrun'⟩ := hwhole hle
      exact ⟨_, hrun', rfl, rfl, rfl, rfl⟩
    · intro hlt
      obtain ⟨out', seen, hrun', hres', -, hseen, hcalls, hfound⟩ := hbroken hlt
      exact ⟨out', seen, hrun', hres', hseen, hcalls, hfound⟩

/-- The sample has one cover, which `first` finds, and the search for it asks for two columns. -/
theorem cut_runs_visit_prefixes_sample :
    (∃ out, BranchingRule.leftmost.first () sample = .ok out ∧ out.visitor = some [0, 1]) ∧
      ∃ out, (BranchingRule.leftmost.failingWith .noColumnLeft).run (1, ()) collect [] sample =
        .ok out ∧ out.result = .error .noColumnLeft := by
  have hactive := (alwaysChooses_leftmost (L := Char) sampleTable ()).choosesActive
  have hrun : ∃ out, BranchingRule.leftmost.run () collect [] sample = .ok out ∧
      out.result = .ok ⟨1, 3, 0, false⟩ ∧ found out.events = [[0, 1]] ∧
      (branched out.events).length = 2 := ⟨_, rfl, rfl, rfl, rfl⟩
  obtain ⟨out, hrun, hres, hfound, hbranched⟩ := hrun
  obtain ⟨sols, -, hsols, -, hfirst, hfails⟩ := cut_runs_visit_prefixes reached_sample hactive
    (fun s w => ⟨w ++ [s.rows], rfl⟩) hrun hres
  constructor
  · obtain ⟨out', -, hrun', -, hhead, -⟩ := hfirst
    rw [← hsols, hfound] at hhead
    exact ⟨out', hrun', hhead⟩
  · have hfail := failsAfter_failingWith BranchingRule.leftmost (L := Char) .noColumnLeft 1 ()
    have hsame : ((BranchingRule.leftmost (L := Char)).failingWith .noColumnLeft).pruning =
        BranchingRule.leftmost.pruning (L := Char) := rfl
    have hlt : 1 < (branched out.events).length := by simp [hbranched]
    obtain ⟨out', seen, hrun', hres', -⟩ := (hfails hsame hfail).2 hlt
    exact ⟨out', hrun', hres'⟩

end DancingLinks.Search
