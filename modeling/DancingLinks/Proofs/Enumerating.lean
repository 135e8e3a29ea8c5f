import DancingLinks.Proofs.ExactCovers
import DancingLinks.Proofs.Following

/-! # A search finds every exact cover once

A rule that always chooses an active column and does not prune, and a visitor that never stops the
search, see every exact cover of the columns that are left exactly once and nothing else.
-/
namespace DancingLinks.Search

open CoverMatrix

variable {L σ ω : Type} {rule : BranchingRule L σ} {visit : Visitor L ω} {t : Table}
  {m : CoverMatrix L} {p p' : Progress σ ω} {left : Except Rejection Signal} {task : Task}
  {cs : List Nat}

def found (events : List Event) : List (List Nat) :=
  events.filterMap fun
    | .solved _ path => some path
    | _ => none

/-- The rows chosen when a branch was abandoned, the last of which is the one abandoned. -/
def dropped (events : List Event) : List (List Nat) :=
  events.filterMap fun
    | .abandoned path row _ => some (path ++ [row])
    | _ => none

def positions (events : List Event) : List (List Nat) :=
  events.filterMap fun
    | .entered path => some path
    | _ => none

theorem calls_eq (events : List Event) : calls events = (positions events).length := by
  rw [positions, List.length_filterMap_eq_countP, calls]
  congr 1
  funext e
  cases e <;> rfl

/-- The events of a run are those of its search, the latest of which comes first, with nothing that
`pick` takes at the end. -/
theorem filterMap_conclude {α : Type} {pick : Event → Option α}
    (hpick : ∀ tally, pick (.finished tally) = none) (left : Except Rejection Signal)
    (m : CoverMatrix L) (p : Progress σ ω) :
    (conclude left m p).events.filterMap pick = (p.events.filterMap pick).reverse := by
  cases left with
  | error r => exact List.filterMap_reverse
  | ok signal =>
    have hlast : (conclude (.ok signal) m p).events =
        (Event.finished (p.tally (signal = .stop)) :: p.events).reverse := rfl
    rw [hlast, List.filterMap_reverse, List.filterMap_cons_none (hpick _)]

/-- A search begins with no event but its settings. -/
theorem filterMap_begin {α : Type} {pick : Event → Option α}
    (hpruning : ∀ pruning, pick (.pruning pruning) = none)
    (hclosed : ∀ columns primary rows entries,
      pick (.closed columns primary rows entries) = none)
    (rule : BranchingRule L σ) (state : σ) (visitor : ω) (m : CoverMatrix L) :
    (rule.begin state visitor m.closingEvents).events.filterMap pick = [] := by
  cases hp : rule.pruning <;> cases hc : m.isClosed <;>
    simp [BranchingRule.begin, CoverMatrix.closingEvents, CoverMatrix.closing, hp, hc, hpruning,
      hclosed]

theorem found_conclude (left : Except Rejection Signal) (m : CoverMatrix L) (p : Progress σ ω) :
    found (conclude left m p).events = (found p.events).reverse :=
  filterMap_conclude (fun _ => rfl) left m p

theorem dropped_conclude (left : Except Rejection Signal) (m : CoverMatrix L)
    (p : Progress σ ω) : dropped (conclude left m p).events = (dropped p.events).reverse :=
  filterMap_conclude (fun _ => rfl) left m p

theorem found_begin (rule : BranchingRule L σ) (state : σ) (visitor : ω) (m : CoverMatrix L) :
    found (rule.begin state visitor m.closingEvents).events = [] :=
  filterMap_begin (fun _ => rfl) (fun _ _ _ _ => rfl) rule state visitor m

theorem dropped_begin (rule : BranchingRule L σ) (state : σ) (visitor : ω) (m : CoverMatrix L) :
    dropped (rule.begin state visitor m.closingEvents).events = [] :=
  filterMap_begin (fun _ => rfl) (fun _ _ _ _ => rfl) rule state visitor m

theorem positions_conclude (left : Except Rejection Signal) (m : CoverMatrix L)
    (p : Progress σ ω) : positions (conclude left m p).events = (positions p.events).reverse :=
  filterMap_conclude (fun _ => rfl) left m p

theorem positions_begin (rule : BranchingRule L σ) (state : σ) (visitor : ω) (m : CoverMatrix L) :
    positions (rule.begin state visitor m.closingEvents).events = [] :=
  filterMap_begin (fun _ => rfl) (fun _ _ _ _ => rfl) rule state visitor m

def callAll (visit : Visitor L ω) (sols : List (Solution L)) (w : ω) : Except Fault ω :=
  sols.foldlM (fun w s => (visit s w).map Prod.snd) w

/-- Between two progresses the visitor was called with the given covers, each of which was counted
and reported. -/
structure Visits (visit : Visitor L ω) (sols : List (Solution L)) (p p' : Progress σ ω) :
    Prop where
  calls : callAll visit sols p.visitor = .ok p'.visitor
  found : Search.found p'.events = (sols.map (·.rows)).reverse ++ Search.found p.events
  solutions : p'.solutions = p.solutions + sols.length

theorem Visits.nil {q : Progress σ ω} (hv : q.visitor = p.visitor)
    (hf : Search.found q.events = Search.found p.events) (hs : q.solutions = p.solutions) :
    Visits visit [] p q :=
  ⟨congrArg Except.ok hv.symm, hf, hs⟩

theorem Visits.trans {q : Progress σ ω} {xs ys : List (Solution L)} (h : Visits visit xs p q)
    (h' : Visits visit ys q p') : Visits visit (xs ++ ys) p p' where
  calls := by
    rw [callAll, List.foldlM_append]
    have hx := h.calls
    rw [callAll] at hx
    rw [hx]
    exact h'.calls
  found := by
    rw [h'.found, h.found, List.map_append, List.reverse_append, List.append_assoc]
  solutions := by
    rw [h'.solutions, h.solutions, List.length_append, Nat.add_assoc]

theorem Visits.accept {depth removed : Nat} {accepted : Bool}
    (ha : p.accept depth removed = .ok (accepted, p')) : Visits visit [] p p' := by
  rcases Progress.accept_eq ha with ⟨samples, rfl, -⟩
  exact .nil rfl rfl rfl

/-- A derivation calls the visitor with the covers that it reports. -/
theorem Explores.visits (h : Explores rule visit t task m p left p') :
    ∃ sols, Visits visit sols p p' := by
  induction h with
  | @solved path cs m p signal w _ _ hv =>
    refine ⟨[⟨m, path⟩], ?_, rfl, rfl⟩
    rw [callAll, List.foldlM_cons, hv]
    rfl
  | @rejected path cs m p r s _ _ _ => exact ⟨[], .nil rfl rfl rfl⟩
  | @branched path cs m m₁ p p' s c left _ _ _ _ _ ih =>
    rcases ih with ⟨sols, hsols⟩
    exact ⟨sols, hsols.calls, hsols.found, hsols.solutions⟩
  | searched _ ha _ ih =>
    rcases ih with ⟨sols, hsols⟩
    exact ⟨_, (Visits.accept ha).trans hsols⟩
  | abandoned _ ha => exact ⟨_, (Visits.accept ha).trans (.nil rfl rfl rfl)⟩
  | exhausted => exact ⟨[], .nil rfl rfl rfl⟩
  | next _ _ ih ihrest =>
    rcases ih with ⟨xs, hxs⟩
    rcases ihrest with ⟨ys, hys⟩
    exact ⟨_, hxs.trans hys⟩
  | ended _ _ ih => exact ih

/-- The visitor always lets the search go on. -/
def AlwaysProceeds (visit : Visitor L ω) : Prop :=
  ∀ (s : Solution L) (w : ω), ∃ w', visit s w = .ok (.proceed, w')

theorem AlwaysProceeds.returns (h : AlwaysProceeds visit) : Returns visit := by
  intro s w
  rcases h s w with ⟨w', hw⟩
  exact ⟨_, hw⟩

theorem Explores.proceeds (hr : AlwaysChooses rule t p.rule) (hv : AlwaysProceeds visit)
    (h : Explores rule visit t task m p left p') : left = .ok .proceed := by
  induction h with
  | @solved path cs m p signal w _ _ hvis =>
    rcases hv ⟨m, path⟩ p.visitor with ⟨w', hw⟩
    rw [hw, Except.ok.injEq, Prod.mk.injEq] at hvis
    rw [hvis.1]
  | @rejected path cs m p r s hu hs hsel =>
    rcases hr p.rule .start m cs hu hs with ⟨c, s', active, hsel', -, -⟩
    rw [hsel'] at hsel
    cases hsel
  | branched hu hsel hc _ _ ih =>
    exact ih (hr.later (.asked .start hu (List.ne_nil_of_mem hc) hsel))
  | searched _ ha _ ih => exact ih (Progress.rule_accept ha ▸ hr)
  | abandoned _ _ => rfl
  | exhausted => rfl
  | next h _ _ ihrest => exact ihrest (hr.later h.reaches)
  | ended _ hl ih => exact absurd (ih hr) hl

theorem Explores.unpruned (h : Explores rule visit t task m p left p') (hs : p.samples = none) :
    p'.samples = none ∧ p'.pruned = p.pruned := by
  induction h with
  | solved _ _ _ => exact ⟨hs, rfl⟩
  | rejected _ _ _ => exact ⟨hs, rfl⟩
  | branched _ _ _ _ _ ih => exact ih hs
  | searched _ ha _ ih =>
    rcases Progress.accept_eq ha with ⟨samples, rfl, hsamples⟩
    exact ih (hsamples hs).1
  | abandoned _ ha =>
    rcases Progress.accept_eq ha with ⟨samples, -, hsamples⟩
    exact Bool.noConfusion (hsamples hs).2
  | exhausted => exact ⟨hs, rfl⟩
  | next _ _ ih ihrest =>
    rcases ih hs with ⟨hs₁, hp₁⟩
    rw [← hp₁]
    exact ihrest hs₁
  | ended _ _ ih => exact ih hs

namespace Task

def path : Task → List Nat
  | .position path _ => path
  | .row path _ _ _ => path
  | .rows path _ _ _ => path

/-- The rows of a task meet its column, which is covered, and none is tried twice. -/
def Fits (t : Table) : Task → Prop
  | .position _ _ => True
  | .row _ cs c r => c ∈ cs ∧ c ∈ t.row r
  | .rows _ cs c rs => c ∈ cs ∧ rs.Nodup ∧ ∀ r ∈ rs, c ∈ t.row r

/-- The sets of rows that a part of a search is to find behind the rows chosen before it. -/
def Finds (t : Table) : Task → Finset Nat → Prop
  | .position _ cs, R => t.IsCover cs R
  | .row _ cs c r, R => r ∈ R ∧ t.IsCover (cs ++ t.others r c) (R.erase r)
  | .rows _ cs c rs, R => ∃ r ∈ rs, r ∈ R ∧ t.IsCover (cs ++ t.others r c) (R.erase r)

variable {path rs : List Nat} {c r : Nat}

theorem Fits.head (h : Task.Fits t (.rows path cs c (r :: rs))) :
    Task.Fits t (.row path cs c r) := ⟨h.1, h.2.2 r List.mem_cons_self⟩

theorem Fits.tail (h : Task.Fits t (.rows path cs c (r :: rs))) :
    Task.Fits t (.rows path cs c rs) :=
  ⟨h.1, h.2.1.of_cons, fun i hi => h.2.2 i (List.mem_cons_of_mem r hi)⟩

theorem fits_rowsUnder (hc : c ∈ t.active cs) :
    Task.Fits t (.rows path (cs ++ [c]) c (t.rowsUnder cs c)) := by
  refine ⟨List.mem_append_right cs (List.mem_singleton_self c), t.nodup_shownRows _ c, ?_⟩
  exact fun r hr => ((Table.mem_rowsUnder (Table.mem_active.mp hc).2).mp hr).1

/-- One row more on the path is one row more in front of what goes on from it. -/
theorem map_path_concat (path : List Nat) (r : Nat) (xs : List (List Nat)) :
    xs.map (path ++ [r] ++ ·) = (xs.map (r :: ·)).map (path ++ ·) := by
  rw [List.map_map]
  congr 1
  funext q
  simp

end Task

/-- A derivation that is not cut short finds the sets that it is to find, except for those behind a
branch that it abandons. -/
theorem Explores.surveys (ho : t.Ordered) (h : Explores rule visit t task m p left p')
    (hl : left = .ok .proceed) (hfit : task.Fits t) :
    ∃ qs ds, found p'.events = (qs.map (task.path ++ ·)).reverse ++ found p.events ∧
      dropped p'.events = (ds.map (task.path ++ ·)).reverse ++ dropped p.events ∧
      Surveys qs ds (task.Finds t) := by
  induction h with
  | @solved path cs m p signal w _ hsolved _ =>
    refine ⟨[[]], [], ?_, rfl, .singleton fun R => Table.isCover_of_active_eq_nil hsolved⟩
    rw [List.map_singleton, Task.path, List.append_nil]
    rfl
  | rejected _ _ _ => cases hl
  | @branched path cs m m₁ p p' s c left _ _ hc _ _ ih =>
    rcases ih hl (Task.fits_rowsUnder hc) with ⟨qs, ds, hf, hd, hsurvey⟩
    exact ⟨qs, ds, hf, hd, hsurvey.congr fun R => (Table.isCover_iff ho hc).symm⟩
  | @searched path cs m m₁ p p₁ p' c r left _ ha _ ih =>
    rcases Progress.accept_eq ha with ⟨samples, rfl, -⟩
    rcases ih hl trivial with ⟨qs, ds, hf, hd, hsurvey⟩
    refine ⟨qs.map (r :: ·), ds.map (r :: ·), ?_, ?_, ?_⟩
    · rw [hf, Task.path, Task.map_path_concat]
      rfl
    · rw [hd, Task.path, Task.map_path_concat]
      rfl
    · exact hsurvey.cons fun R hR => hR.notMem hfit.2 (List.mem_append_left _ hfit.1)
  | @abandoned path cs m m₁ p p₁ c r _ ha =>
    rcases Progress.accept_eq ha with ⟨samples, rfl, -⟩
    refine ⟨[], [[r]], rfl, rfl, .nil fun R hR => ?_⟩
    exact ⟨[r], List.mem_singleton_self _, by simpa using hR.1⟩
  | exhausted =>
    refine ⟨[], [], rfl, rfl, .nil ?_⟩
    rintro R ⟨r, hr, -⟩
    exact absurd hr List.not_mem_nil
  | @next path cs rs m p p₁ p' c r left hrow _ ih ihrest =>
    rcases ih rfl hfit.head with ⟨xs, ds, hfx, hdx, hsx⟩
    rcases ihrest hl hfit.tail with ⟨ys, es, hfy, hdy, hsy⟩
    refine ⟨xs ++ ys, ds ++ es, ?_, ?_, ?_⟩
    · rw [hfy, hfx, List.map_append, List.reverse_append, List.append_assoc]
      rfl
    · rw [hdy, hdx, List.map_append, List.reverse_append, List.append_assoc]
      rfl
    · have hapart : ∀ R, Task.Finds t (.row path cs c r) R →
          ¬ Task.Finds t (.rows path cs c rs) R := by
        rintro R ⟨-, hR⟩ ⟨i, hi, hiR, -⟩
        have hir : i ≠ r := fun he => (List.nodup_cons.mp hfit.2.1).1 (he ▸ hi)
        have hci : c ∈ t.row i := hfit.2.2 i (List.mem_cons_of_mem r hi)
        exact hR.notMem hci (List.mem_append_left _ hfit.1) (Finset.mem_erase.mpr ⟨hir, hiR⟩)
      apply (hsx.append hsy hapart).congr
      intro R
      simp only [Task.Finds, List.mem_cons, exists_eq_or_imp]
  | ended _ hne _ => exact absurd hl hne

theorem Explores.length_dropped (h : Explores rule visit t task m p left p') :
    (dropped p'.events).length + p.pruned = (dropped p.events).length + p'.pruned := by
  induction h with
  | solved _ _ _ => rfl
  | rejected _ _ _ => rfl
  | branched _ _ _ _ _ ih => exact ih
  | searched _ ha _ ih =>
    rcases Progress.accept_eq ha with ⟨samples, rfl, -⟩
    exact ih
  | abandoned _ ha =>
    rcases Progress.accept_eq ha with ⟨samples, rfl, -⟩
    exact Nat.succ_add_eq_add_succ _ _
  | exhausted => rfl
  | next _ _ ih ihrest => omega
  | ended _ _ ih => exact ih

/-- A derivation that neither prunes nor is cut short finds the sets that it is to find. -/
theorem Explores.enumerates (ho : t.Ordered) (hr : AlwaysChooses rule t p.rule)
    (hv : AlwaysProceeds visit) (h : Explores rule visit t task m p left p')
    (hs : p.samples = none) (hfit : task.Fits t) :
    ∃ qs, found p'.events = (qs.map (task.path ++ ·)).reverse ++ found p.events ∧
      Enumerates qs (task.Finds t) := by
  rcases h.surveys ho (h.proceeds hr hv) hfit with ⟨qs, ds, hf, hd, hsurvey⟩
  have hlen := h.length_dropped
  rw [(h.unpruned hs).2, hd, List.length_append, List.length_reverse, List.length_map] at hlen
  obtain rfl : ds = [] := List.eq_nil_of_length_eq_zero (by omega)
  exact ⟨qs, hf, hsurvey.enumerates⟩

theorem samples_begin (hp : rule.pruning = none) (state : σ) (visitor : ω)
    (events : List Event) : (rule.begin state visitor events).samples = none := by
  rw [BranchingRule.begin, hp]
  rfl

theorem pruned_of_searches {state : σ} {visitor : ω} (hp : rule.pruning = none)
    (hs : Searches rule state visit visitor t cs m left p') : p'.pruned = 0 :=
  (hs.unpruned (samples_begin hp state visitor _)).2

theorem exists_whole_search {state : σ} (hm : m.Under t cs) (hr : AlwaysChooses rule t state)
    (hv : AlwaysProceeds visit) (visitor : ω) :
    ∃ p', Searches rule state visit visitor t cs m (.ok .proceed) p' := by
  rcases exists_searches hr.choosesActive hr.answers hv.returns hm visitor with ⟨left, p', hs⟩
  obtain rfl : left = .ok .proceed := hs.proceeds hr hv
  exact ⟨p', hs⟩

/-- A whole search calls the visitor with the covers, each one once. -/
theorem searches_enumerate {state : σ} {visitor : ω} (hm : m.Under t cs)
    (hp : rule.pruning = none) (hr : AlwaysChooses rule t state) (hv : AlwaysProceeds visit)
    (hs : Searches rule state visit visitor t cs m left p') :
    ∃ sols : List (Solution L), callAll visit sols visitor = .ok p'.visitor ∧
      found p'.events = (sols.map (·.rows)).reverse ∧ p'.solutions = sols.length ∧
      Enumerates (sols.map (·.rows)) (t.IsCover cs) := by
  rcases hs.visits with ⟨sols, hvisits⟩
  rcases hs.enumerates hm.ordered hr hv (samples_begin hp state visitor _) trivial with
    ⟨qs, hf, henum⟩
  have hfound : found p'.events = (sols.map (·.rows)).reverse := by
    rw [hvisits.found, found_begin, List.append_nil]
  have hrows : sols.map (·.rows) = qs := by
    rw [hfound, found_begin, List.append_nil, List.reverse_inj] at hf
    rw [hf]
    exact List.map_id' qs
  rw [← hrows] at henum
  exact ⟨sols, hvisits.calls, hfound, hvisits.solutions.trans (Nat.zero_add _), henum⟩

/-- In a run with such a rule and such a visitor that makes fewer calls than there are words, the
visitor is called with every exact cover of the columns that are left, once with each, and with
nothing else. -/
theorem run_enumerates [DecidableEq L] {state : σ} {visitor : ω} (hm : m.Reached t cs)
    (hp : rule.pruning = none) (hr : AlwaysChooses rule t state) (hv : AlwaysProceeds visit)
    (hcalls : ∀ left p', Searches rule state visit visitor t cs m left p' →
      p'.nodes < Word.modulus) :
    ∃ out sols nodes, rule.run state visit visitor m = .ok out ∧
      callAll visit sols visitor = .ok out.visitor ∧
      found out.events = sols.map (·.rows) ∧
      (∀ s ∈ sols, s.rows.Nodup ∧ s.size = s.rows.toFinset.card) ∧
      (sols.map (·.rows.toFinset)).Nodup ∧
      (∀ R, R ∈ sols.map (·.rows.toFinset) ↔ t.IsCover cs R) ∧
      out.result = .ok ⟨sols.length, nodes, 0, false⟩ := by
  rcases exists_whole_search hm.under hr hv visitor with ⟨p', hs⟩
  have hpruned : p'.pruned = 0 := pruned_of_searches hp hs
  have hrun := run_of_searches hm.under hs (hcalls _ p' hs) (by rw [hpruned]; decide)
  rcases searches_enumerate hm.under hp hr hv hs with ⟨sols, hvisits, hfound, hsolutions, he⟩
  have hsets : sols.map (·.rows.toFinset) = (sols.map (·.rows)).map List.toFinset := by
    rw [List.map_map]
    rfl
  refine ⟨_, sols, p'.nodes, hrun, ?_, ?_, ?_, ?_, ?_, ?_⟩
  · rw [visitor_conclude]
    exact hvisits
  · rw [found_conclude, hfound, List.reverse_reverse]
  · intro s hsol
    have hn : s.rows.Nodup := he.nodup _ (List.mem_map_of_mem hsol)
    exact ⟨hn, (List.toFinset_card_of_nodup hn).symm⟩
  · rw [hsets]
    exact he.once
  · intro R
    rw [hsets]
    exact he.mem_iff R
  · simp [conclude, Progress.tally, hsolutions, hpruned]

def collect : Visitor L (List (List Nat)) := fun s w => .ok (.proceed, w ++ [s.rows])

theorem alwaysProceeds_collect : AlwaysProceeds (collect (L := L)) :=
  fun s w => ⟨w ++ [s.rows], rfl⟩

theorem callAll_collect (sols : List (Solution L)) (w : List (List Nat)) :
    callAll collect sols w = .ok (w ++ sols.map (·.rows)) := by
  induction sols generalizing w with
  | nil =>
    rw [List.map_nil, List.append_nil]
    rfl
  | cons s sols ih =>
    rw [callAll, List.foldlM_cons, List.map_cons, List.append_cons]
    exact ih (w ++ [s.rows])

theorem run_enumerates_sample : ∃ out, ∃ sols : List (Solution Char), ∃ nodes,
    BranchingRule.leftmost.run () collect [] sample = .ok out ∧ out.visitor = [[0, 1]] ∧
    (∀ R, R ∈ sols.map (·.rows.toFinset) ↔ sampleTable.IsCover [] R) ∧
    out.result = .ok ⟨sols.length, nodes, 0, false⟩ := by
  have hleft := alwaysChooses_leftmost (L := Char) sampleTable ()
  have hrun : ∃ out, BranchingRule.leftmost.run () collect [] sample = .ok out ∧
      out.visitor = [[0, 1]] ∧ out.result = .ok ⟨1, 3, 0, false⟩ := ⟨_, rfl, rfl, rfl⟩
  rcases hrun with ⟨out, hrun, hvisitor, htally⟩
  have hcalls : ∀ left p', Searches BranchingRule.leftmost () collect [] sampleTable [] sample
      left p' → p'.nodes < Word.modulus := by
    intro left p' hs
    rw [← (tally_eq hleft.choosesActive reached_sample.under hrun htally hs).2.1]
    decide
  rcases run_enumerates reached_sample rfl hleft (fun s w => ⟨w ++ [s.rows], rfl⟩) hcalls with
    ⟨out', sols, nodes, hrun', -, -, -, -, hcovers, hresult⟩
  obtain rfl : out = out' := Except.ok.inj (hrun.symm.trans hrun')
  exact ⟨out, sols, nodes, hrun, hvisitor, hcovers, hresult⟩

end DancingLinks.Search
