import DancingLinks.Proofs.Ascending

/-! # Every loop ends

The loops of a matrix stop when they are back where they started, and the search calls itself once
for a row of a column that it has just covered. None of this goes on for ever: while covers are
nested every ring is closed, and the rows chosen and the columns that are left together never
outnumber the columns that were left when the search began.
-/
namespace DancingLinks

variable {L σ ω : Type} {t : Table} {cs : List Nat} {m : CoverMatrix L}

namespace CoverMatrix

/-- Every walk over a matrix comes back to where it started, and so do the loops that cover columns
and those that undo them. -/
structure LoopsEnd (m : CoverMatrix L) (t : Table) (cs : List Nat) : Prop where
  active : m.activeColumns = .ok (t.active cs)
  row : ∀ r < m.rowCount, m.rowColumns r = .ok (t.row r)
  down : ∀ c < m.columnCount, m.down.forward (c + 1) = .ok ((t.rowsUnder cs c).map (t.entry · c))
  up : ∀ c < m.columnCount,
    m.down.backward (c + 1) = .ok ((t.rowsUnder cs c).map (t.entry · c)).reverse
  cover : ∀ c < m.columnCount, c ∉ cs → ∃ m', m.cover c = .ok m' ∧ m'.uncover c = .ok m
  uncover : ∀ before c, cs = before ++ [c] → ∃ m', m.uncover c = .ok m' ∧ m'.cover c = .ok m
  coverOthers : ∀ c < m.columnCount, ∀ r ∈ t.rowsUnder cs c, (∀ d ∈ t.row r, d ≠ c → d ∉ cs) →
    ∃ m', m.coverRowOthers (t.entry r c) = .ok m' ∧ m'.uncoverRowOthers (t.entry r c) = .ok m
  uncoverOthers : ∀ before r c, c ∈ t.row r → cs = before ++ t.others r c →
    ∃ m', m.uncoverRowOthers (t.entry r c) = .ok m' ∧ m'.coverRowOthers (t.entry r c) = .ok m

theorem Reached.loopsEnd [DecidableEq L] (hm : m.Reached t cs) : m.LoopsEnd t cs := by
  have hu := hm.under
  have hcount : m.columnCount = t.columnCount := hu.headers_size
  have hrows : m.rowCount = t.rowCount := by
    have hlen := congrArg List.length hu.rowHeads
    rwa [List.length_map, List.length_range, Array.length_toList] at hlen
  have hrow : ∀ r < t.rowCount, t.row r ≠ [] := by
    obtain ⟨m₀, moves, hbuilt, -⟩ := hm
    exact fun r hr => hbuilt.row_ne_nil _ (Table.row_mem_rows hr)
  obtain ⟨m₀, hs⟩ := hm.stacked
  constructor
  case active => exact hu.activeColumns
  case row => exact fun r hr => hu.rowColumns (hrows ▸ hr) (hrow r (hrows ▸ hr))
  case down => exact fun c hc => (hu.down c (hcount ▸ hc)).forward
  case up => exact fun c hc => (hu.down c (hcount ▸ hc)).backward
  case cover =>
    intro c hc hcs
    obtain ⟨m', hcover, huncover, -⟩ := hu.cover_step (hcount ▸ hc) hcs
    exact ⟨m', hcover, huncover⟩
  case uncover =>
    rintro before c rfl
    obtain ⟨m₁, hbelow, hfold, hapart⟩ := hs.below
    obtain ⟨m₂, hcover, huncover, -⟩ := hbelow.under.cover_step (hs.inRange c (by simp))
      (hapart c (by simp))
    rw [List.foldlM_cons, hcover] at hfold
    obtain rfl : m₂ = m := Except.ok.inj hfold
    exact ⟨m₁, huncover, hcover⟩
  case coverOthers =>
    intro c hc r hr hcs
    have hrow := (Table.mem_shownRows.mp hr).1
    obtain ⟨m', hcover, huncover, -⟩ := hu.others_step hrow fun d hd =>
      hcs d ((hu.ordered.mem_others hrow).mp hd).1 ((hu.ordered.mem_others hrow).mp hd).2
    exact ⟨m', hcover, huncover⟩
  case uncoverOthers =>
    rintro before r c hrow rfl
    obtain ⟨m₁, hbelow, hfold, hapart⟩ := hs.below
    obtain ⟨m₂, hcover, huncover, hfold', -⟩ := hbelow.under.others_step hrow hapart
    obtain rfl : m₂ = m := Except.ok.inj (hfold'.symm.trans hfold)
    exact ⟨m₁, huncover, hcover⟩

end CoverMatrix

namespace Search

open CoverMatrix

variable {rule : BranchingRule L σ} {visit : Visitor L ω} {p : Progress σ ω} {path : List Nat}
  {c r : Nat} {α β : Type}

theorem bind_congr_ok {x : Except Interruption α} {k k' : α → Except Interruption β}
    (h : ∀ a, x = .ok a → k a = k' a) : (x >>= k) = (x >>= k') := by
  cases x with
  | error i => rfl
  | ok a => exact h a rfl

theorem guard_congr_ok {x : Except Fault α} {k k' : α → Except Interruption β}
    (h : ∀ a, x = .ok a → k a = k' a) : (p.guard x >>= k) = (p.guard x >>= k') := by
  cases x with
  | error f => rfl
  | ok a => exact h a rfl

section Congruence

variable {descend descend' : List Nat → CoverMatrix L → Progress σ ω →
  Except Interruption (Exit L σ ω)}

theorem tryRow_congr (h : m.Under t cs) (hc : c ∈ t.row r) (hcs : ∀ d ∈ t.others r c, d ∉ cs)
    (hp : p.Sound rule) (hd : ∀ m₁ p₁, m₁.Under t (cs ++ t.others r c) → p₁.Sound rule →
      Reaches rule.select t p.rule p₁.rule →
      descend (path ++ [r]) m₁ p₁ = descend' (path ++ [r]) m₁ p₁) :
    tryRow descend path (t.entry r c) m p = tryRow descend' path (t.entry r c) m p := by
  obtain ⟨m₁, hcov, -, -, h₁⟩ := h.others_step hc hcs
  rw [tryRow, tryRow]
  refine guard_congr_ok fun row hrow => guard_congr_ok fun m₂ hm₂ => bind_congr_ok ?_
  obtain rfl : r = row := Except.ok.inj ((h.rowOf hc).symm.trans hrow)
  obtain rfl : m₁ = m₂ := Except.ok.inj (hcov.symm.trans hm₂)
  rintro ⟨accepted, p₁⟩ hacc
  cases accepted with
  | false => rfl
  | true =>
    have hreach : Reaches rule.select t p.rule p₁.rule := Progress.rule_accept hacc ▸ .start
    simp only [if_true, hd m₁ p₁ h₁ (hp.accept hacc) hreach]

theorem branch_congr {above rs : List Nat} {fuel : Nat} (h : m.Under t cs) (hc : c < t.columnCount)
    (hrows : t.rowsUnder cs c = above ++ rs) (hcs : ∀ r ∈ rs, ∀ d ∈ t.others r c, d ∉ cs)
    (hpath : path.length < t.columnCount) (hp : p.Sound rule)
    (hd : ∀ r ∈ rs, ∀ m₁ p₁, m₁.Under t (cs ++ t.others r c) → p₁.Sound rule →
      Reaches rule.select t p.rule p₁.rule →
      descend (path ++ [r]) m₁ p₁ = descend' (path ++ [r]) m₁ p₁ ∧
      Follows rule visit t (.position (path ++ [r]) (cs ++ t.others r c)) m₁ p₁
        (descend' (path ++ [r]) m₁ p₁)) :
    branch descend path fuel (rs.head?.map (t.entry · c)) m p =
      branch descend' path fuel (rs.head?.map (t.entry · c)) m p := by
  induction rs generalizing above fuel p with
  | nil => cases fuel <;> rfl
  | cons r rs ih =>
    cases fuel with
    | zero => rfl
    | succ fuel =>
      have hrow : c ∈ t.row r := Table.mem_row_of_rowsUnder hrows
      have hhead := hd r List.mem_cons_self
      have htry := tryRow_follows h hrow (hcs r List.mem_cons_self) hpath hp
        fun m₁ p₁ h₁ hp₁ hs₁ => (hhead m₁ p₁ h₁ hp₁ hs₁).2
      simp only [List.head?_cons, Option.map_some, branch]
      rw [tryRow_congr h hrow (hcs r List.mem_cons_self) hp
        fun m₁ p₁ h₁ hp₁ hs₁ => (hhead m₁ p₁ h₁ hp₁ hs₁).1]
      apply bind_congr_ok
      rintro ⟨left, m₁, p₁⟩ hx
      rw [hx] at htry
      obtain ⟨rfl, hex⟩ := htry
      rcases left with r' | (_ | _)
      · rfl
      · refine guard_congr_ok fun next hnext => ?_
        obtain rfl : rs.head?.map (t.entry · c) = next :=
          Except.ok.inj ((h.nextInColumn hc hrows).symm.trans hnext)
        have hrows' : t.rowsUnder cs c = (above ++ [r]) ++ rs := by rw [hrows, List.append_cons]
        exact ih hrows' (fun i hi => hcs i (List.mem_cons_of_mem r hi)) (hex.sound hp)
          fun i hi m₂ p₂ h₂ hp₂ hs₂ =>
            hd i (List.mem_cons_of_mem r hi) m₂ p₂ h₂ hp₂ (hex.reaches.trans hs₂)
      · rfl

/-- The search of a position makes use of the searches behind the rows of an active column only. -/
theorem searchFrom_congr (hr : ChoosesActive rule t p.rule) (h : m.Under t cs) (hp : p.Sound rule)
    (hpath : path.length + (t.active cs).length ≤ t.columnCount)
    (hd : ∀ c ∈ t.active cs, ∀ r m₁ p₁, m₁.Under t (cs ++ [c] ++ t.others r c) → p₁.Sound rule →
      Reaches rule.select t p.rule p₁.rule →
      descend (path ++ [r]) m₁ p₁ = descend' (path ++ [r]) m₁ p₁ ∧
      Follows rule visit t (.position (path ++ [r]) (cs ++ [c] ++ t.others r c)) m₁ p₁
        (descend' (path ++ [r]) m₁ p₁)) :
    searchFrom rule visit descend path m p = searchFrom rule visit descend' path m p := by
  by_cases hcalls : p.nodes + 1 < Word.modulus
  case neg =>
    simp only [searchFrom, Progress.enter_of_le (not_lt.mp hcalls), bind, Except.bind]
  case pos =>
  rw [searchFrom, searchFrom, Progress.enter_of_lt hcalls]
  refine bind_congr_ok fun q hq => guard_congr_ok fun solved hsolved => ?_
  obtain rfl : p.entered path = q := Except.ok.inj hq
  obtain rfl : decide (t.active cs = []) = solved :=
    Except.ok.inj (h.isSolved.symm.trans hsolved)
  by_cases hs : t.active cs = []
  · simp only [hs, decide_true, if_true]
  · simp only [hs, decide_false, Bool.false_eq_true, if_false]
    apply guard_congr_ok
    rintro ⟨choice, s⟩ hsel
    cases choice with
    | error r => rfl
    | ok c =>
      have hc := hr.mem_active h hs hsel
      have hcs : c ∉ cs := (Table.mem_active.mp hc).2
      have hct : c < t.columnCount := (Table.mem_active.mp hc).1.lt
      obtain ⟨m₁, hcov, -, h₁⟩ := h.cover_step hct hcs
      have hpos : 0 < (t.active cs).length := List.length_pos_of_mem hc
      have hp₁ : (((p.entered path).chosen s).note (.branching path c (m.size c))).Sound rule :=
        { hp.entered path with }
      refine guard_congr_ok fun m₂ hm₂ => guard_congr_ok fun first hfirst => ?_
      obtain rfl : m₁ = m₂ := Except.ok.inj (hcov.symm.trans hm₂)
      obtain rfl : (t.rowsUnder cs c).head?.map (t.entry · c) = first :=
        Except.ok.inj ((h₁.firstInColumn_last hct hcs).symm.trans hfirst)
      have hrows : t.rowsUnder (cs ++ [c]) c = [] ++ t.rowsUnder cs c :=
        Table.rowsUnder_concat_self hcs
      apply congrArg (· >>= _)
      have hreach : Reaches rule.select t p.rule s := .asked .start h hs hsel
      exact branch_congr h₁ hct hrows (fun r hr => h.ordered.others_notMem hcs hr) (by omega) hp₁
        fun r _ m₂ p₂ h₂ hp₂ hs₂ => hd c hc r m₂ p₂ h₂ hp₂ (hreach.trans hs₂)

end Congruence

def fits (room : Nat) (path : List Nat) (m : CoverMatrix L) : Bool :=
  match m.activeColumns with
  | .ok active => path.length + active.length ≤ room
  | .error _ => false

/-- The search that gives up, with `otherwise`, where the rows chosen and the columns that are left
are more than `room` together, and where it would go deeper than it may. -/
def exploreWithin (rule : BranchingRule L σ) (visit : Visitor L ω) (room : Nat)
    (otherwise : Except Interruption (Exit L σ ω)) :
    Nat → List Nat → CoverMatrix L → Progress σ ω → Except Interruption (Exit L σ ω)
  | 0, _, _, _ => otherwise
  | depth + 1, path, m, p =>
    if fits room path m then
      searchFrom rule visit (exploreWithin rule visit room otherwise depth) path m p
    else otherwise

theorem fits_of_under {room : Nat} (h : m.Under t cs)
    (hroom : path.length + (t.active cs).length ≤ room) : fits room path m = true := by
  rw [fits, h.activeColumns]
  exact decide_eq_true hroom

/-- A search never gives up for want of room or depth. -/
theorem exploreWithin_eq {room depth depth' : Nat} (hr : ChoosesActive rule t p.rule)
    (otherwise : Except Interruption (Exit L σ ω)) (hle : room ≤ t.columnCount) (h : m.Under t cs)
    (hp : p.Sound rule) (hroom : path.length + (t.active cs).length ≤ room)
    (hdepth : (t.active cs).length < depth) (hdepth' : (t.active cs).length < depth') :
    exploreWithin rule visit room otherwise depth path m p =
      explore rule visit depth' path m p := by
  induction depth generalizing depth' path cs m p with
  | zero => exact absurd hdepth (Nat.not_lt_zero _)
  | succ depth ih =>
    cases depth' with
    | zero => exact absurd hdepth' (Nat.not_lt_zero _)
    | succ depth' =>
      rw [exploreWithin, if_pos (fits_of_under h hroom), explore]
      apply searchFrom_congr hr h hp (hroom.trans hle)
      intro c hc r m₁ p₁ h₁ hp₁ hs₁
      have hlt := Table.length_active_others_lt hc r
      have hroom₁ :
          (path ++ [r]).length + (t.active (cs ++ [c] ++ t.others r c)).length ≤ room := by
        rw [List.length_append, List.length_singleton]
        omega
      exact ⟨ih (hr.later hs₁) h₁ hp₁ hroom₁ (by omega) (by omega),
        explore_follows (hr.later hs₁) h₁ hp₁ (hroom₁.trans hle) (by omega)⟩

theorem length_le_of_mem_found {rows : List Nat} {state : σ} (hm : m.Under t cs)
    (hr : ChoosesActive rule t state) (visit : Visitor L ω) (visitor : ω)
    (hrows : rows ∈ found (happened (rule.run state visit visitor m))) :
    rows.length ≤ (t.active cs).length := by
  obtain ⟨left, p', hs, hpick⟩ := exists_searches_spared hm hr visit visitor
  obtain ⟨qs, fs, rfl, rfl, hsub, hasc⟩ := hs.ascends hm
  have hmem : rows ∈ (found p'.events).reverse := (hpick _ fun _ => rfl).subset hrows
  exact (hasc.all rows (hsub.subset hmem)).length_le

/-- While covers are nested every loop over the matrix ends, and so does every search of it, unless
the rule, the visitor or a counter is to blame. At each of its calls the rows chosen and the columns
that are left are no more than the columns that were left at the beginning, so that calls are nested
no deeper than that, and once more for the covers, whose rows are no more either. -/
theorem loops_end [DecidableEq L] (hm : m.Reached t cs) :
    m.LoopsEnd t cs ∧ ∃ active, m.activeColumns = .ok active ∧
      ∀ {σ ω : Type} (rule : BranchingRule L σ) (visit : Visitor L ω) (state : σ) (visitor : ω),
        ChoosesActive rule t state →
        (∀ i, rule.run state visit visitor m = .error i → Blame rule visit t state i) ∧
        (∀ otherwise, rule.run state visit visitor m =
          (exploreWithin rule visit active.length otherwise (active.length + 1) [] m.close
            (rule.begin state visitor m.closingEvents)).map fun e => conclude e.1 e.2.1 e.2.2) ∧
        ∀ rows ∈ found (happened (rule.run state visit visitor m)),
          rows.length ≤ active.length := by
  have hu := hm.under
  refine ⟨hm.loopsEnd, t.active cs, hu.activeColumns, fun rule visit state visitor hr => ?_⟩
  refine ⟨(run_follows hr hu visitor).1, fun otherwise => ?_, fun rows hrows => ?_⟩
  · have hclose : m.close.Under t cs := { hu with }
    rw [run_eq, exploreWithin_eq hr otherwise (t.length_active_le cs) hclose
      (sound_begin rule state visitor m) (Nat.zero_add _).le (Nat.lt_succ_self _)
      (length_active_lt hu)]
  · exact length_le_of_mem_found hu hr visit visitor hrows

/-- With the first column of the sample covered, one column is left. -/
theorem loops_end_sample : ∃ m : CoverMatrix Char, sample.cover 0 = .ok m ∧
    (∃ m', m.uncover 0 = .ok m') ∧
    (∃ m', m.coverRowOthers 4 = .ok m' ∧ m'.uncoverRowOthers 4 = .ok m) ∧
    ∃ out, (exploreWithin .leftmost collect 1 (.error ⟨.endlessDescent, []⟩) 2 [] m.close
      ((BranchingRule.leftmost (L := Char)).begin () [] m.closingEvents)).map
        (fun e => conclude e.1 e.2.1 e.2.2) = .ok out ∧ out.visitor = [[1]] := by
  have hrun : ∃ m, sample.cover 0 = .ok m ∧ m.columnCount = 3 ∧ m.activeColumns = .ok [1] ∧
      ∃ out, BranchingRule.leftmost.run () collect [] m = .ok out ∧ out.visitor = [[1]] :=
    ⟨_, rfl, rfl, rfl, _, rfl, rfl⟩
  obtain ⟨m, hcover, hcount, hleft, out, hrun, hvisitor⟩ := hrun
  have hm : m.Reached sampleTable [0] := by
    refine ⟨sample, [.cover 0], built_sample, .cover (by decide) (by decide) .nil, ?_⟩
    rw [List.foldlM_cons, Move.apply, hcover]
    rfl
  have hchoose := (alwaysChooses_leftmost (L := Char) sampleTable ()).choosesActive
  obtain ⟨hloops, active, hactive, hsearch⟩ := loops_end hm
  obtain rfl : [1] = active := Except.ok.inj (hleft.symm.trans hactive)
  obtain ⟨-, hwithin, -⟩ := hsearch .leftmost collect () [] hchoose
  obtain ⟨m', huncover, -⟩ := hloops.uncover [] 0 rfl
  refine ⟨m, hcover, ⟨m', huncover⟩, ?_, out, ?_, hvisitor⟩
  · exact hloops.coverOthers 0 (by rw [hcount]; decide) 0 (by decide) (by decide)
  · rw [← hrun, hwithin (.error ⟨.endlessDescent, []⟩)]
    rfl

end Search

end DancingLinks
