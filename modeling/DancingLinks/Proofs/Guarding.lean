import DancingLinks.Proofs.Growing

/-! # The guard against covering twice

Whether a primary column is covered is read off the links alone: its header names a node that does
not name it back. That node may leave the ring later and keep the link it had then, but the header
was gone before, so the link leads elsewhere. Hence the guard turns down exactly the primary columns
that are covered, in whatever order they and their neighbours were.
-/
namespace DancingLinks

namespace Links

variable {links links' : Links} {s t : Nat} {xs : List Nat}

/-- The node that `t` names as the one before it goes on with another node. -/
def Dropped (links : Links) (t : Nat) : Prop :=
  ∃ l before, links[t]? = some l ∧ links[l.prev]? = some before ∧ before.next ≠ t

theorem Dropped.isUnlinked (h : Dropped links t) : links.isUnlinked t = .ok true := by
  obtain ⟨l, before, ht, hbefore, hne⟩ := h
  simp only [Links.isUnlinked, link_of_getElem? ht, link_of_getElem? hbefore, bind, Except.bind,
    if_neg hne]
  rfl

theorem IsRing.dropped (h : IsRing links ↑(t :: xs)) (hxs : xs ≠ [])
    (hu : links.unlink t = .ok links') : Dropped links' t := by
  obtain ⟨p, n, hp, hn, -, -, -, hhead⟩ := h.neighbours
  rw [unlink_of_joined hp hn] at hu
  obtain rfl := Except.ok.inj hu
  have hnt : n ≠ t := by
    obtain rfl : n = xs.head hxs := hhead _ (List.head?_eq_some_head hxs)
    exact fun heq => (List.nodup_cons.mp h.nodup_cons).1 (heq ▸ List.head_mem hxs)
  have ht := hp.getElem? hn
  obtain ⟨⟨lp, hlp, -⟩, -⟩ := hp
  refine ⟨⟨p, n⟩, ⟨if n = p then p else lp.prev, n⟩, ?_, ?_, hnt⟩
  · simp [getElem?_splice, ht, hnt]
  · simp [getElem?_splice, hlp]

/-- A node that is out stays out when a node of another ring is unlinked. -/
theorem Dropped.unlink (h : Dropped links t) (hs : IsRing links ↑(s :: xs)) (ht : t ∉ s :: xs)
    (hu : links.unlink s = .ok links') : Dropped links' t := by
  obtain ⟨p, n, hp, hn, -, hmem, -⟩ := hs.neighbours
  rw [unlink_of_joined hp hn] at hu
  obtain rfl := Except.ok.inj hu
  have hnt : n ≠ t := fun heq => ht (heq ▸ hmem)
  obtain ⟨l, before, hl, hbefore, hne⟩ := h
  refine ⟨⟨l.prev, if p = t then n else l.next⟩,
    ⟨if n = l.prev then p else before.prev, if p = l.prev then n else before.next⟩, ?_, ?_, ?_⟩
  · simp [getElem?_splice, hl, hnt]
  · simp [getElem?_splice, hbefore]
  · show (if p = l.prev then n else before.next) ≠ t
    split
    · exact hnt
    · exact hne

end Links

namespace CoverMatrix

open Links

variable {L : Type} {m m' m₀ : CoverMatrix L} {t : Table} {c node : Nat} {cs : List Nat}

theorem around_keeps (keeps : CoverMatrix L → Prop) {ring : CoverMatrix L → Links}
    {step : Link → Nat} {act : CoverMatrix L → Nat → Except Fault (CoverMatrix L)} {head : Nat}
    (hact : ∀ m m' node, keeps m → act m node = .ok m' → keeps m')
    (h : m.around ring step act head = .ok m') (hm : keeps m) : keeps m' := by
  have hsweep : ∀ fuel cursor (m : CoverMatrix L), keeps m →
      sweep ring step act head fuel cursor m = .ok m' → keeps m' := by
    intro fuel
    induction fuel with
    | zero => rintro cursor m - ⟨⟩
    | succ fuel ih =>
      intro cursor m hm h
      rw [sweep] at h
      split at h
      · exact Except.ok.inj h ▸ hm
      · obtain ⟨m₁, h₁, h⟩ := bind_eq_ok.mp h
        obtain ⟨l, -, h⟩ := bind_eq_ok.mp h
        exact ih _ _ (hact _ _ _ hm h₁) h
  obtain ⟨l, -, h⟩ := bind_eq_ok.mp h
  exact hsweep _ _ m hm h

theorem across_hideRow (h : m.hideRow node = .ok m') : m'.across = m.across := by
  obtain ⟨m₁, h₁, h⟩ := bind_eq_ok.mp h
  obtain ⟨removed, -, h⟩ := bind_eq_ok.mp h
  obtain rfl := Except.ok.inj h
  have hentry (m₁ m₂ : CoverMatrix L) (node : Nat) (hm₁ : m₁.across = m.across)
      (h₂ : m₁.hideEntry node = .ok m₂) : m₂.across = m.across := by
    obtain ⟨column, down, headers, -, -, -, rfl⟩ := hideEntry_eq_ok.mp h₂
    exact hm₁
  have hacross : m₁.across = m.across := around_keeps (·.across = m.across) hentry h₁ rfl
  exact hacross

/-- Of the links across, a cover changes only those around the header. -/
theorem across_cover (h : m.cover c = .ok m') : m.across.unlink (c + 1) = .ok m'.across := by
  obtain ⟨head, hhead, h⟩ := bind_eq_ok.mp h
  obtain ⟨next, hnext, hhead⟩ := bind_eq_ok.mp hhead
  obtain ⟨-, rfl⟩ := Word.add_eq_ok.mp hnext
  split at hhead
  case isFalse => cases hhead
  obtain rfl := Except.ok.inj hhead
  obtain ⟨covered, -, h⟩ := bind_eq_ok.mp h
  split at h
  case isTrue => cases h
  obtain ⟨m₁, h₁, h⟩ := bind_eq_ok.mp h
  obtain ⟨across, hu, rfl⟩ := unlinkHeader_eq_ok.mp h₁
  have hacross : m'.across = across := by
    have hrow (m₁ m₂ : CoverMatrix L) (node : Nat) (hm₁ : m₁.across = across)
        (h₂ : m₁.hideRow node = .ok m₂) : m₂.across = across := (across_hideRow h₂).trans hm₁
    exact around_keeps (·.across = across) hrow h rfl
  rw [hu, hacross]

/-- The ring of the header of a column that is not covered. No header of a covered primary column is
in it, and a primary column shares it with the root. -/
theorem Under.header_ring (h : m.Under t cs) (hc : c < t.columnCount) (hcs : c ∉ cs) :
    ∃ xs, IsRing m.across ↑((c + 1) :: xs) ∧ (t.IsPrimary c → xs ≠ []) ∧
      ∀ d ∈ cs, t.IsPrimary d → d + 1 ∉ (c + 1) :: xs := by
  by_cases hp : t.IsPrimary c
  · obtain ⟨as, bs, hab⟩ := List.append_of_mem (Table.mem_active.mpr ⟨hp, hcs⟩)
    have hring : IsRing m.across ↑((c + 1) :: (bs.map (· + 1) ++ 0 :: as.map (· + 1))) := by
      have hroot := h.across.root
      rw [hab, List.map_append, List.map_cons, ← List.cons_append] at hroot
      exact hroot.rotate
    refine ⟨_, hring, fun _ => by simp, fun d hd _ hm => ?_⟩
    have hactive : d ∈ t.active cs := by
      rw [hab]
      simpa [or_comm, or_left_comm] using hm
    exact (Table.mem_active.mp hactive).2 hd
  · refine ⟨[], h.across.aside c hc hp, fun hp' => absurd hp' hp, fun d _ hd hm => ?_⟩
    obtain rfl : d = c := by simpa using hm
    exact hp hd

theorem Stacked.dropped (h : Stacked m₀ t cs m) (hp : t.IsPrimary c) (hc : c ∈ cs) :
    Dropped m.across (c + 1) := by
  induction cs using List.reverseRecOn generalizing m with
  | nil => exact absurd hc List.not_mem_nil
  | append_singleton cs d ih =>
    obtain ⟨m₁, hbelow, hfold, hapart⟩ := h.below
    have hcover : m₁.cover d = .ok m := by
      obtain ⟨m₂, h₂, hlast⟩ := bind_eq_ok.mp hfold
      rwa [← Except.ok.inj hlast]
    have hd : d < t.columnCount := h.inRange d (by simp)
    obtain ⟨xs, hring, hne, hout⟩ := hbelow.under.header_ring hd (hapart d (by simp))
    by_cases hcd : c = d
    · subst hcd
      exact hring.dropped (hne hp) (across_cover hcover)
    · have hcs : c ∈ cs := by simpa [hcd] using hc
      exact (ih hbelow hcs).unlink hring (hout c hcs hp) (across_cover hcover)

/-- A header looks out of its ring exactly if its column is primary and covered. -/
theorem Stacked.isUnlinked (h : Stacked m₀ t cs m) (hc : c < t.columnCount) :
    ∃ out, m.across.isUnlinked (c + 1) = .ok out ∧ (out = true ↔ t.IsPrimary c ∧ c ∈ cs) := by
  by_cases hp : t.IsPrimary c
  · by_cases hcs : c ∈ cs
    · exact ⟨true, (h.dropped hp hcs).isUnlinked, by simp [hp, hcs]⟩
    · obtain ⟨xs, hring, -⟩ := h.under.header_ring hc hcs
      exact ⟨false, hring.isUnlinked, by simp [hcs]⟩
  · exact ⟨false, (h.under.across.aside c hc hp).isUnlinked, by simp [hp]⟩

theorem IsFrame.headOf_of_le (h : m.IsFrame t) (hc : t.columnCount ≤ c) :
    m.headOf c = .error (if c < Word.max then .notAColumn c else .overflow) := by
  have hword : c < Word.max ↔ c + 1 < Word.modulus := Nat.lt_sub_iff_add_lt
  by_cases hlt : c + 1 < Word.modulus
  · have hhead : ¬ c + 1 < m.headers.size + 1 := by
      rw [h.headers_size]
      omega
    rw [CoverMatrix.headOf, Word.add_of_lt hlt, if_pos (hword.mpr hlt)]
    simp only [bind, Except.bind, if_neg hhead]
    rfl
  · rw [CoverMatrix.headOf, Word.add, Word.check, if_neg hlt, if_neg (hword.not.mpr hlt)]
    rfl

theorem Stacked.cover_covered (h : Stacked m₀ t cs m) (hp : t.IsPrimary c) (hc : c ∈ cs) :
    m.cover c = .error (.alreadyCovered c) := by
  have hlt : c < m.headers.size := by
    rw [h.under.headers_size]
    exact hp.lt
  have hprimary := (h.under.header_primary hlt).mpr hp
  have hcovered : m.isCoveredPrimary c (c + 1) = .ok true := by
    simp only [isCoveredPrimary, header, dif_pos hlt, bind, Except.bind, hprimary, if_true,
      (h.dropped hp hc).isUnlinked]
  simp only [CoverMatrix.cover, h.under.headOf hp.lt, bind, Except.bind, hcovered]
  rfl

/-- Covering is turned down for the primary columns that are covered and for numbers of no column,
and the message names the argument. Every other column can be covered, and the latest one covered
uncovered. -/
theorem guard_is_exact [DecidableEq L] (hm : m.Reached t cs) (c : Nat) :
    (t.IsPrimary c → c ∈ cs → m.cover c = .error (.alreadyCovered c) ∧
      (Fault.alreadyCovered c).message? = some s!"column {c} must not already be covered") ∧
    (m.columnCount ≤ c → c < Word.max → m.cover c = .error (.notAColumn c) ∧
      (Fault.notAColumn c).message? = some s!"{c} must be a column") ∧
    (Word.max ≤ c → m.columnCount ≤ c ∧ m.cover c = .error .overflow) ∧
    (c < m.columnCount → c ∉ cs → ∃ m', m.cover c = .ok m' ∧ m'.Under t (cs ++ [c])) ∧
    (∀ before, cs = before ++ [c] → ∃ m', m.uncover c = .ok m' ∧ m'.Under t before) ∧
    (c < m.columnCount →
      ∃ out, m.across.isUnlinked (c + 1) = .ok out ∧ (out = true ↔ t.IsPrimary c ∧ c ∈ cs)) := by
  obtain ⟨m₀, hs⟩ := hm.stacked
  have hu := hs.under
  have hcount : m.columnCount = t.columnCount := hu.headers_size
  have hbeyond (hc : t.columnCount ≤ c) :
      m.cover c = .error (if c < Word.max then .notAColumn c else .overflow) := by
    rw [CoverMatrix.cover, hu.headOf_of_le hc]
    rfl
  rw [hcount]
  refine ⟨fun hp hc => ⟨hs.cover_covered hp hc, rfl⟩, fun hc hlt => ⟨?_, rfl⟩, fun hc => ?_, ?_, ?_,
    hs.isUnlinked⟩
  · rw [hbeyond hc, if_pos hlt]
  · have hlt : t.columnCount < Word.modulus := (t.columnCount_lt_start _).trans hu.nodeCount_lt
    have hle : t.columnCount ≤ c := (Nat.le_sub_one_of_lt hlt).trans hc
    exact ⟨hle, by rw [hbeyond hle, if_neg hc.not_gt]⟩
  · intro hc hcs
    obtain ⟨m', hcover, -, hu'⟩ := hu.cover_step hc hcs
    exact ⟨m', hcover, hu'⟩
  · rintro before rfl
    obtain ⟨m', huncover, hs'⟩ := hs.uncover
    exact ⟨m', huncover, hs'.under⟩

/-- Both primary columns of the sample are covered, the second one first, and with them the column
that is not primary. -/
theorem guard_is_exact_sample : ∃ m : CoverMatrix Char,
    [Move.cover 1, .cover 2, .cover 0].foldlM Move.apply sample = .ok m ∧
    m.cover 0 = .error (.alreadyCovered 0) ∧ m.cover 1 = .error (.alreadyCovered 1) ∧
    m.cover 3 = .error (.notAColumn 3) ∧ m.across.isUnlinked 3 = .ok false ∧
    ∃ m', m.uncover 0 = .ok m' ∧ m'.Under sampleTable [1, 2] := by
  have hm : ∃ m, [Move.cover 1, .cover 2, .cover 0].foldlM Move.apply sample = .ok m := ⟨_, rfl⟩
  obtain ⟨m, hm⟩ := hm
  have hreached : m.Reached sampleTable [1, 2, 0] :=
    ⟨sample, _, built_sample, .cover (by decide) (by decide) (.cover (by decide) (by decide)
      (.cover (by decide) (by decide) .nil)), hm⟩
  have hcount : m.columnCount = 3 := hreached.under.headers_size
  obtain ⟨hzero, -, -, -, huncover, -⟩ := guard_is_exact hreached 0
  obtain ⟨hone, -⟩ := guard_is_exact hreached 1
  obtain ⟨-, hthree, -⟩ := guard_is_exact hreached 3
  obtain ⟨-, -, -, -, -, hout⟩ := guard_is_exact hreached 2
  obtain ⟨out, hunlinked, hiff⟩ := hout (hcount ▸ by decide)
  have hfalse : out = false := by
    rw [← Bool.not_eq_true, hiff]
    decide
  exact ⟨m, hm, (hzero (by decide) (by decide)).1, (hone (by decide) (by decide)).1,
    (hthree hcount.le (by decide)).1, hfalse ▸ hunlinked, huncover [1, 2] rfl⟩

end CoverMatrix

end DancingLinks
