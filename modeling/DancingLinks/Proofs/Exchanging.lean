import DancingLinks.Proofs.Nesting

/-! # Steps that may change places

A new entry goes to the bottom of its column. Hiding an entry that is not the last of its column, or
an entry of another column, touches none of the links that the new entry needs, and neither do the
other steps of covering; so a row may be added before such a step or after, with the same result.
-/
namespace DancingLinks

theorem Word.add_eq_ok {a b n : Nat} :
    Word.add a b = .ok n ↔ a + b < Word.modulus ∧ a + b = n := by
  rw [Word.add, Word.check]
  split <;> simp_all

theorem Word.sub_eq_ok {a b n : Nat} : Word.sub a b = .ok n ↔ b ≤ a ∧ a - b = n := by
  rw [Word.sub]
  split <;> simp_all

/-- Two steps from `a` lead to one place, whichever is taken first. -/
def Diamond {α : Type} (R S : α → α → Prop) (a : α) : Prop :=
  ∀ ⦃b c⦄, R a b → S a c → ∃ d, S b d ∧ R c d

/-- The operation answers `b` when given `a`. -/
def Takes {α : Type} (f : α → Except Fault α) (a b : α) : Prop := f a = .ok b

theorem bind_eq_ok {α β : Type} {x : Except Fault α} {k : α → Except Fault β} {b : β} :
    (x >>= k) = .ok b ↔ ∃ a, x = .ok a ∧ k a = .ok b := by
  cases x with
  | error e => simp [bind, Except.bind]
  | ok a => simp [bind, Except.bind]

namespace Diamond

variable {α : Type} {R S : α → α → Prop} {f g : α → Except Fault α} {a : α}

theorem symm (h : Diamond R S a) : Diamond S R a := by
  intro b c hb hc
  obtain ⟨d, hd, hd'⟩ := h hc hb
  exact ⟨d, hd', hd⟩

theorem pure (R : α → α → Prop) (a : α) : Diamond R (Takes Pure.pure) a := by
  rintro b c hb ⟨⟩
  exact ⟨b, rfl, hb⟩

/-- One operation after another, of which the second starts from where the first led. -/
theorem bind (h : Diamond R (Takes f) a) (h' : ∀ b, f a = .ok b → Diamond R (Takes g) b) :
    Diamond R (Takes fun a => f a >>= g) a := by
  intro b d hb hd
  obtain ⟨c, hc, hd⟩ := bind_eq_ok.mp hd
  obtain ⟨e, he, hce⟩ := h hb hc
  obtain ⟨k, hk, hdk⟩ := h' c hc hce hd
  exact ⟨k, bind_eq_ok.mpr ⟨e, he, hk⟩, hdk⟩

end Diamond

namespace Links

variable {links links' : Links} {a p n t x z : Nat} {xs ys : List Nat}

theorem getElem?_addNode (i : Nat) :
    links.addNode[i]? = if i = links.size then some (.alone i) else links[i]? := by
  rw [addNode, Array.getElem?_push]
  split <;> simp_all

theorem Joined.addNode (h : Joined links p n) : Joined links.addNode p n := by
  have hp := h.left_lt
  have hn := h.right_lt
  simpa only [Joined, getElem?_addNode, if_neg hp.ne, if_neg hn.ne] using h

theorem diamond_addNode (hp : Joined links p x) (hn : Joined links x n) :
    Diamond (fun l l' => l.addNode = l') (Takes (unlink · x)) links := by
  rintro - links' rfl hu
  rw [Takes, unlink_of_joined hp hn] at hu
  have hsame : splice links.addNode p n n p = links'.addNode := by
    rw [← Except.ok.inj hu]
    apply Array.ext_getElem?
    intro i
    have hpi := hp.left_lt
    have hni := hn.right_lt
    simp only [getElem?_splice, getElem?_addNode, size_splice]
    by_cases hi : i = links.size
    · have hpi' : p ≠ i := by omega
      have hni' : n ≠ i := by omega
      rw [if_pos hi, if_pos hi, Option.map_some, if_neg hpi', if_neg hni']
    · rw [if_neg hi, if_neg hi]
  exact ⟨links'.addNode, by rw [Takes, unlink_of_joined hp.addNode hn.addNode, hsame], rfl⟩

/-- Two splices that overwrite different links may be done in either order. -/
theorem splice_splice {b c d m q : Nat} (hp : p ≠ q) (hn : n ≠ m) :
    splice (splice links p b n a) q c m d = splice (splice links q c m d) p b n a := by
  apply Array.ext_getElem?
  intro i
  simp only [getElem?_splice, Option.map_map]
  apply Option.map_congr
  intro l _
  have hpq : p = i → q ≠ i := fun hi hq => hp (hi.trans hq.symm)
  have hnm : n = i → m ≠ i := fun hi hm => hn (hi.trans hm.symm)
  by_cases hpi : p = i <;> by_cases hni : n = i <;> simp [hpi, hni, hpq, hnm]

theorem splice_set {b : Nat} {l : Link} (ht : t < links.size) (hp : t ≠ p) (hn : t ≠ n) :
    (splice links p b n a).set t l (by simpa using ht) = splice (links.set t l) p b n a := by
  apply Array.ext_getElem?
  intro i
  simp only [getElem?_splice, Array.getElem?_set]
  by_cases hi : t = i
  · subst hi
    simp [hp.symm, hn.symm]
  · simp [hi]

/-- A node may be put before `a` before a node further inside is unlinked or after. -/
theorem diamond_inserts (hz : Joined links z a) (hp : Joined links p x) (hn : Joined links x n)
    (hxz : x ≠ z) (hxa : x ≠ a) (ht : t < links.size) (htx : t ≠ x) (htp : t ≠ p)
    (htn : t ≠ n) : Diamond (Takes (insertBefore · a t)) (Takes (unlink · x)) links := by
  intro links₁ links₂ ha hu
  have hpz : p ≠ z := by
    rintro rfl
    obtain ⟨⟨⟨l, hl, hx⟩, -⟩, ⟨l', hl', ha⟩, -⟩ := And.intro hp hz
    simp_all
  have hna : n ≠ a := by
    rintro rfl
    obtain ⟨⟨-, l, hl, hx⟩, -, l', hl', hz⟩ := And.intro hn hz
    simp_all
  rw [Takes, insertBefore_of_joined hz ht, Except.ok.injEq] at ha
  rw [Takes, unlink_of_joined hp hn, Except.ok.injEq] at hu
  have hset {u v : Nat} (hu : t ≠ u) (hv : t ≠ v) (h : Joined links u v) :
      Joined (links.set t ⟨z, a⟩) u v := by
    simpa only [Joined, Array.getElem?_set_ne ht hu, Array.getElem?_set_ne ht hv] using h
  have hp' : Joined links₁ p x := by
    rw [← ha]
    exact (hset htp htx hp).splice hpz hxa
  have hn' : Joined links₁ x n := by
    rw [← ha]
    exact (hset htx htn hn).splice hxz hna
  have hz' : Joined links₂ z a := by
    rw [← hu]
    exact hz.splice hpz.symm hna.symm
  have ht' : t < links₂.size := by rwa [← hu, size_splice]
  refine ⟨_, unlink_of_joined hp' hn', (insertBefore_of_joined hz' ht').trans (congrArg _ ?_)⟩
  subst ha hu
  rw [splice_set ht htp htn]
  exact splice_splice hpz hna

def appendNode (links : Links) (a : Nat) : Except Fault Links :=
  links.addNode.insertBefore a links.size

/-- A ring may take a new last node before a node is unlinked or after, unless that node is the head
or the last node of the ring. -/
theorem IsRing.diamond_appends (h : IsRing links ↑(a :: xs)) (hx : IsRing links ↑(x :: ys))
    (hxa : x ≠ a) (hlast : ∀ z ∈ (a :: xs).getLast?, x ≠ z) :
    Diamond (Takes (appendNode · a)) (Takes (Links.unlink · x)) links := by
  obtain ⟨z, -, hz, -, -, -, hzlast, -⟩ := h.neighbours
  obtain ⟨p, n, hp, hn, -⟩ := hx.neighbours
  have hxz : x ≠ z := by
    rw [hzlast _ (List.getLast?_eq_some_getLast (by simp))]
    exact hlast _ (List.getLast?_eq_some_getLast (by simp))
  have hnew {i : Nat} (hi : i < links.size) : links.size ≠ i := hi.ne'
  intro links₁ links₂ ha hu
  obtain ⟨links₂', hu', rfl⟩ := diamond_addNode hp hn rfl hu
  have hsize : links₂.size = links.size := by
    rw [Takes, unlink_of_joined hp hn, Except.ok.injEq] at hu
    rw [← hu, size_splice]
  obtain ⟨links₃, hu₃, ha₃⟩ := diamond_inserts hz.addNode hp.addNode hn.addNode hxz hxa (by simp)
    (hnew hp.right_lt) (hnew hp.left_lt) (hnew hn.right_lt) ha hu'
  exact ⟨links₃, hu₃, by rwa [Takes, appendNode, hsize]⟩

theorem IsRing.exists_cons (h : IsRing links ↑xs) (hx : x ∈ xs) :
    ∃ ys, IsRing links ↑(x :: ys) := by
  obtain ⟨l, r, rfl⟩ := List.append_of_mem hx
  exact ⟨r ++ l, h.rotate⟩

theorem size_of_put {b : Nat} {l : Link} (h : links.put b l = .ok links') :
    links'.size = links.size := by
  rw [put] at h
  split at h
  case isFalse => cases h
  case isTrue hb =>
    rw [← Except.ok.inj h, Array.size_set]

theorem size_of_unlink (h : links.unlink x = .ok links') : links'.size = links.size := by
  obtain ⟨l, -, h⟩ := bind_eq_ok.mp h
  obtain ⟨links₁, h₁, h₂⟩ := bind_eq_ok.mp h
  obtain ⟨l₁, -, h₁⟩ := bind_eq_ok.mp h₁
  obtain ⟨l₂, -, h₂⟩ := bind_eq_ok.mp h₂
  exact (size_of_put h₂).trans (size_of_put h₁)

end Links

namespace Table

variable {t : Table} {shown : Shown} {d r s : Nat}

theorem exists_getLast_of_mem {xs : List Nat} (hasc : xs.Pairwise (· < ·)) (hr : r ∈ xs) :
    ∃ last, xs.getLast? = some last ∧ last ∈ xs ∧ r ≤ last := by
  obtain rfl | ⟨init, last, rfl⟩ := xs.eq_nil_or_concat'
  · simp at hr
  · refine ⟨last, List.getLast?_concat, by simp, ?_⟩
    rcases List.mem_append.mp hr with hr | hr
    · exact ((List.pairwise_append.mp hasc).2.2 r hr last List.mem_cons_self).le
    · exact (List.mem_singleton.mp hr).le

/-- An entry above another is not the last one of its column. -/
theorem entry_ne_getLast (hr : r ∈ t.shownRows shown d) (hs : s ∈ t.shownRows shown d)
    (hrs : r < s) : ∀ z ∈ ((d + 1) :: t.columnNodes shown d).getLast?, t.entry r d ≠ z := by
  have hasc : (t.shownRows shown d).Pairwise (· < ·) := List.pairwise_lt_range.filter _
  obtain ⟨last, hlast, hmem, hle⟩ := exists_getLast_of_mem hasc hs
  have hnode : ((d + 1) :: t.columnNodes shown d).getLast? = some (t.entry last d) := by
    rw [List.getLast?_cons, columnNodes, List.getLast?_map, hlast]
    rfl
  intro z hz he
  have hz : t.entry last d = z := Option.some.inj (hnode.symm.trans hz)
  have hrow := (entry_inj (mem_shownRows.mp hr).1 (mem_shownRows.mp hmem).1 (he.trans hz.symm)).1
  exact (hrs.trans_le hle).ne hrow

end Table

namespace CoverMatrix

variable {L : Type} {m m' : CoverMatrix L} {t : Table} {c d id r removed row first node : Nat}
  {active cs done y : List Nat} {shown : Table.Shown}

theorem resize_eq_ok {headers headers' : Array (Header L)} {change : Nat → Except Fault Nat} :
    resize headers c change = .ok headers' ↔
      ∃ h : c < headers.size, ∃ s, change headers[c].size = .ok s ∧
        headers' = setSize headers c s := by
  constructor
  · intro h
    rw [resize] at h
    split at h
    case isFalse => cases h
    case isTrue hc =>
      obtain ⟨s, hs, he⟩ := bind_eq_ok.mp h
      exact ⟨hc, s, hs, (Except.ok.inj he).symm⟩
  · rintro ⟨hc, s, hs, rfl⟩
    exact resize_of_lt hc hs

theorem setSize_comm {headers : Array (Header L)} {s s' : Nat} (hcd : c ≠ d) :
    setSize (setSize headers c s) d s' = setSize (setSize headers d s') c s := by
  apply Array.ext
  · simp
  · intro i hi hi'
    have hlt : i < headers.size := by simpa using hi
    have hlt' : i < (setSize headers c s).size := by simpa using hlt
    have hlt'' : i < (setSize headers d s').size := by simpa using hlt
    rw [getElem_setSize hlt', getElem_setSize hlt'', getElem_setSize hlt, getElem_setSize hlt]
    by_cases hci : c = i <;> by_cases hdi : d = i <;> simp_all

theorem diamond_resize (headers : Array (Header L)) :
    Diamond (Takes (resize · c (Word.add · 1))) (Takes (resize · d (Word.sub · 1))) headers := by
  intro headers₁ headers₂ h₁ h₂
  obtain ⟨hc, s, hs, rfl⟩ := resize_eq_ok.mp h₁
  obtain ⟨hd, s', hs', rfl⟩ := resize_eq_ok.mp h₂
  by_cases hcd : c = d
  · subst hcd
    obtain ⟨hroom, rfl⟩ := Word.add_eq_ok.mp hs
    obtain ⟨hpos, rfl⟩ := Word.sub_eq_ok.mp hs'
    refine ⟨headers, ?_, ?_⟩
    · refine (resize_of_lt (by simpa using hc) ?_).trans (congrArg _ (setSize_setSize hc))
      simp only [getElem_setSize hc, if_pos]
      exact Word.sub_eq_ok.mpr ⟨by omega, by omega⟩
    · refine (resize_of_lt (by simpa using hc) ?_).trans (congrArg _ (setSize_setSize hc))
      simp only [getElem_setSize hc, if_pos]
      exact Word.add_eq_ok.mpr ⟨by omega, by omega⟩
  · refine ⟨setSize (setSize headers c s) d s', resize_of_lt (by simpa using hd) ?_, ?_⟩
    · rw [getElem_setSize hd, if_neg hcd]
      exact hs'
    · rw [setSize_comm hcd]
      apply resize_of_lt (by simpa using hc)
      rw [getElem_setSize hc, if_neg (Ne.symm hcd)]
      exact hs

def appendAcross (across : Links) (first node : Nat) : Except Fault Links :=
  if node = first then .ok across.addNode else across.addNode.insertBefore first node

theorem appendEntry_eq : appendEntry row first m c = (do
    let _ ← Word.add m.down.size 1
    let down ← m.down.appendNode (c + 1)
    let across ← appendAcross m.across first m.down.size
    let headers ← resize m.headers c (Word.add · 1)
    return ⟨headers, across, down, m.column.push c, m.row.push (some row), m.rowHeads,
      m.removedRows, m.isClosed⟩) := by
  rw [appendEntry, appendAcross]
  by_cases hf : m.down.size = first
  · simp only [if_pos hf]
    rfl
  · simp only [if_neg hf]
    rfl

theorem appendEntry_eq_ok : appendEntry row first m c = .ok m' ↔
    m.down.size + 1 < Word.modulus ∧ ∃ down across headers,
      m.down.appendNode (c + 1) = .ok down ∧
      appendAcross m.across first m.down.size = .ok across ∧
      resize m.headers c (Word.add · 1) = .ok headers ∧
      m' = ⟨headers, across, down, m.column.push c, m.row.push (some row), m.rowHeads,
        m.removedRows, m.isClosed⟩ := by
  rw [appendEntry_eq]
  constructor
  · intro h
    obtain ⟨n, hn, h⟩ := bind_eq_ok.mp h
    obtain ⟨down, hd, h⟩ := bind_eq_ok.mp h
    obtain ⟨across, ha, h⟩ := bind_eq_ok.mp h
    obtain ⟨headers, hh, h⟩ := bind_eq_ok.mp h
    exact ⟨(Word.add_eq_ok.mp hn).1, down, across, headers, hd, ha, hh, (Except.ok.inj h).symm⟩
  · rintro ⟨hn, down, across, headers, hd, ha, hh, rfl⟩
    simp only [Word.add_of_lt hn, hd, ha, hh, bind, Except.bind]
    rfl

theorem hideEntry_eq_ok : m.hideEntry node = .ok m' ↔ ∃ column down headers,
    m.columnOf node = .ok column ∧ m.down.unlink node = .ok down ∧
      resize m.headers column (Word.sub · 1) = .ok headers ∧
      m' = { m with headers := headers, down := down } := by
  constructor
  · intro h
    obtain ⟨column, hc, h⟩ := bind_eq_ok.mp h
    obtain ⟨down, hd, h⟩ := bind_eq_ok.mp h
    obtain ⟨headers, hh, h⟩ := bind_eq_ok.mp h
    exact ⟨column, down, headers, hc, hd, hh, (Except.ok.inj h).symm⟩
  · rintro ⟨column, down, headers, hc, hd, hh, rfl⟩
    simp only [hideEntry, hc, hd, hh, bind, Except.bind]
    rfl

theorem columnOf_push (h : m.columnOf node = .ok c)
    (hcolumn : m'.column = m.column.push d) : m'.columnOf node = .ok c := by
  rw [columnOf] at h ⊢
  split at h
  case isFalse => cases h
  case isTrue hn =>
    have hn' : node < m'.column.size := by
      rw [hcolumn, Array.size_push]
      exact Nat.lt_succ_of_lt hn
    rw [dif_pos hn', ← h]
    simp only [hcolumn, Array.getElem_push_lt hn]

theorem diamond_hideEntry
    (h : Diamond (Takes (Links.appendNode · (c + 1))) (Takes (Links.unlink · node)) m.down) :
    Diamond (Takes (appendEntry row first · c)) (Takes (hideEntry · node)) m := by
  intro m₁ m₂ h₁ h₂
  obtain ⟨hroom, down₁, across, headers₁, hd₁, ha, hh₁, rfl⟩ := appendEntry_eq_ok.mp h₁
  obtain ⟨column, down₂, headers₂, hc, hd₂, hh₂, rfl⟩ := hideEntry_eq_ok.mp h₂
  obtain ⟨down, hu, hi⟩ := h hd₁ hd₂
  obtain ⟨headers, hs, hg⟩ := diamond_resize m.headers hh₁ hh₂
  have hsize : down₂.size = m.down.size := Links.size_of_unlink hd₂
  refine ⟨_, hideEntry_eq_ok.mpr ⟨column, down, headers, columnOf_push hc rfl, hu, hs, rfl⟩, ?_⟩
  refine appendEntry_eq_ok.mpr ⟨by rwa [hsize], down, across, headers, hi, ?_, hg, ?_⟩
  · simpa only [hsize] using ha
  · rfl

theorem unlinkHeader_eq_ok : m.unlinkHeader node = .ok m' ↔
    ∃ across, m.across.unlink node = .ok across ∧ m' = { m with across := across } := by
  constructor
  · intro h
    obtain ⟨across, ha, h⟩ := bind_eq_ok.mp h
    exact ⟨across, ha, (Except.ok.inj h).symm⟩
  · rintro ⟨across, ha, rfl⟩
    simp only [unlinkHeader, ha, bind, Except.bind]
    rfl

theorem diamond_unlinkHeader
    (h : Diamond (Takes (appendAcross · first m.down.size)) (Takes (Links.unlink · node))
      m.across) :
    Diamond (Takes (appendEntry row first · c)) (Takes (unlinkHeader · node)) m := by
  intro m₁ m₂ h₁ h₂
  obtain ⟨hroom, down, across₁, headers, hd, ha₁, hh, rfl⟩ := appendEntry_eq_ok.mp h₁
  obtain ⟨across₂, ha₂, rfl⟩ := unlinkHeader_eq_ok.mp h₂
  obtain ⟨across, hu, hi⟩ := h ha₁ ha₂
  refine ⟨_, unlinkHeader_eq_ok.mpr ⟨across, hu, rfl⟩, ?_⟩
  exact appendEntry_eq_ok.mpr ⟨hroom, down, across, headers, hd, hi, hh, rfl⟩

def countRemoved (m : CoverMatrix L) : Except Fault (CoverMatrix L) := do
  let removed ← Word.add m.removedRows 1
  return m.setRemoved removed

theorem countRemoved_eq_ok : m.countRemoved = .ok m' ↔
    m.removedRows + 1 < Word.modulus ∧ m' = m.setRemoved (m.removedRows + 1) := by
  constructor
  · intro h
    obtain ⟨k, hk, h⟩ := bind_eq_ok.mp h
    obtain ⟨hlt, rfl⟩ := Word.add_eq_ok.mp hk
    exact ⟨hlt, (Except.ok.inj h).symm⟩
  · rintro ⟨hlt, rfl⟩
    simp only [countRemoved, Word.add_of_lt hlt, bind, Except.bind]
    rfl

theorem diamond_countRemoved (m : CoverMatrix L) :
    Diamond (Takes (appendEntry row first · c)) (Takes countRemoved) m := by
  intro m₁ m₂ h₁ h₂
  obtain ⟨hroom, down, across, headers, hd, ha, hh, rfl⟩ := appendEntry_eq_ok.mp h₁
  obtain ⟨hlt, rfl⟩ := countRemoved_eq_ok.mp h₂
  refine ⟨_, countRemoved_eq_ok.mpr ⟨hlt, rfl⟩, ?_⟩
  exact appendEntry_eq_ok.mpr ⟨hroom, down, across, headers, hd, ha, hh, rfl⟩

theorem diamond_appendAcross {across : Links} {x : Nat} {ys : List Nat}
    (hs : across.size = node) (hx : Links.IsRing across ↑(x :: ys))
    (hrow : node ≠ first → ∃ xs, Links.IsRing across ↑(first :: xs) ∧ x ∉ first :: xs) :
    Diamond (Takes (appendAcross · first node)) (Takes (Links.unlink · x)) across := by
  by_cases hf : node = first
  · obtain ⟨p, n, hp, hn, -⟩ := hx.neighbours
    intro across₁ across₂ h₁ h₂
    rw [Takes, appendAcross, if_pos hf] at h₁
    obtain ⟨across₃, h₃, rfl⟩ := Links.diamond_addNode hp hn (Except.ok.inj h₁) h₂
    exact ⟨_, h₃, if_pos hf⟩
  · obtain ⟨xs, hxs, hnot⟩ := hrow hf
    intro across₁ across₂ h₁ h₂
    have hsize : across₂.size = node := (Links.size_of_unlink h₂).trans hs
    rw [Takes, appendAcross, if_neg hf, ← hs] at h₁
    obtain ⟨across₃, h₃, h₄⟩ := hxs.diamond_appends hx (fun he => hnot (he ▸ List.mem_cons_self))
      (fun z hz he => hnot (he ▸ List.mem_of_getLast? hz)) h₁ h₂
    refine ⟨across₃, h₃, ?_⟩
    rw [Takes, appendAcross, if_neg hf, ← hsize]
    exact h₄

/-- The matrix takes the row `y` under the id `id`. -/
def Gains (y : List Nat) (id : Nat) (m m' : CoverMatrix L) : Prop :=
  m.addRow y = .ok (.ok id, m')

theorem addRow_eq_ok : m.addRow y = .ok (.ok id, m') ↔
    m.rowFlaw y = none ∧ id = m.rowCount ∧ ∃ m₁,
      y.foldlM (appendEntry m.rowCount m.down.size) m = .ok m₁ ∧ m' = m₁.beginRow m.down.size := by
  constructor
  · intro h
    obtain ⟨hflaw, m₁, rfl, hm₁⟩ := addRow_eq h
    simp only [addRow, hflaw, hm₁, bind, Except.bind, pure, Except.pure, Except.ok.injEq,
      Prod.mk.injEq] at h
    exact ⟨hflaw, h.1.symm, m₁, hm₁, rfl⟩
  · rintro ⟨hflaw, rfl, m₁, hm₁, rfl⟩
    simp only [addRow, hflaw, hm₁, bind, Except.bind]
    rfl

/-- The step neither looks at the first nodes of the rows nor changes what adding a row looks at
before the first entry. -/
structure Quiet (act : CoverMatrix L → Except Fault (CoverMatrix L)) : Prop where
  rowFlaw : ∀ {m m'}, act m = .ok m' → ∀ y, m'.rowFlaw y = m.rowFlaw y
  rowHeads : ∀ {m m'}, act m = .ok m' → m'.rowHeads = m.rowHeads
  down_size : ∀ {m m'}, act m = .ok m' → m'.down.size = m.down.size
  beginRow : ∀ {m m'}, act m = .ok m' → ∀ first, act (m.beginRow first) = .ok (m'.beginRow first)

variable {act : CoverMatrix L → Except Fault (CoverMatrix L)}

theorem rowFlaw_congr (hc : m'.isClosed = m.isClosed) (hh : m'.headers.size = m.headers.size)
    (y : List Nat) : m'.rowFlaw y = m.rowFlaw y := by
  rw [rowFlaw, rowFlaw, hc, columnCount, hh]
  rfl

theorem quiet_hideEntry (node : Nat) : Quiet (hideEntry (L := L) · node) := by
  constructor
  · intro m m' h y
    obtain ⟨column, down, headers, -, -, hh, rfl⟩ := hideEntry_eq_ok.mp h
    obtain ⟨-, s, -, rfl⟩ := resize_eq_ok.mp hh
    apply rowFlaw_congr
    · rfl
    · exact size_setSize _ _ _
  · intro m m' h
    obtain ⟨column, down, headers, -, -, -, rfl⟩ := hideEntry_eq_ok.mp h
    rfl
  · intro m m' h
    obtain ⟨column, down, headers, -, hd, -, rfl⟩ := hideEntry_eq_ok.mp h
    exact Links.size_of_unlink hd
  · intro m m' h first
    obtain ⟨column, down, headers, hc, hd, hh, rfl⟩ := hideEntry_eq_ok.mp h
    exact hideEntry_eq_ok.mpr ⟨column, down, headers, hc, hd, hh, rfl⟩

theorem quiet_unlinkHeader (node : Nat) : Quiet (unlinkHeader (L := L) · node) := by
  constructor
  · intro m m' h y
    obtain ⟨across, -, rfl⟩ := unlinkHeader_eq_ok.mp h
    rfl
  · intro m m' h
    obtain ⟨across, -, rfl⟩ := unlinkHeader_eq_ok.mp h
    rfl
  · intro m m' h
    obtain ⟨across, -, rfl⟩ := unlinkHeader_eq_ok.mp h
    rfl
  · intro m m' h first
    obtain ⟨across, ha, rfl⟩ := unlinkHeader_eq_ok.mp h
    exact unlinkHeader_eq_ok.mpr ⟨across, ha, rfl⟩

theorem quiet_countRemoved : Quiet (countRemoved (L := L)) := by
  constructor
  · intro m m' h y
    obtain ⟨-, rfl⟩ := countRemoved_eq_ok.mp h
    rfl
  · intro m m' h
    obtain ⟨-, rfl⟩ := countRemoved_eq_ok.mp h
    rfl
  · intro m m' h
    obtain ⟨-, rfl⟩ := countRemoved_eq_ok.mp h
    rfl
  · intro m m' h first
    obtain ⟨hlt, rfl⟩ := countRemoved_eq_ok.mp h
    exact countRemoved_eq_ok.mpr ⟨hlt, rfl⟩

theorem IsFrame.of_rowFlaw (h : m.IsFrame t) (hflaw : m.rowFlaw y = none) :
    y.Pairwise (· < ·) ∧ ∀ c ∈ y, c < t.columnCount := by
  rw [rowFlaw] at hflaw
  split_ifs at hflaw
  rw [columnCount, h.headers_size] at hflaw
  exact ascending_of_entriesFlaw hflaw

/-- The entries of a row may be appended before a step or after, if each of them may. -/
theorem Represents.diamond_entries {rest : List Nat}
    (h : (m.beginRow t.nodeCount).Represents (t.push done) shown active removed)
    (hp : ∀ a ∈ active, t.IsPrimary a) (hasc : (done ++ rest).Pairwise (· < ·))
    (hc : ∀ c ∈ rest, c < t.columnCount) (hshown : ∀ c, shown t.rowCount c = true)
    (hact : ∀ c ∈ rest, ∀ done m, c ∉ done →
      (m.beginRow t.nodeCount).Represents (t.push done) shown active removed →
      Diamond (Takes (appendEntry t.rowCount t.nodeCount · c)) (Takes act) m) :
    Diamond (Takes (rest.foldlM (appendEntry t.rowCount t.nodeCount) ·)) (Takes act) m := by
  apply Diamond.symm
  induction rest generalizing m done with
  | nil => exact Diamond.pure _ m
  | cons c rest ih =>
    have hd : ∀ d ∈ done, d < c := fun d hd =>
      (List.pairwise_append.mp hasc).2.2 d hd c List.mem_cons_self
    have hcd : c ∉ done := fun hm => lt_irrefl c (hd c hm)
    refine (hact c List.mem_cons_self done m hcd h).symm.bind fun m₁ h₁ => ?_
    obtain ⟨m₁', h₁', -, hrep⟩ := h.append_step hp (hc c List.mem_cons_self) hd (hshown c)
      (appendEntry_eq_ok.mp h₁).1
    obtain rfl : m₁' = m₁ := Except.ok.inj (h₁'.symm.trans h₁)
    rw [List.append_cons] at hasc
    exact ih hrep hasc (fun d hd => hc d (List.mem_cons_of_mem c hd))
      fun d hd => hact d (List.mem_cons_of_mem c hd)

/-- A row may be added before a step or after, if each of its entries may. -/
theorem Represents.diamond_gains (h : m.Represents t shown active removed)
    (hp : ∀ a ∈ active, t.IsPrimary a) (hshown : ∀ c, shown t.rowCount c = true)
    (hq : Quiet act)
    (hact : ∀ c ∈ y, c < t.columnCount → ∀ done m, c ∉ done →
      (m.beginRow t.nodeCount).Represents (t.push done) shown active removed →
      Diamond (Takes (appendEntry t.rowCount t.nodeCount · c)) (Takes act) m) :
    Diamond (Gains y id) (Takes act) m := by
  intro m₁ m₂ h₁ h₂
  obtain ⟨hflaw, hid, m₃, hm₃, rfl⟩ := addRow_eq_ok.mp h₁
  obtain ⟨hasc, hlt⟩ := h.of_rowFlaw hflaw
  rw [h.rowCount_eq] at hid
  rw [h.rowCount_eq, h.down_size] at hm₃
  obtain ⟨m₄, ha, hf⟩ := h.begin_row.diamond_entries hp hasc hlt hshown
    (fun c hc => hact c hc (hlt c hc)) hm₃ h₂
  have hcount : m₂.rowCount = t.rowCount := by
    rw [rowCount, hq.rowHeads h₂]
    exact h.rowCount_eq
  have hsize : m₂.down.size = t.nodeCount := (hq.down_size h₂).trans h.down_size
  refine ⟨m₄.beginRow m.down.size, hq.beginRow ha _, addRow_eq_ok.mpr ⟨?_, ?_, m₄, ?_, ?_⟩⟩
  · rw [hq.rowFlaw h₂, hflaw]
  · rw [hid, hcount]
  · rw [hcount, hsize]
    exact hf
  · rw [hsize, h.down_size]

/-- A row may be added before an entry is hidden or after, if the row does not meet the column of
the entry or the column shows a row below it. -/
theorem Represents.diamond_hideEntry (h : m.Represents t shown active removed)
    (hp : ∀ a ∈ active, t.IsPrimary a) (hshown : ∀ c, shown t.rowCount c = true)
    (hr : r ∈ t.shownRows shown d) (hbelow : d ∈ y → ∃ s ∈ t.shownRows shown d, r < s) :
    Diamond (Gains y id) (Takes (hideEntry · (t.entry r d))) m := by
  have hd : d < t.columnCount := h.ordered.lt_columnCount (Table.mem_shownRows.mp hr).1
  apply h.diamond_gains hp hshown (quiet_hideEntry _)
  intro c hc hct done m hcd hm
  have hold : ∀ s ∈ t.shownRows shown d, s ∈ (t.push done).shownRows shown d := by
    intro s hs
    rw [Table.shownRows_push]
    exact List.mem_append_left _ hs
  have hentry : (t.push done).entry r d = t.entry r d :=
    Table.entry_push done (Table.lt_rowCount_of_mem (Table.mem_shownRows.mp hr).1) d
  have hnode : t.entry r d ∈ (d + 1) :: (t.push done).columnNodes shown d := by
    rw [← hentry]
    exact List.mem_cons_of_mem _ (List.mem_map_of_mem (hold r hr))
  obtain ⟨ys, hys⟩ := (hm.down d hd).exists_cons hnode
  apply CoverMatrix.diamond_hideEntry
  apply (hm.down c hct).diamond_appends hys
  · have := t.columnCount_lt_entry r d
    omega
  · intro z hz
    by_cases hdc : c = d
    · subst hdc
      obtain ⟨s, hs, hrs⟩ := hbelow hc
      rw [← hentry]
      exact Table.entry_ne_getLast (hold r hr) (hold s hs) hrs z hz
    · rintro rfl
      exact Table.columns_disjoint (t := t.push done) hct hd (Ne.symm hdc) _ hnode
        (List.mem_of_getLast? hz)

/-- A row may be added before a header leaves the root's ring or after. -/
theorem Represents.diamond_unlinkHeader (h : m.Represents t shown active removed)
    (hp : ∀ a ∈ active, t.IsPrimary a) (hshown : ∀ c, shown t.rowCount c = true)
    (hd : d < t.columnCount) (ha : t.IsPrimary d → d ∈ active) :
    Diamond (Gains y id) (Takes (unlinkHeader · (d + 1))) m := by
  apply h.diamond_gains hp hshown (quiet_unlinkHeader _)
  intro c _ _ done m _ hm
  have hsize : m.across.size = m.down.size := hm.across_size.trans hm.down_size.symm
  obtain ⟨ys, hys⟩ : ∃ ys : List Nat, Links.IsRing m.across ↑((d + 1) :: ys) := by
    by_cases hdp : t.IsPrimary d
    · exact hm.across.root.exists_cons (List.mem_cons_of_mem _ (List.mem_map_of_mem (ha hdp)))
    · exact ⟨[], hm.across.aside d hd hdp⟩
  apply CoverMatrix.diamond_unlinkHeader
  apply diamond_appendAcross hsize hys
  intro hf
  cases done with
  | nil => exact absurd (hm.down_size.trans (Table.nodeCount_push t [])) hf
  | cons e es =>
    have hrow := t.rowNodes_push_self e es
    have hring := hm.across.rows t.rowCount
    rw [hrow] at hring
    refine ⟨_, hring, fun hmem => ?_⟩
    rw [← hrow] at hmem
    have hlt := Table.columnCount_lt_of_mem_rowNodes hmem
    rw [Table.columnCount_push] at hlt
    omega

theorem Represents.diamond_countRemoved (h : m.Represents t shown active removed)
    (hp : ∀ a ∈ active, t.IsPrimary a) (hshown : ∀ c, shown t.rowCount c = true) :
    Diamond (Gains y id) (Takes countRemoved) m :=
  h.diamond_gains hp hshown quiet_countRemoved fun _ _ _ _ m _ _ =>
    CoverMatrix.diamond_countRemoved m

end CoverMatrix

end DancingLinks
