import DancingLinks.Ring
import Mathlib.Data.List.Cycle

/-! # Rings in an array of links

A cyclic sequence of distinct nodes is a ring if each of them names the next one and is named back
by it. Unlinking a node leaves the ring of the others, relinking it gives back the very array, and
a walk from any node of a ring meets the others in order.
-/
namespace DancingLinks.Links

variable {links links' : Links} {a b p n t : Nat}

theorem filter_ne_middle {as bs : List Nat} (h : (as ++ t :: bs).Nodup) :
    (as ++ t :: bs).filter (· ≠ t) = as ++ bs := by
  have hne : ∀ x ∈ as ++ bs, x ≠ t := by
    intro x hx heq
    exact (List.nodup_middle.mp h).notMem (heq ▸ hx)
  rw [List.filter_append, List.filter_cons_of_neg (by simp), ← List.filter_append,
    List.filter_eq_self]
  exact fun x hx => by simpa using hne x hx

def Joined (links : Links) (a b : Nat) : Prop :=
  (∃ l, links[a]? = some l ∧ l.next = b) ∧ ∃ l, links[b]? = some l ∧ l.prev = a

theorem Joined.left_lt (h : Joined links a b) : a < links.size := by
  obtain ⟨⟨l, hl, -⟩, -⟩ := h
  exact (Array.getElem?_eq_some_iff.mp hl).1

theorem Joined.right_lt (h : Joined links a b) : b < links.size := by
  obtain ⟨-, l, hl, -⟩ := h
  exact (Array.getElem?_eq_some_iff.mp hl).1

theorem link_of_getElem? {l : Link} (h : links[a]? = some l) : links.link a = .ok l := by
  obtain ⟨ha, rfl⟩ := Array.getElem?_eq_some_iff.mp h
  exact link_of_lt ha

theorem Joined.link_left (h : Joined links a b) : ∃ l, links.link a = .ok l ∧ l.next = b := by
  obtain ⟨⟨l, hl, hn⟩, -⟩ := h
  exact ⟨l, link_of_getElem? hl, hn⟩

theorem Joined.link_right (h : Joined links a b) : ∃ l, links.link b = .ok l ∧ l.prev = a := by
  obtain ⟨-, l, hl, hp⟩ := h
  exact ⟨l, link_of_getElem? hl, hp⟩

theorem Joined.getElem? (hp : Joined links p t) (hn : Joined links t n) :
    links[t]? = some ⟨p, n⟩ := by
  rcases hp with ⟨-, l, hl, rfl⟩
  rcases hn with ⟨⟨l', hl', rfl⟩, -⟩
  have heq : l = l' := Option.some.inj (hl.symm.trans hl')
  rw [← heq]
  exact hl

theorem setNext_of_lt (h : a < links.size) :
    links.setNext a b = .ok (links.modify a fun l => ⟨l.prev, b⟩) := by
  simp only [setNext, link_of_lt h, bind, Except.bind, put_of_lt _ h]
  congr 1
  apply Array.ext_getElem?
  intro i
  rw [Array.getElem?_set, Array.getElem?_modify]
  by_cases hi : a = i
  · subst hi
    simp [h]
  · simp [hi]

theorem setPrev_of_lt (h : a < links.size) :
    links.setPrev a b = .ok (links.modify a fun l => ⟨b, l.next⟩) := by
  simp only [setPrev, link_of_lt h, bind, Except.bind, put_of_lt _ h]
  congr 1
  apply Array.ext_getElem?
  intro i
  rw [Array.getElem?_set, Array.getElem?_modify]
  by_cases hi : a = i
  · subst hi
    simp [h]
  · simp [hi]

def splice (links : Links) (p b n a : Nat) : Links :=
  (links.modify p fun l => ⟨l.prev, b⟩).modify n fun l => ⟨a, l.next⟩

@[simp] theorem size_splice : (splice links p b n a).size = links.size := by simp [splice]

theorem getElem?_splice (i : Nat) : (splice links p b n a)[i]? =
    links[i]?.map fun l => ⟨if n = i then a else l.prev, if p = i then b else l.next⟩ := by
  simp only [splice, Array.getElem?_modify]
  by_cases hn : n = i <;> by_cases hp : p = i <;> cases links[i]? <;> simp_all

theorem getElem_splice {i : Nat} (hi : i < links.size) (h : i < (splice links p b n a).size) :
    (splice links p b n a)[i] =
      ⟨if n = i then a else links[i].prev, if p = i then b else links[i].next⟩ := by
  apply Option.some.inj
  rw [← Array.getElem?_eq_getElem h, getElem?_splice, Array.getElem?_eq_getElem hi]
  rfl

theorem unlink_of_joined (hp : Joined links p t) (hn : Joined links t n) :
    links.unlink t = .ok (splice links p n n p) := by
  simp only [unlink, link_of_getElem? (hp.getElem? hn), bind, Except.bind,
    setNext_of_lt hp.left_lt]
  exact setPrev_of_lt (by simpa using hn.right_lt)

/-- Relinking undoes unlinking, link for link. -/
theorem relink_unlink (hp : Joined links p t) (hn : Joined links t n) :
    (splice links p n n p).relink t = .ok links := by
  have ht := hp.getElem? hn
  have hk : (splice links p n n p)[t]? = some ⟨p, n⟩ := by
    rw [getElem?_splice, ht]
    by_cases hpt : p = t <;> by_cases hnt : n = t <;> simp_all
  have hs : (splice links p n n p).relink t = .ok (splice (splice links p n n p) p t n t) := by
    simp only [relink, link_of_getElem? hk, bind, Except.bind]
    rw [setNext_of_lt (by simpa using hp.left_lt)]
    exact setPrev_of_lt (by simpa using hn.right_lt)
  rw [hs]
  congr 1
  apply Array.ext_getElem?
  intro i
  obtain ⟨⟨⟨pp, pn⟩, hlp, rfl⟩, -⟩ := hp
  obtain ⟨-, ⟨np, nn⟩, hln, rfl⟩ := hn
  rw [getElem?_splice, getElem?_splice]
  by_cases hpi : p = i <;> by_cases hni : n = i <;> cases hl : links[i]? <;> simp_all

/-- Neighbours stay neighbours unless one of the two links between them is overwritten. -/
theorem Joined.splice {c d : Nat} (h : Joined links a b) (ha : a ≠ p) (hb : b ≠ n) :
    Joined (splice links p c n d) a b := by
  obtain ⟨⟨l, hl, hln⟩, ⟨l', hl', hlp⟩⟩ := h
  constructor
  · refine ⟨⟨if n = a then d else l.prev, l.next⟩, ?_, hln⟩
    simp [getElem?_splice, hl, Ne.symm ha]
  · refine ⟨⟨l'.prev, if p = b then c else l'.next⟩, ?_, hlp⟩
    simp [getElem?_splice, hl', Ne.symm hb]

theorem joined_splice (hp : p < links.size) (hn : n < links.size) :
    Joined (Links.splice links p n n p) p n := by
  constructor
  · simp [getElem_splice, hp]
  · simp [getElem_splice, hn]

/-- A chain of distinct nodes survives a change of the link behind its last node and of the link
before its first. -/
theorem isChain_splice {xs : List Nat} {c d : Nat} (hd : xs.Nodup)
    (hc : xs.IsChain (Joined links)) (hl : ∀ z ∈ xs.getLast?, p = z) (hh : ∀ z ∈ xs.head?, n = z) :
    xs.IsChain (Joined (Links.splice links p c n d)) := by
  cases xs with
  | nil => exact List.isChain_nil
  | cons f ys =>
    have hlast := hl _ (List.getLast?_eq_some_getLast (by simp))
    rw [List.getLast_eq_getElem] at hlast
    rw [List.isChain_iff_getElem] at hc ⊢
    intro i hi
    refine (hc i hi).splice ?_ ?_
    · intro hp
      have := hd.getElem_inj_iff.mp (hp.trans hlast)
      omega
    · intro hn
      have hfirst : (f :: ys)[i + 1] = (f :: ys)[0] := hn.trans (hh f rfl)
      have := hd.getElem_inj_iff.mp hfirst
      omega

/-- The nodes form a ring in this cyclic order. -/
structure IsRing (links : Links) (ring : Cycle Nat) : Prop where
  nodup : ring.Nodup
  chain : ring.Chain (Joined links)

variable {ring : Cycle Nat} {xs ys : List Nat}

theorem isRing_nil (links : Links) : IsRing links Cycle.nil :=
  ⟨List.nodup_nil, Cycle.Chain.nil _⟩

theorem isRing_singleton : IsRing links ↑[a] ↔ links[a]? = some (Link.alone a) := by
  constructor
  · intro h
    have hj : Joined links a a := (Cycle.chain_singleton _ a).mp h.chain
    exact hj.getElem? hj
  · intro h
    exact ⟨List.nodup_singleton a, (Cycle.chain_singleton _ a).mpr ⟨⟨_, h, rfl⟩, ⟨_, h, rfl⟩⟩⟩

theorem IsRing.rotate (h : IsRing links ↑(xs ++ ys)) : IsRing links ↑(ys ++ xs) := by
  rwa [show (↑(ys ++ xs) : Cycle Nat) = ↑(xs ++ ys) from Cycle.coe_eq_coe.mpr List.isRotated_append]

theorem IsRing.isChain (h : IsRing links ↑(a :: xs)) :
    List.IsChain (Joined links) (a :: (xs ++ [a])) := (Cycle.chain_coe_cons _ _ _).mp h.chain

theorem IsRing.nodup_cons (h : IsRing links ↑(a :: xs)) : (a :: xs).Nodup :=
  Cycle.nodup_coe_iff.mp h.nodup

theorem IsRing.lt_size (h : IsRing links ↑(a :: xs)) : ∀ x ∈ a :: xs, x < links.size := by
  intro x hx
  obtain ⟨l, r, hlr⟩ := List.append_of_mem hx
  have hr : IsRing links ↑(x :: (r ++ l)) := by
    rw [hlr] at h
    exact h.rotate
  cases hrl : r ++ l with
  | nil =>
    rw [hrl] at hr
    exact (List.rel_of_isChain_cons_cons hr.isChain).left_lt
  | cons y ys =>
    rw [hrl] at hr
    exact (List.rel_of_isChain_cons_cons hr.isChain).left_lt

theorem IsRing.length_lt (h : IsRing links ↑(a :: xs)) : xs.length < links.size := by
  have hs : (a :: xs) ⊆ List.range links.size := fun x hx => List.mem_range.mpr (h.lt_size x hx)
  have hl := (h.nodup_cons.subperm hs).length_le
  rw [List.length_range, List.length_cons] at hl
  exact hl

/-- Links of other nodes do not matter to a ring. -/
theorem IsRing.congr (h : IsRing links ring)
    (hl : ∀ a ∈ ring, ∀ b ∈ ring, Joined links a b → Joined links' a b) : IsRing links' ring := by
  have hc := h.chain
  constructor
  · exact h.nodup
  · induction ring using Cycle.induction_on with
    | nil => exact Cycle.Chain.nil _
    | cons a xs _ =>
      rw [Cycle.chain_coe_cons] at hc ⊢
      apply hc.imp_of_mem_imp
      intro x y hx hy hxy
      apply hl x _ y _ hxy
      all_goals simp_all [or_comm]

theorem IsRing.neighbours (h : IsRing links ↑(t :: xs)) :
    ∃ p n, Joined links p t ∧ Joined links t n ∧ p ∈ t :: xs ∧ n ∈ t :: xs ∧
      (∀ l ∈ (t :: xs).getLast?, p = l) ∧ ∀ f ∈ xs.head?, n = f := by
  have hc := h.isChain
  have hp : Joined links ((t :: xs).getLast (by simp)) t := by
    rw [← List.cons_append, ← List.dropLast_append_getLast (by simp : t :: xs ≠ [])] at hc
    simpa using hc.rel_getLast_head_of_append
  obtain ⟨n, hn⟩ : ∃ n, (xs ++ [t]).head? = some n := by cases xs <;> exact ⟨_, rfl⟩
  have hmem : n ∈ t :: xs := by
    have hm := List.mem_of_head? hn
    simpa [or_comm] using hm
  have hlast : ∀ l ∈ (t :: xs).getLast?, (t :: xs).getLast (by simp) = l := by
    intro l hl
    rw [List.getLast?_eq_some_getLast (by simp)] at hl
    exact Option.some.inj hl
  have hhead : ∀ f ∈ xs.head?, n = f := by
    intro f hf
    cases xs with
    | nil => simp at hf
    | cons y ys => simp_all
  exact ⟨_, n, hp, hc.rel_head? (Option.mem_def.mpr hn), List.getLast_mem _, hmem, hlast, hhead⟩

/-- Unlinking a node leaves the ring of the others and every other ring, and can be undone. -/
theorem IsRing.unlink (h : IsRing links ↑(t :: xs)) :
    ∃ links', links.unlink t = .ok links' ∧ links'.relink t = .ok links ∧
      links'.size = links.size ∧ IsRing links' ↑xs ∧
      ∀ ring : Cycle Nat, IsRing links ring → (∀ x ∈ ring, x ∉ t :: xs) → IsRing links' ring := by
  obtain ⟨p, n, hp, hn, hpm, hnm, hlast, hhead⟩ := h.neighbours
  refine ⟨_, unlink_of_joined hp hn, relink_unlink hp hn, size_splice, ?_, ?_⟩
  · cases xs with
    | nil => exact isRing_nil _
    | cons f ys =>
      obtain rfl := hhead f rfl
      have hd : (n :: ys).Nodup := h.nodup_cons.of_cons
      have hc := (List.isChain_of_isChain_cons h.isChain).left_of_append
      have hlast : ∀ l ∈ (n :: ys).getLast?, p = l := by simpa using hlast
      constructor
      · exact Cycle.nodup_coe_iff.mpr hd
      · rw [Cycle.chain_coe_cons, ← List.cons_append]
        apply (isChain_splice hd hc hlast hhead).append (List.isChain_singleton n)
        intro x hx y hy
        have hyn : n = y := by simpa using hy
        rw [← hlast x hx, ← hyn]
        exact joined_splice hp.left_lt hn.right_lt
  · intro ring hr hdis
    apply hr.congr
    intro x hx y hy hxy
    apply hxy.splice
    · rintro rfl; exact hdis x hx hpm
    · rintro rfl; exact hdis y hy hnm

theorem IsRing.unlink_alone (h : IsRing links ↑[t]) :
    links.unlink t = .ok links ∧ links.relink t = .ok links := by
  have hj : Joined links t t := List.rel_of_isChain_cons_cons h.isChain
  have ht := isRing_singleton.mp h
  have hs : splice links t t t t = links := by
    apply Array.ext_getElem?
    intro i
    rw [getElem?_splice]
    by_cases hi : t = i
    · subst hi
      simp [ht, Link.alone]
    · simp [hi]
  have hu := unlink_of_joined hj hj
  have hr := relink_unlink hj hj
  rw [hs] at hu hr
  exact ⟨hu, hr⟩

theorem IsRing.isUnlinked (h : IsRing links ↑(t :: xs)) : links.isUnlinked t = .ok false := by
  obtain ⟨p, n, hp, hn, -⟩ := h.neighbours
  have ht := link_of_getElem? (hp.getElem? hn)
  obtain ⟨lp, hlp, hlpt⟩ := hp.link_left
  obtain ⟨ln, hln, hlnt⟩ := hn.link_right
  simp only [Links.isUnlinked, ht, bind, Except.bind, hlp, hlpt, if_true, hln, hlnt]
  simp [pure, Except.pure]

def Leads (links : Links) (step : Link → Nat) (a b : Nat) : Prop :=
  ∃ l, links.link a = .ok l ∧ step l = b

theorem IsRing.leads_next (h : IsRing links ↑(a :: xs)) :
    List.IsChain (Leads links Link.next) (a :: (xs ++ [a])) :=
  h.isChain.imp fun _ _ hxy => hxy.link_left

theorem IsRing.leads_prev (h : IsRing links ↑(a :: xs)) :
    List.IsChain (Leads links Link.prev) (a :: (xs.reverse ++ [a])) := by
  have hr : a :: (xs.reverse ++ [a]) = (a :: (xs ++ [a])).reverse := by simp
  rw [hr, List.isChain_reverse]
  exact h.isChain.imp fun _ _ hxy => hxy.link_right

theorem exists_leads {step : Link → Nat}
    (h : List.IsChain (Leads links step) (a :: (xs ++ [b]))) :
    ∃ l, links.link a = .ok l ∧ (xs ++ [b]).head? = some (step l) := by
  cases xs with
  | nil =>
    rcases h.rel_head? rfl with ⟨l, hl, rfl⟩
    exact ⟨l, hl, rfl⟩
  | cons x xs =>
    rcases h.rel_head? rfl with ⟨l, hl, rfl⟩
    exact ⟨l, hl, rfl⟩

theorem IsRing.next_head (h : IsRing links ↑(a :: xs)) :
    ∃ l, links.link a = .ok l ∧ l.next = xs.head?.getD a := by
  cases xs with
  | nil => exact h.leads_next.rel_head? rfl
  | cons x xs => exact h.leads_next.rel_head? rfl

theorem IsRing.next_inside (h : IsRing links ↑(a :: (xs ++ b :: ys))) :
    ∃ l, links.link b = .ok l ∧ l.next = ys.head?.getD a := by
  rw [← List.cons_append] at h
  have hn := h.rotate.next_head
  cases ys with
  | nil => exact hn
  | cons y ys => exact hn

theorem walk_of_leads {step : Link → Nat} {head cursor fuel : Nat} (hn : head ∉ xs)
    (hc : List.IsChain (Leads links step) (xs ++ [head])) (hx : (xs ++ [head]).head? = some cursor)
    (hf : xs.length < fuel) : walk links step head fuel cursor = .ok xs := by
  induction xs generalizing cursor fuel with
  | nil =>
    have hcursor : head = cursor := by simpa using hx
    subst hcursor
    cases fuel with
    | zero => simp at hf
    | succ fuel => simp [walk]
  | cons x xs ih =>
    have hcursor : x = cursor := by simpa using hx
    subst hcursor
    have hxh : x ≠ head := fun he => hn (he ▸ List.mem_cons_self)
    rcases exists_leads hc with ⟨l, hl, hfirst⟩
    cases fuel with
    | zero => simp at hf
    | succ fuel =>
      have ihx : walk links step head fuel (step l) = .ok xs :=
        ih (fun hm => hn (List.mem_cons_of_mem x hm)) (List.isChain_of_isChain_cons hc) hfirst
          (Nat.lt_of_succ_lt_succ hf)
      simp only [walk, if_neg hxh, hl, bind, Except.bind, ihx]
      rfl

/-- The walk forward from a node of a ring meets the others in order. -/
theorem IsRing.forward (h : IsRing links ↑(a :: xs)) : links.forward a = .ok xs := by
  have hc := h.leads_next
  rcases exists_leads hc with ⟨l, hl, hfirst⟩
  simp only [Links.forward, hl, bind, Except.bind]
  exact walk_of_leads (List.nodup_cons.mp h.nodup_cons).1 (List.isChain_of_isChain_cons hc) hfirst
    h.length_lt

theorem IsRing.backward (h : IsRing links ↑(a :: xs)) : links.backward a = .ok xs.reverse := by
  have hc := h.leads_prev
  rcases exists_leads hc with ⟨l, hl, hfirst⟩
  have hn : a ∉ xs.reverse := by simpa using (List.nodup_cons.mp h.nodup_cons).1
  have hlt : xs.reverse.length < links.size := by simpa using h.length_lt
  simp only [Links.backward, hl, bind, Except.bind]
  exact walk_of_leads hn (List.isChain_of_isChain_cons hc) hfirst hlt

@[simp] theorem size_addNode : links.addNode.size = links.size + 1 := by simp [addNode]

/-- A new node is a ring by itself, and the old rings stay. -/
theorem isRing_addNode : IsRing links.addNode ↑[links.size] := by
  rw [isRing_singleton]
  simp [addNode]

theorem IsRing.addNode (h : IsRing links ring) : IsRing links.addNode ring := by
  apply h.congr
  rintro x - y - ⟨⟨l, hl, hln⟩, l', hl', hlp⟩
  have hp {i : Nat} {k : Link} (hk : links[i]? = some k) : links.addNode[i]? = some k := by
    have hi := (Array.getElem?_eq_some_iff.mp hk).1
    simp only [Links.addNode]
    rw [Array.getElem?_push_lt hi, ← hk, Array.getElem?_eq_getElem hi]
  exact ⟨⟨l, hp hl, hln⟩, l', hp hl', hlp⟩

theorem insertBefore_of_joined (hp : Joined links p a) (ht : t < links.size) :
    links.insertBefore a t = .ok (splice (links.set t ⟨p, a⟩) p t a t) := by
  obtain ⟨l, hl, rfl⟩ := hp.link_right
  simp only [insertBefore, hl, bind, Except.bind, put_of_lt _ ht]
  rw [setNext_of_lt (by simpa using hp.left_lt)]
  exact setPrev_of_lt (by simpa using hp.right_lt)

theorem joined_insertBefore (hp : Joined links p a) (ht : t < links.size) (hta : t ≠ a)
    (hpt : p ≠ t) :
    Joined (splice (links.set t ⟨p, a⟩) p t a t) p t ∧
      Joined (splice (links.set t ⟨p, a⟩) p t a t) t a := by
  have hpl := hp.left_lt
  have hal := hp.right_lt
  constructor
  · constructor
    · simp [getElem_splice, hpl]
    · simp [getElem_splice, ht, hta.symm]
  · constructor
    · simp [getElem_splice, ht, hpt]
    · simp [getElem_splice, hal]

/-- A node that is a ring by itself becomes the last node before `a`. -/
theorem IsRing.insertBefore (h : IsRing links ↑(a :: xs)) (ht : IsRing links ↑[t])
    (hta : t ∉ a :: xs) :
    ∃ links', links.insertBefore a t = .ok links' ∧ links'.size = links.size ∧
      IsRing links' ↑(a :: (xs ++ [t])) ∧
      ∀ ring : Cycle Nat, IsRing links ring → (∀ x ∈ ring, x ∉ a :: xs ∧ x ≠ t) →
        IsRing links' ring := by
  obtain ⟨p, n, hp, -, hpm, -, hlast, -⟩ := h.neighbours
  have htlt : t < links.size := ht.lt_size t (by simp)
  have hne : t ≠ a := fun he => hta (he ▸ List.mem_cons_self)
  have hpt : p ≠ t := fun he => hta (he ▸ hpm)
  have hset {x y : Nat} (hx : x ≠ t) (hy : y ≠ t) (hxy : Joined links x y) :
      Joined (links.set t ⟨p, a⟩) x y := by
    rcases hxy with ⟨⟨l, hl, hln⟩, l', hl', hlp⟩
    constructor
    · exact ⟨l, (Array.getElem?_set_ne htlt (Ne.symm hx)).trans hl, hln⟩
    · exact ⟨l', (Array.getElem?_set_ne htlt (Ne.symm hy)).trans hl', hlp⟩
  have hj := joined_insertBefore hp htlt hne hpt
  refine ⟨_, insertBefore_of_joined hp htlt, by simp, ⟨?_, ?_⟩, ?_⟩
  · rw [Cycle.nodup_coe_iff, ← List.cons_append]
    exact List.nodup_append'.mpr ⟨h.nodup_cons, List.nodup_singleton t, by simpa using hta⟩
  · have hc : List.IsChain (Joined (links.set t ⟨p, a⟩)) (a :: xs) := by
      have hc := h.isChain
      rw [← List.cons_append] at hc
      apply hc.left_of_append.imp_of_mem_imp
      intro x y hx hy
      apply hset
      · exact fun he => hta (he ▸ hx)
      · exact fun he => hta (he ▸ hy)
    rw [Cycle.chain_coe_cons, List.append_assoc, ← List.cons_append]
    apply (isChain_splice h.nodup_cons hc hlast (by simp)).append (List.isChain_pair.mpr hj.2)
    intro x hx y hy
    have hty : t = y := by simpa using hy
    rw [← hlast x hx, ← hty]
    exact hj.1
  · intro ring hr hdis
    apply hr.congr
    intro x hx y hy hxy
    apply (hset (hdis x hx).2 (hdis y hy).2 hxy).splice
    · rintro rfl; exact (hdis x hx).1 hpm
    · rintro rfl; exact (hdis y hy).1 List.mem_cons_self

end DancingLinks.Links
