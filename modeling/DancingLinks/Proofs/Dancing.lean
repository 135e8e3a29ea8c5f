import DancingLinks.Proofs.Rings
import Mathlib.Data.List.Nodup

/-! # Links that dance

An array of links falls into rings. Unlinking some of its nodes, one after the other, leaves every
ring without them, whether they were neighbours or a whole ring; relinking them in the opposite
order goes back through the very same arrays. A node that is unlinked keeps links to neighbours that
may leave after it, so it is the order that makes the old links right again when they are used.
-/
namespace DancingLinks.Links

variable {links links' : Links} {rings : List (List Nat)} {ring as bs gone ts : List Nat}
  {head t x : Nat}

/-- Every node stands in exactly one of these rings. -/
structure FallsInto (links : Links) (rings : List (List Nat)) : Prop where
  isRing : ∀ ring ∈ rings, IsRing links ↑ring
  nodup : rings.flatten.Nodup
  mem_iff : ∀ x, x ∈ rings.flatten ↔ x < links.size

def left (gone ring : List Nat) : List Nat := ring.filter (· ∉ gone)

@[simp] theorem left_nil (ring : List Nat) : left [] ring = ring := by simp [left]

@[simp] theorem mem_left : x ∈ left gone ring ↔ x ∈ ring ∧ x ∉ gone := by simp [left]

theorem left_append (gone as bs : List Nat) : left gone (as ++ bs) = left gone as ++ left gone bs :=
  List.filter_append as bs

theorem left_cons (hx : x ∉ gone) (ring : List Nat) : left gone (x :: ring) = x :: left gone ring :=
  List.filter_cons_of_pos (by simpa using hx)

theorem left_concat (gone ring : List Nat) (t : Nat) :
    left (gone ++ [t]) ring = (left gone ring).filter (· ≠ t) := by
  rw [left, left, List.filter_filter]
  apply List.filter_congr
  intro x _
  simp [and_comm]

theorem left_concat_of_notMem (ht : t ∉ ring) : left (gone ++ [t]) ring = left gone ring := by
  rw [left_concat, List.filter_eq_self]
  intro x hx
  have hxt : x ≠ t := fun heq => ht (heq ▸ (mem_left.mp hx).1)
  simpa using hxt

theorem left_concat_of_mem (hn : ring.Nodup) (hab : left gone ring = as ++ t :: bs) :
    left (gone ++ [t]) ring = as ++ bs := by
  have hnodup : (as ++ t :: bs).Nodup := by
    rw [← hab]
    exact hn.filter _
  rw [left_concat, hab, filter_ne_middle hnodup]

/-- The rings of an array have no node in common. -/
theorem eq_of_mem_rings {ring' : List Nat} (hn : rings.flatten.Nodup) (hr : ring ∈ rings)
    (hr' : ring' ∈ rings) (hx : x ∈ ring) (hx' : x ∈ ring') : ring = ring' := by
  have : Std.Symm (@List.Disjoint Nat) := ⟨fun _ _ h => h.symm⟩
  by_contra hne
  exact (List.nodup_flatten.mp hn).2.forall hr hr' hne hx hx'

theorem IsRing.getElem?_eq (h : IsRing links ↑ring) (h' : IsRing links' ↑ring) (hx : x ∈ ring) :
    links'[x]? = links[x]? := by
  obtain ⟨as, bs, rfl⟩ := List.append_of_mem hx
  obtain ⟨p, n, hp, hn, -, hmem, hlast, hhead⟩ := h.rotate.neighbours
  obtain ⟨p', n', hp', hn', -, hmem', hlast', hhead'⟩ := h'.rotate.neighbours
  have hpp : p = p' := by
    have hl := List.getLast?_eq_some_getLast (List.cons_ne_nil x (bs ++ as))
    rw [hlast _ hl, hlast' _ hl]
  have hnn : n = n' := by
    cases hxs : bs ++ as with
    | nil =>
      have hx : n = x := by simpa [hxs] using hmem
      have hx' : n' = x := by simpa [hxs] using hmem'
      rw [hx, hx']
    | cons f xs =>
      have hf : f ∈ (bs ++ as).head? := by simp [hxs]
      rw [hhead f hf, hhead' f hf]
  rw [hp.getElem? hn, hp'.getElem? hn', hpp, hnn]

theorem IsRing.walks_left (h : IsRing links ↑(left gone (as ++ x :: bs))) (hx : x ∉ gone) :
    links.forward x = .ok (left gone (bs ++ as)) ∧
      links.backward x = .ok (left gone (bs ++ as)).reverse := by
  have hring : IsRing links ↑(x :: left gone (bs ++ as)) := by
    rw [left_append, left_cons hx] at h
    rw [left_append]
    exact h.rotate
  exact ⟨hring.forward, hring.backward⟩

theorem exists_unlink_left (hn : rings.flatten.Nodup)
    (h : ∀ ring ∈ rings, IsRing links ↑(left gone ring)) (ht : t ∈ rings.flatten) (hg : t ∉ gone) :
    ∃ links', links.unlink t = .ok links' ∧ links'.relink t = .ok links ∧
      ∀ ring ∈ rings, IsRing links' ↑(left (gone ++ [t]) ring) := by
  obtain ⟨own, hown, hto⟩ := List.mem_flatten.mp ht
  obtain ⟨as, bs, hab⟩ := List.append_of_mem (mem_left.mpr ⟨hto, hg⟩)
  have hring : IsRing links ↑(t :: (bs ++ as)) := by
    have hring := h own hown
    rw [hab] at hring
    exact hring.rotate
  obtain ⟨links', hu, hre, -, hleft, hother⟩ := hring.unlink
  refine ⟨links', hu, hre, fun ring hr => ?_⟩
  by_cases htr : t ∈ ring
  · obtain rfl : ring = own := eq_of_mem_rings hn hr hown htr hto
    rw [left_concat_of_mem ((List.nodup_flatten.mp hn).1 ring hr) hab]
    exact hleft.rotate
  · rw [left_concat_of_notMem htr]
    apply hother _ (h ring hr)
    intro x hx hm
    have hxo : x ∈ own := by
      have hx' : x ∈ left gone own := by
        rw [hab]
        simp only [List.mem_cons, List.mem_append] at hm ⊢
        tauto
      exact (mem_left.mp hx').1
    have hxr : x ∈ ring := (mem_left.mp (Cycle.mem_coe_iff.mp hx)).1
    exact htr (eq_of_mem_rings hn hr hown hxr hxo ▸ hto)

theorem exists_unlinks_left (hn : rings.flatten.Nodup)
    (h : ∀ ring ∈ rings, IsRing links ↑(left gone ring)) (hts : ts.Nodup)
    (ht : ∀ t ∈ ts, t ∈ rings.flatten ∧ t ∉ gone) :
    ∃ links', ts.foldlM unlink links = .ok links' ∧ ts.reverse.foldlM relink links' = .ok links ∧
      ∀ ring ∈ rings, IsRing links' ↑(left (gone ++ ts) ring) := by
  induction ts generalizing links gone with
  | nil => exact ⟨links, rfl, rfl, by simpa using h⟩
  | cons t ts ih =>
    obtain ⟨htr, htg⟩ := ht t List.mem_cons_self
    obtain ⟨links₁, hu, hre, h₁⟩ := exists_unlink_left hn h htr htg
    have ht₁ : ∀ s ∈ ts, s ∈ rings.flatten ∧ s ∉ gone ++ [t] := by
      intro s hs
      have hst : s ≠ t := fun heq => (List.nodup_cons.mp hts).1 (heq ▸ hs)
      obtain ⟨hsr, hsg⟩ := ht s (List.mem_cons_of_mem t hs)
      exact ⟨hsr, by simp [hsg, hst]⟩
    obtain ⟨links', hus, hres, h'⟩ := ih h₁ hts.of_cons ht₁
    refine ⟨links', ?_, ?_, ?_⟩
    · rw [List.foldlM_cons, hu]
      exact hus
    · rw [List.reverse_cons, List.foldlM_append, hres]
      simp only [List.foldlM_cons, List.foldlM_nil, hre, bind, Except.bind]
      rfl
    · rwa [List.append_assoc] at h'

/-- Nodes unlinked from an array of rings leave their rings without them after each step, and are
relinked through the same arrays. -/
theorem FallsInto.exists_unlinks (h : FallsInto links rings) (hts : ts.Nodup)
    (ht : ∀ t ∈ ts, t < links.size) :
    ∃ last, ts.foldlM unlink links = .ok last ∧ ts.reverse.foldlM relink last = .ok links ∧
      ∀ before after, ts = before ++ after →
        ∃ mid, before.foldlM unlink links = .ok mid ∧
          after.reverse.foldlM relink last = .ok mid ∧
          ∀ ring ∈ rings, IsRing mid ↑(left before ring) := by
  have h₀ : ∀ ring ∈ rings, IsRing links ↑(left [] ring) := by simpa using h.isRing
  have hmem : ∀ t ∈ ts, t ∈ rings.flatten := fun t hm => (h.mem_iff t).mpr (ht t hm)
  obtain ⟨last, hlast, hback, -⟩ := exists_unlinks_left h.nodup h₀ hts
    fun t hm => ⟨hmem t hm, List.not_mem_nil⟩
  refine ⟨last, hlast, hback, ?_⟩
  rintro before after rfl
  obtain ⟨hbefore, hafter, hapart⟩ := List.nodup_append'.mp hts
  obtain ⟨mid, hmid, -, hrings⟩ := exists_unlinks_left h.nodup h₀ hbefore
    fun t hm => ⟨hmem t (List.mem_append_left after hm), List.not_mem_nil⟩
  rw [List.nil_append] at hrings
  obtain ⟨last', hlast', hback', -⟩ := exists_unlinks_left h.nodup hrings hafter
    fun t hm => ⟨hmem t (List.mem_append_right before hm), fun hb => hapart hb hm⟩
  have hsame : last' = last := by
    rw [List.foldlM_append, hmid] at hlast
    exact Except.ok.inj (hlast'.symm.trans hlast)
  exact ⟨mid, hmid, hsame ▸ hback', hrings⟩

/-- A node of its own comes last in the ring that it is inserted into, and the other rings keep all
their links. -/
theorem FallsInto.exists_insertBefore (h : FallsInto links rings) (hring : as ++ head :: bs ∈ rings)
    (ht : [t] ∈ rings) (htr : t ∉ as ++ head :: bs) :
    ∃ links', links.insertBefore head t = .ok links' ∧
      IsRing links' ↑(head :: (bs ++ as ++ [t])) ∧
      ∀ ring ∈ rings, head ∉ ring → t ∉ ring →
        IsRing links' ↑ring ∧ ∀ x ∈ ring, links'[x]? = links[x]? := by
  have hhead : IsRing links ↑(head :: (bs ++ as)) := (h.isRing _ hring).rotate
  have htr' : t ∉ head :: (bs ++ as) := by
    simp only [List.mem_append, List.mem_cons] at htr ⊢
    tauto
  obtain ⟨links', hi, -, hnew, hother⟩ := hhead.insertBefore (h.isRing _ ht) htr'
  refine ⟨links', hi, hnew, fun ring hr hhr htr => ?_⟩
  have hstays : IsRing links' ↑ring := by
    apply hother _ (h.isRing ring hr)
    intro x hx
    have hx : x ∈ ring := Cycle.mem_coe_iff.mp hx
    refine ⟨fun hm => hhr ?_, fun heq => htr (heq ▸ hx)⟩
    have hm' : x ∈ as ++ head :: bs := by
      simp only [List.mem_append, List.mem_cons] at hm ⊢
      tauto
    rw [eq_of_mem_rings h.nodup hr hring hx hm']
    simp
  exact ⟨hstays, fun x hx => (h.isRing ring hr).getElem?_eq hstays hx⟩

/-- Whatever nodes are unlinked in whatever order, every ring goes on without them, and relinking
them in the opposite order goes through the same arrays. A node of its own may be inserted into any
other ring. -/
theorem rings_survive_unlinking (h : FallsInto links rings) :
    (∀ ts : List Nat, ts.Nodup → (∀ t ∈ ts, t < links.size) →
      ∃ last, ts.foldlM unlink links = .ok last ∧ ts.reverse.foldlM relink last = .ok links ∧
        ∀ before after, ts = before ++ after →
          ∃ mid, before.foldlM unlink links = .ok mid ∧
            after.reverse.foldlM relink last = .ok mid ∧
            ∀ ring ∈ rings, IsRing mid ↑(left before ring) ∧
              ∀ as x bs, ring = as ++ x :: bs → x ∉ before →
                mid.forward x = .ok (left before (bs ++ as)) ∧
                mid.backward x = .ok (left before (bs ++ as)).reverse) ∧
    ∀ as head bs t, as ++ head :: bs ∈ rings → [t] ∈ rings → t ∉ as ++ head :: bs →
      ∃ links', links.insertBefore head t = .ok links' ∧
        IsRing links' ↑(head :: (bs ++ as ++ [t])) ∧
        links'.forward head = .ok (bs ++ as ++ [t]) ∧
        links'.backward head = .ok (bs ++ as ++ [t]).reverse ∧
        ∀ ring ∈ rings, head ∉ ring → t ∉ ring →
          IsRing links' ↑ring ∧ ∀ x ∈ ring, links'[x]? = links[x]? := by
  constructor
  · intro ts hts ht
    obtain ⟨last, hlast, hback, hmids⟩ := h.exists_unlinks hts ht
    refine ⟨last, hlast, hback, fun before after hsplit => ?_⟩
    obtain ⟨mid, hmid, hback', hrings⟩ := hmids before after hsplit
    refine ⟨mid, hmid, hback', fun ring hr => ⟨hrings ring hr, ?_⟩⟩
    rintro as x bs rfl hx
    exact (hrings _ hr).walks_left hx
  · intro as head bs t hring ht htr
    obtain ⟨links', hi, hnew, hothers⟩ := h.exists_insertBefore hring ht htr
    exact ⟨links', hi, hnew, hnew.forward, hnew.backward, hothers⟩

def arena : Links := #[⟨3, 1⟩, ⟨0, 2⟩, ⟨1, 3⟩, ⟨2, 0⟩, ⟨5, 5⟩, ⟨4, 4⟩, ⟨6, 6⟩]

theorem fallsInto_arena : arena.FallsInto [[0, 1, 2, 3], [4, 5], [6]] where
  isRing := by
    have hnodup : ∀ ring ∈ [[0, 1, 2, 3], [4, 5], [6]], ring.Nodup := by decide
    have hchain : ∀ ring ∈ [[0, 1, 2, 3], [4, 5], [6]], (ring : Cycle Nat).Chain arena.Joined := by
      simp [Cycle.chain_coe_cons, Joined, arena]
    exact fun ring hr => ⟨Cycle.nodup_coe_iff.mpr (hnodup ring hr), hchain ring hr⟩
  nodup := by decide
  mem_iff x := by
    have hnodes : [[0, 1, 2, 3], [4, 5], [6]].flatten = List.range 7 := by decide
    rw [hnodes]
    exact List.mem_range

theorem rings_survive_unlinking_seven : ∃ mid last links',
    [1, 2].foldlM unlink arena = .ok mid ∧ mid.forward 3 = .ok [0] ∧ mid.backward 0 = .ok [3] ∧
    [1, 2, 5, 4].foldlM unlink arena = .ok last ∧ [4, 5].foldlM relink last = .ok mid ∧
    [4, 5, 2, 1].foldlM relink last = .ok arena ∧
    arena.insertBefore 2 6 = .ok links' ∧ links'.forward 2 = .ok [3, 0, 1, 6] := by
  obtain ⟨hunlinks, hinserts⟩ := rings_survive_unlinking fallsInto_arena
  obtain ⟨last, hlast, hback, hmids⟩ := hunlinks [1, 2, 5, 4] (by decide) (by decide)
  obtain ⟨mid, hmid, hback', hrings⟩ := hmids [1, 2] [5, 4] rfl
  obtain ⟨-, hwalks⟩ := hrings [0, 1, 2, 3] (by simp)
  obtain ⟨links', hi, -, hforward, -⟩ := hinserts [0, 1] 2 [3] 6 (by simp) (by simp) (by decide)
  have hthree := (hwalks [0, 1, 2] 3 [] rfl (by decide)).1
  have hzero := (hwalks [] 0 [1, 2, 3] rfl (by decide)).2
  exact ⟨mid, last, links', hmid, hthree, hzero, hlast, hback', hback, hi, hforward⟩

end DancingLinks.Links
