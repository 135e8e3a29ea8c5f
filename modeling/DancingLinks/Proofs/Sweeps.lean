import DancingLinks.CoverMatrix.Cover
import DancingLinks.Proofs.Rings

/-! # Loops around a ring

Every loop of covering has a loop that undoes it: the same ring the other way round, each step
undoing one step. A track records such a pair of loops step by step, with a property that holds
before and after every step. Where that property keeps the ring in place, both loops run along the
track, one from its start to its end and the other back.
-/
namespace DancingLinks.CoverMatrix

variable {L : Type} {keeps : CoverMatrix L → Prop}
  {act undo : CoverMatrix L → Nat → Except Fault (CoverMatrix L)} {m m₁ m₂ : CoverMatrix L}

/-- Doing `act` at the nodes in order leads from one matrix to another, and `undo` leads back. -/
inductive Track (keeps : CoverMatrix L → Prop)
    (act undo : CoverMatrix L → Nat → Except Fault (CoverMatrix L)) :
    CoverMatrix L → List Nat → CoverMatrix L → Prop
  | nil {m : CoverMatrix L} (h : keeps m) : Track keeps act undo m [] m
  | cons {m m₁ m₂ : CoverMatrix L} {node : Nat} {nodes : List Nat} (h : keeps m)
    (ha : act m node = .ok m₁) (hu : undo m₁ node = .ok m)
    (ht : Track keeps act undo m₁ nodes m₂) : Track keeps act undo m (node :: nodes) m₂

namespace Track

theorem keeps_left {nodes : List Nat} (h : Track keeps act undo m nodes m₁) : keeps m := by
  cases h <;> assumption

theorem keeps_right {nodes : List Nat} (h : Track keeps act undo m nodes m₁) : keeps m₁ := by
  induction h with
  | nil h => exact h
  | cons _ _ _ _ ih => exact ih

theorem append {xs ys : List Nat} (h : Track keeps act undo m xs m₁)
    (h' : Track keeps act undo m₁ ys m₂) : Track keeps act undo m (xs ++ ys) m₂ := by
  induction h with
  | nil _ => exact h'
  | cons h ha hu _ ih => exact .cons h ha hu (ih h')

theorem reverse {nodes : List Nat} (h : Track keeps act undo m nodes m₁) :
    Track keeps undo act m₁ nodes.reverse m := by
  induction h with
  | nil h => exact .nil h
  | cons h ha hu ht ih =>
    rw [List.reverse_cons]
    exact ih.append (.cons ht.keeps_left hu ha (.nil h))

theorem foldlM_eq {nodes : List Nat} (h : Track keeps act undo m nodes m₁) :
    nodes.foldlM act m = .ok m₁ := by
  induction h with
  | nil _ => rfl
  | cons _ ha _ _ ih =>
    rw [List.foldlM_cons, ha]
    exact ih

/-- A sweep follows a track along which every link of its path stays. -/
theorem sweep_eq {ring : CoverMatrix L → Links} {step : Link → Nat} {head cursor fuel : Nat}
    {nodes : List Nat} (h : Track keeps act undo m nodes m₁)
    (hk : ∀ m, keeps m → List.IsChain (Links.Leads (ring m) step) (nodes ++ [head]))
    (hn : head ∉ nodes) (hx : (nodes ++ [head]).head? = some cursor)
    (hf : nodes.length < fuel) : sweep ring step act head fuel cursor m = .ok m₁ := by
  induction h generalizing cursor fuel with
  | nil _ =>
    have hcursor : head = cursor := by simpa using hx
    subst hcursor
    cases fuel with
    | zero => simp at hf
    | succ fuel => simp [sweep]
  | @cons m m₁ m₂ node nodes _ ha _ ht ih =>
    have hcursor : node = cursor := by simpa using hx
    subst hcursor
    have hne : node ≠ head := fun he => hn (he ▸ List.mem_cons_self)
    rcases Links.exists_leads (hk m₁ ht.keeps_left) with ⟨l, hl, hfirst⟩
    cases fuel with
    | zero => simp at hf
    | succ fuel =>
      have hrest : sweep ring step act head fuel (step l) m₁ = .ok m₂ :=
        ih (fun m hm => List.isChain_of_isChain_cons (hk m hm))
          (fun hm => hn (List.mem_cons_of_mem node hm)) hfirst (Nat.lt_of_succ_lt_succ hf)
      simp only [sweep, if_neg hne, ha, bind, Except.bind, hl, hrest]

variable {ring : CoverMatrix L → Links} {head : Nat} {nodes : List Nat}

/-- The loop forward around a ring that stays in place runs along the track. -/
theorem around_next (h : Track keeps act undo m nodes m₁)
    (hk : ∀ m, keeps m → Links.IsRing (ring m) ↑(head :: nodes)) :
    m.around ring Link.next act head = .ok m₁ := by
  have hr := hk m h.keeps_left
  rcases Links.exists_leads hr.leads_next with ⟨l, hl, hfirst⟩
  simp only [around, hl, bind, Except.bind]
  exact h.sweep_eq (fun m hm => List.isChain_of_isChain_cons (hk m hm).leads_next)
    (List.nodup_cons.mp hr.nodup_cons).1 hfirst hr.length_lt

theorem around_prev (h : Track keeps act undo m nodes m₁)
    (hk : ∀ m, keeps m → Links.IsRing (ring m) ↑(head :: nodes)) :
    m₁.around ring Link.prev undo head = .ok m := by
  have hr := hk m₁ h.keeps_right
  have hn : head ∉ nodes.reverse := by simpa using (List.nodup_cons.mp hr.nodup_cons).1
  have hlt : nodes.reverse.length < (ring m₁).size := by simpa using hr.length_lt
  rcases Links.exists_leads hr.leads_prev with ⟨l, hl, hfirst⟩
  simp only [around, hl, bind, Except.bind]
  exact h.reverse.sweep_eq (fun m hm => List.isChain_of_isChain_cons (hk m hm).leads_prev) hn
    hfirst hlt

end Track

end DancingLinks.CoverMatrix
