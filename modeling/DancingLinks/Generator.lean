/-! # Drawing by lot

An item of a list is drawn with the help of a source of chance. The source that is used is a
multiplicative congruential generator on 128 bits whose output is its folded and rotated state.
-/
namespace DancingLinks

/-- A way of drawing: some item of the list, unless it is empty, and the source of chance as it is
left. -/
structure Draw (γ : Type) where
  choose : List Nat → γ → Option Nat × γ
  choose_nil : ∀ g, (choose [] g).1 = none
  exists_mem : ∀ items g, items ≠ [] → ∃ x ∈ items, (choose items g).1 = some x

structure Generator where
  state : BitVec 128
deriving DecidableEq

namespace Generator

/-- The congruential sequence that stretches a seed. -/
def stretch (s : BitVec 64) : BitVec 64 :=
  s * 6364136223846793005#64 + 11634580027462260723#64

def mix (s : BitVec 64) : BitVec 32 :=
  ((((s >>> 18) ^^^ s) >>> 27).setWidth 32).rotateRight (s >>> 59).toNat

/-- The generator of a seed. Its state is odd, as a multiplicative generator needs. -/
def ofSeed (seed : Nat) : Generator :=
  let a := stretch (BitVec.ofNat 64 seed)
  let b := stretch a
  let c := stretch b
  let d := stretch c
  ⟨(mix d ++ mix c ++ mix b ++ mix a : BitVec 128) ||| 1#128⟩

def multiplier : BitVec 128 := 0x2360ED051FC65DA44385DF649FCCF645#128

def step (g : Generator) : Generator := ⟨g.state * multiplier⟩

def output (g : Generator) : BitVec 64 :=
  (g.state.extractLsb' 64 64 ^^^ g.state.setWidth 64).rotateRight (g.state >>> 122).toNat

def draw (g : Generator) : Nat × Generator :=
  let g := g.step
  ((g.output.setWidth 32).toNat, g)

/-- The largest low half of a product that is accepted for a range, one less than the largest
multiple of the range by a power of two that fits 32 bits. -/
def zone (range : Nat) : Nat := range * Nat.pow 2 (31 - range.log2) - 1

/-- A number below `range`: the high half of a product whose low half lies in the zone. At least
every second draw does; after so many tries the next draw is taken as it is. -/
def belowWithin (range : Nat) : Nat → Generator → Nat × Generator
  | 0, g =>
    let (v, g) := g.draw
    (v * range / Nat.pow 2 32, g)
  | tries + 1, g =>
    let (v, g) := g.draw
    if v * range % Nat.pow 2 32 ≤ zone range then (v * range / Nat.pow 2 32, g)
    else belowWithin range tries g

def below (range : Nat) (g : Generator) : Nat × Generator := belowWithin range (1024 + range) g

/-- Goes through `items`, of which the first is the `k`-th of its list, and keeps each with
probability `1 / k`, its number, in place of the one kept so far. -/
def reservoir {α : Type} (k : Nat) (kept : Option α) : List α → Generator → Option α × Generator
  | [], g => (kept, g)
  | item :: rest, g =>
    let d := below k g
    reservoir (k + 1) (if d.1 = 0 then some item else kept) rest d.2

def choose {α : Type} (items : List α) (g : Generator) : Option α × Generator :=
  reservoir 1 none items g

/-- The reservoir keeps an item of the list or the one it had. -/
theorem reservoir_mem {α : Type} {items : List α} {k : Nat} {kept : Option α} {g : Generator}
    {x : α} (h : (reservoir k kept items g).1 = some x) : x ∈ items ∨ kept = some x := by
  induction items generalizing k kept g with
  | nil => exact Or.inr h
  | cons y rest ih =>
    rcases ih h with hx | hx
    · exact Or.inl (List.mem_cons_of_mem y hx)
    · by_cases hd : (below k g).1 = 0
      · rw [if_pos hd, Option.some.injEq] at hx
        exact Or.inl (hx ▸ List.mem_cons_self)
      · rw [if_neg hd] at hx
        exact Or.inr hx

theorem choose_mem {α : Type} {items : List α} {g : Generator} {x : α}
    (h : (choose items g).1 = some x) : x ∈ items := by
  rcases reservoir_mem h with hx | hx
  · exact hx
  · cases hx

theorem draw_lt (g : Generator) : g.draw.1 < Nat.pow 2 32 := (g.step.output.setWidth 32).isLt

theorem belowWithin_one (tries : Nat) (g : Generator) : (belowWithin 1 tries g).1 = 0 := by
  have hzero (g : Generator) : g.draw.1 * 1 / Nat.pow 2 32 = 0 := by
    rw [Nat.mul_one]
    exact Nat.div_eq_of_lt g.draw_lt
  induction tries generalizing g with
  | zero => exact hzero g
  | succ tries ih =>
    simp only [belowWithin]
    split
    · exact hzero g
    · exact ih _

theorem reservoir_isSome {α : Type} (items : List α) (k : Nat) (x : α) (g : Generator) :
    (reservoir k (some x) items g).1.isSome := by
  induction items generalizing k x g with
  | nil => rfl
  | cons y rest ih =>
    rw [reservoir]
    split
    · exact ih _ _ _
    · exact ih _ _ _

theorem choose_isSome {α : Type} (y : α) (rest : List α) (g : Generator) :
    (choose (y :: rest) g).1.isSome := by
  have hzero : (below 1 g).1 = 0 := belowWithin_one _ g
  rw [choose, reservoir, hzero, if_pos rfl]
  exact reservoir_isSome _ _ _ _

def drawing : Draw Generator where
  choose := choose
  choose_nil _ := rfl
  exists_mem items g hne := by
    cases items with
    | nil => exact absurd rfl hne
    | cons y rest =>
      rcases Option.isSome_iff_exists.mp (choose_isSome y rest g) with ⟨x, hx⟩
      exact ⟨x, choose_mem hx, hx⟩

end Generator

end DancingLinks
