import DancingLinks.Word

/-! # Statistical pruning

A branch is abandoned when it hides unusually many rows compared with the branches tried before it
at the same depth: more than the mean plus some standard deviations. Each depth keeps a window of
its latest samples. The method loses covers and is an option of the caller.
-/
namespace DancingLinks

/-- How samples are compared: what counts as unusual after some samples, for a number of standard
deviations, and whether a count of rows lies above such a bound. -/
class Statistics where
  bound : Float → List Nat → Float
  isAbove : Nat → Float → Bool

namespace Sample

def meanStep (acc : Float × Float) (x : Float) : Float × Float :=
  let i := acc.1 + 1.0
  (i, acc.2 + (x - acc.2) / i)

def mean (xs : List Float) : Float := (xs.foldl meanStep (0.0, 0.0)).2

/-- The sum of the values taken in, their number, and the sum of their squared deviations from
the mean. -/
structure Spread where
  sum : Float
  count : Float
  squares : Float

def Spread.add (s : Spread) (x : Float) : Spread :=
  let i := s.count + 1.0
  let sum := s.sum + x
  let d := i * x - sum
  ⟨sum, i, s.squares + d * d / (i * (i - 1.0))⟩

def standardDeviation : List Float → Float
  | [] => 0.0 / 0.0
  | x :: xs =>
    let s := xs.foldl Spread.add ⟨x, 1.0, 0.0⟩
    (s.squares / (s.count - 1.0)).sqrt

def ofCount (n : Nat) : Float := n.toUInt64.toFloat

def bound (deviations : Float) (window : List Nat) : Float :=
  let xs := window.map ofCount
  mean xs + deviations * standardDeviation xs

end Sample

instance : Statistics where
  bound := Sample.bound
  isAbove removed bound := bound < Sample.ofCount removed

structure Pruning where
  /-- How many samples a depth keeps. -/
  sampleCap : Nat := 1000
  /-- How many standard deviations above the mean a branch may lie. -/
  deviations : Float := 1.0
  /-- How many samples a depth needs before it abandons anything. -/
  minSamples : Nat := 10
  [statistics : Statistics]

namespace Pruning

/-- The number of samples that a judgement takes; a deviation needs two. -/
def warmUp (p : Pruning) : Nat := max p.minSamples 2

/-- The number of hidden rows above which a branch is abandoned, given the samples before it. -/
def bound? (p : Pruning) (window : List Nat) : Option Float :=
  if window.length < p.warmUp then none else some (p.statistics.bound p.deviations window)

def exceeds (p : Pruning) (window : List Nat) (removed : Nat) : Bool :=
  match p.bound? window with
  | some bound => p.statistics.isAbove removed bound
  | none => false

def slide (p : Pruning) (window : List Nat) (removed : Nat) : List Nat :=
  (if window.length = p.sampleCap then window.drop 1 else window) ++ [removed]

end Pruning

/-- The samples of the depths that have some, the oldest of a depth first. -/
structure DepthSamples where
  pruning : Pruning
  windows : List (Nat × List Nat)

namespace DepthSamples

def empty (p : Pruning) : DepthSamples := ⟨p, []⟩

def window (s : DepthSamples) (depth : Nat) : List Nat := (s.windows.lookup depth).getD []

def sampleCount (s : DepthSamples) (depth : Nat) : Nat := (s.window depth).length

def bound? (s : DepthSamples) (depth : Nat) : Option Float := s.pruning.bound? (s.window depth)

/-- Takes in a sample. All depths up to this one have a window, so their number is a word. -/
def record (s : DepthSamples) (depth removed : Nat) : Except Fault DepthSamples :=
  if s.pruning.sampleCap = 0 then .ok s
  else do
    let _ ← Word.add depth 1
    let window := s.pruning.slide (s.window depth) removed
    return ⟨s.pruning, (depth, window) :: s.windows.filter (·.1 ≠ depth)⟩

@[simp] theorem window_empty (p : Pruning) (depth : Nat) : (empty p).window depth = [] := rfl

theorem lookup_filter_of_ne {d depth : Nat} (h : d ≠ depth) (windows : List (Nat × List Nat)) :
    (windows.filter (·.1 ≠ depth)).lookup d = windows.lookup d := by
  induction windows with
  | nil => rfl
  | cons w windows ih =>
    by_cases hw : w.1 = depth
    · rw [List.filter_cons_of_neg (by simpa using hw), ih, List.lookup_cons,
        beq_false_of_ne (hw ▸ h)]
    · rw [List.filter_cons_of_pos (by simpa using hw), List.lookup_cons, List.lookup_cons, ih]

/-- A sample changes the window of its own depth only. -/
theorem window_record {s t : DepthSamples} {depth removed : Nat}
    (h : s.record depth removed = .ok t) (d : Nat) :
    t.window d = if d = depth ∧ s.pruning.sampleCap ≠ 0
      then s.pruning.slide (s.window depth) removed else s.window d := by
  unfold record at h
  by_cases hc : s.pruning.sampleCap = 0
  · simp only [hc, if_true, Except.ok.injEq] at h
    simp [hc, ← h]
  · cases hw : Word.add depth 1 with
    | error f => simp [hc, hw, bind, Except.bind] at h
    | ok depths =>
      simp only [if_neg hc, hw, bind, Except.bind, pure, Except.pure, Except.ok.injEq] at h
      subst h
      by_cases hd : d = depth
      · simp [window, hd, hc]
      · rw [if_neg fun hand => hd hand.1, window, List.lookup_cons, beq_false_of_ne hd]
        exact congrArg (·.getD []) (lookup_filter_of_ne hd s.windows)

theorem exists_record (s : DepthSamples) {depth : Nat} (h : depth + 1 < Word.modulus)
    (removed : Nat) : ∃ t, s.record depth removed = .ok t := by
  unfold record
  split
  · exact ⟨s, rfl⟩
  · rw [Word.add_of_lt h]
    exact ⟨_, rfl⟩

/-- Judges a branch by the samples so far and then takes it in. -/
def judge (s : DepthSamples) (depth removed : Nat) : Except Fault (Bool × DepthSamples) := do
  let abandoned := s.pruning.exceeds (s.window depth) removed
  let s ← s.record depth removed
  return (abandoned, s)

end DepthSamples

end DancingLinks
