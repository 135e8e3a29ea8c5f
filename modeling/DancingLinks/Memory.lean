import DancingLinks.Pruning
import DancingLinks.Queens.Board
import DancingLinks.Queens.Encoding

/-! # Memory

Everywhere else memory is taken for granted, and a list or a text is as long as it is made. A
request that names a number so large that a list of that many items would fill the address space ends
here, before the list is begun. A list that is made item by item doubles its room when it is full.
-/
namespace DancingLinks.Memory

/-- The size of the address space in bytes; no list takes that much. -/
def addressSpace : Nat := Nat.pow 2 63

/-- Sets aside a list of items of `bytes` bytes each. -/
def reserve (items bytes : Nat) : Except Fault Unit :=
  if items * bytes < addressSpace then .ok () else .error .tooLarge

theorem reserve_of_lt {items bytes : Nat} (h : items * bytes < addressSpace) :
    reserve items bytes = .ok () := if_pos h

/-- The room that a list of so many items has, which had `room` before. -/
def grow (room items bytes : Nat) : Except Fault Nat :=
  if items ≤ room then .ok room
  else do
    let larger := max 4 (max (2 * room) items)
    reserve larger bytes
    return larger

/-- A list that grows takes less than twice the room of its items, or that of four. -/
theorem exists_grow {room items bytes : Nat} (hfour : 4 * bytes < addressSpace)
    (hitems : (2 * items - 1) * bytes < addressSpace) :
    ∃ larger, grow room items bytes = .ok larger := by
  rw [grow]
  by_cases h : items ≤ room
  · exact ⟨room, if_pos h⟩
  · have hlarger : max 4 (max (2 * room) items) * bytes < addressSpace := by
      rcases Nat.le_total (max (2 * room) items) 4 with hle | hle
      · rwa [Nat.max_eq_left hle]
      · rw [Nat.max_eq_right hle]
        have hless : max (2 * room) items ≤ 2 * items - 1 := by omega
        exact Nat.lt_of_le_of_lt (Nat.mul_le_mul_right bytes hless) hitems
    simp only [if_neg h, reserve_of_lt hlarger, bind, Except.bind]
    exact ⟨_, rfl⟩

def columns (n : Nat) : Except Fault (List (Constraint × Bool)) := do
  let diagonals ← Queens.diagonalCount n
  reserve (2 * n + 2 * diagonals) 32
  Queens.columns n

def matrix (n : Nat) : Except Fault (Except Rejection (CoverMatrix Constraint)) := do
  let diagonals ← Queens.diagonalCount n
  reserve (2 * n + 2 * diagonals) 32
  Queens.matrix n

def board (n : Nat) (queens : List (Nat × Nat)) : Except Fault Queens.Board := do
  reserve n 16
  Queens.Board.ofQueens n queens

theorem board_of_lt {n : Nat} (h : n * 16 < addressSpace) (queens : List (Nat × Nat)) :
    board n queens = Queens.Board.ofQueens n queens := by
  rw [board, reserve_of_lt h]
  rfl

/-- The samples of a search and the room that is taken for them. -/
structure Windows where
  samples : DepthSamples
  /-- The room for windows. All depths up to the last one with samples have a window. -/
  room : Nat
  /-- The room for samples at each depth. -/
  rooms : Nat → Nat

namespace Windows

def empty (p : Pruning) : Windows := ⟨.empty p, 0, fun _ => 0⟩

/-- Makes room for a sample more at a depth. -/
def widen (w : Windows) (depth : Nat) : Except Fault Windows :=
  let cap := w.samples.pruning.sampleCap
  if cap = 0 then .ok w
  else do
    let room ← grow w.room (← Word.add depth 1) 32
    let width ← grow (w.rooms depth) (min cap (w.samples.sampleCount depth + 1)) 8
    return { w with room, rooms := fun d => if d = depth then width else w.rooms d }

def record (w : Windows) (depth removed : Nat) : Except Fault Windows := do
  let w ← w.widen depth
  return { w with samples := ← w.samples.record depth removed }

def judge (w : Windows) (depth removed : Nat) : Except Fault (Bool × Windows) := do
  let w ← w.widen depth
  let (abandoned, samples) ← w.samples.judge depth removed
  return (abandoned, { w with samples })

theorem exists_widen {w : Windows} {depth : Nat}
    (h : w.samples.pruning.sampleCap = 0 ∨ depth < Nat.pow 2 57 ∧
      min w.samples.pruning.sampleCap (w.samples.sampleCount depth + 1) ≤ Nat.pow 2 59) :
    ∃ w', w.widen depth = .ok w' ∧ w'.samples = w.samples := by
  rw [widen]
  by_cases hcap : w.samples.pruning.sampleCap = 0
  · exact ⟨w, if_pos hcap, rfl⟩
  · obtain ⟨hdepth, hcount⟩ := h.resolve_left hcap
    obtain ⟨room, hroom⟩ := @exists_grow w.room (depth + 1) 32 (by decide) (by
      have hspace : addressSpace = 32 * (2 * Nat.pow 2 57) := rfl
      omega)
    obtain ⟨width, hwidth⟩ := @exists_grow (w.rooms depth)
      (min w.samples.pruning.sampleCap (w.samples.sampleCount depth + 1)) 8 (by decide) (by
      have hspace : addressSpace = 8 * (2 * Nat.pow 2 59) := rfl
      omega)
    have hword : depth + 1 < Word.modulus := by
      have hmodulus : Word.modulus = 128 * Nat.pow 2 57 := rfl
      omega
    simp only [if_neg hcap, Word.add_of_lt hword, hroom, hwidth, bind, Except.bind]
    exact ⟨_, rfl, rfl⟩

end Windows

end DancingLinks.Memory
