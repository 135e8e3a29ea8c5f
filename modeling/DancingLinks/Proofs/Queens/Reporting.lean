import DancingLinks.CommandLine.Report
import DancingLinks.Proofs.Concluding
import DancingLinks.Proofs.Interrupting
import DancingLinks.Proofs.Queens.Viewing
import DancingLinks.Proofs.Queens.Yielding

/-! # What the program reports about a board

Whatever way of counting is asked for, the number reported is the number of placements, and what is
drawn is one of them. Only a search that prunes may report less.
-/
namespace DancingLinks

open CoverMatrix Search

namespace Queens

variable {n : Nat}

end Queens

namespace CommandLine

open Queens

variable {γ : Type} {o : Outside γ} {paint : Emphasis → String → String} {n : Nat} {s : Settings}
  {m : CoverMatrix Constraint}

structure Plan where
  State : Type
  rule : BranchingRule Constraint State
  state : State

def Settings.plan (o : Outside γ) (s : Settings) : Plan :=
  let central := BranchingRule.fewestRows (priority s.boardSize)
  match s.strategy.getD .min with
  | .min => ⟨Unit, central, ()⟩
  | .first => ⟨Unit, .leftmost, ()⟩
  | .random => ⟨γ, .drawn o.draw, o.seeded (s.seed.getD 0)⟩
  | .prune => ⟨Unit, central.withPruning s.pruning, ()⟩

def countLine (paint : Emphasis → String → String) (n solutions nodes : Nat) : String :=
  s!"{n} queens: {paint .boldGreen (toString solutions)} solutions, {nodes} nodes"

def naiveLine (n solutions subproblems : Nat) : String :=
  s!"{n} queens: {solutions} solutions, {subproblems} subproblems"

/-- The calls of the search that the settings ask for, or the branches that it abandons, cannot be
counted in words. -/
inductive OutOfWords (o : Outside γ) (s : Settings) : Prop
  | counting {m : CoverMatrix Constraint} {events : List Event} (hfirst : s.first = false)
    (hm : matrix s.boardSize = .ok (.ok m))
    (h : (s.plan o).rule.count (s.plan o).state m = .error ⟨.overflow, events⟩)
    (hcalls : Word.modulus ≤ calls events + 1 ∨ Word.modulus ≤ abandonments events + 1)
  | finding {m : CoverMatrix Constraint} {events : List Event} (hfirst : s.first = true)
    (hm : matrix s.boardSize = .ok (.ok m))
    (h : (s.plan o).rule.run (s.plan o).state (keepBoard s.boardSize) none m =
      .error ⟨.overflow, events⟩)
    (hcalls : Word.modulus ≤ calls events + 1)

/-- How the program may end when it does what the settings ask for: with the number of placements,
with the drawing of one of them or word that there is none, or, if it prunes, with a number that is
no greater. -/
inductive Reports (o : Outside γ) (paint : Emphasis → String → String) (s : Settings) :
    Ending → Prop
  | refused (hs : admissible s.pruning.deviations = false) :
    Reports o paint s (.refused "--prune-deviations must be a finite non-negative number")
  | naive (hs : s.naive = true) (subproblems : Nat) :
    Reports o paint s
      (.done [naiveLine s.boardSize (placements s.boardSize).card subproblems] [])
  | crashed (hs : s.naive = false) (h : OutOfWords o s) : Reports o paint s (.crashed .overflow)
  | counted (hs : s.naive = false) (hfirst : s.first = false)
    (hprune : s.strategy.getD .min ≠ .prune) (nodes : Nat) (events : List Event) :
    Reports o paint s
      (.done [countLine paint s.boardSize (placements s.boardSize).card nodes] events)
  | bounded (hs : s.naive = false) (hfirst : s.first = false)
    (hprune : s.strategy.getD .min = .prune) {solutions : Nat}
    (hle : solutions ≤ (placements s.boardSize).card) (nodes : Nat) (rest : List String)
    (events : List Event) :
    Reports o paint s (.done (countLine paint s.boardSize solutions nodes :: rest) events)
  | drawn (hs : s.naive = false) (hfirst : s.first = true) {queens : List (Nat × Nat)}
    (hvalid : isValid s.boardSize queens = .ok true)
    (hplaced : queens.toFinset ∈ placements s.boardSize) (nodes : Nat) (events : List Event) :
    Reports o paint s (.done
      (drawing paint s.boardSize queens ++ [countLine paint s.boardSize 1 nodes]) events)
  | noneExists (hs : s.naive = false) (hfirst : s.first = true)
    (hnone : placements s.boardSize = ∅) (nodes : Nat) (events : List Event) :
    Reports o paint s (.done [paint .red "no placement exists",
      countLine paint s.boardSize 0 nodes] events)

section

variable (hn : s.boardSize < 2 ^ 31) (hm : matrix s.boardSize = .ok (.ok m))
  (hu : m.Under (boardTable s.boardSize) []) (hs : s.naive = false)

include hn hm hu hs

end

def Ending.plain : Ending → Ending
  | .done lines events => .done (lines.map Board.plainText) events
  | ending => ending

section

open Board

theorem escape_notMem_toString (k : Nat) : '\x1b' ∉ (toString k).toList := by
  intro h
  have hdigit := Nat.isDigit_of_mem_toDigits (b := 10) (by decide) (by decide) (by simpa using h)
  cases hdigit

theorem plainText_naiveLine (n solutions subproblems : Nat) :
    plainText (naiveLine n solutions subproblems) = naiveLine n solutions subproblems := by
  have hn := readsAs_self (escape_notMem_toString n)
  have hsolutions := readsAs_self (escape_notMem_toString solutions)
  have hsubproblems := readsAs_self (escape_notMem_toString subproblems)
  have hqueens : ReadsAs " queens: " " queens: " := readsAs_self (by decide)
  have hmiddle : ReadsAs " solutions, " " solutions, " := readsAs_self (by decide)
  have hlast : ReadsAs " subproblems" " subproblems" := readsAs_self (by decide)
  exact (((((hn.append hqueens).append hsolutions).append hmiddle).append hsubproblems).append
    hlast).plainText_eq

variable (h : OnlyWraps paint)

include h

theorem plainText_countLine (n solutions nodes : Nat) :
    plainText (countLine paint n solutions nodes) =
      countLine (fun _ text => text) n solutions nodes := by
  have hcount : ReadsAs (paint .boldGreen (toString solutions)) (toString solutions) := by
    apply h.readsAs
    exact escape_notMem_toString solutions
  have hn := readsAs_self (escape_notMem_toString n)
  have hnodes := readsAs_self (escape_notMem_toString nodes)
  have hqueens : ReadsAs " queens: " " queens: " := readsAs_self (by decide)
  have hsolutions : ReadsAs " solutions, " " solutions, " := readsAs_self (by decide)
  have hlast : ReadsAs " nodes" " nodes" := readsAs_self (by decide)
  exact (((((hn.append hqueens).append hcount).append hsolutions).append hnodes).append
    hlast).plainText_eq

theorem plainText_drawing (n : Nat) (queens : List (Nat × Nat)) :
    (drawing paint n queens).map plainText = drawing (fun _ text => text) n queens := by
  apply map_plainText
  apply readsAs_framed
  intro rank file
  split
  · exact h.readsAs .boldYellow (by decide)
  · exact h.readsAs .dimmed (by decide)

/-- Without colours, a report is the report of a program that uses none. -/
theorem Reports.plain {ending : Ending} (hr : Reports o paint s ending) :
    Reports o (fun _ text => text) s ending.plain := by
  cases hr with
  | refused hs => exact .refused hs
  | naive hs subproblems =>
    rw [Ending.plain, List.map_singleton, plainText_naiveLine]
    exact .naive hs subproblems
  | crashed hs hwords => exact .crashed hs hwords
  | counted hs hfirst hprune nodes events =>
    rw [Ending.plain, List.map_singleton, plainText_countLine h]
    exact .counted hs hfirst hprune nodes events
  | bounded hs hfirst hprune hle nodes rest events =>
    rw [Ending.plain, List.map_cons, plainText_countLine h]
    exact .bounded hs hfirst hprune hle nodes _ events
  | drawn hs hfirst hvalid hplaced nodes events =>
    rw [Ending.plain, List.map_append, plainText_drawing h, List.map_singleton,
      plainText_countLine h]
    exact .drawn hs hfirst hvalid hplaced nodes events
  | noneExists hs hfirst hnone nodes events =>
    have hplain : '\x1b' ∉ "no placement exists".toList := by decide
    have hred := (h.readsAs .red hplain).plainText_eq
    rw [Ending.plain, List.map_cons, hred, List.map_singleton, plainText_countLine h]
    exact .noneExists hs hfirst hnone nodes events

end

end CommandLine

end DancingLinks
