import DancingLinks.Proofs.Queens.Attacks
import Mathlib.Data.List.Induction
import Mathlib.Data.List.Lex
import Mathlib.Data.List.Sort

/-! # Placing queens rank by rank

A list of files puts queens on the first ranks of a board. Going rank by rank and trying the files
of a rank in their order goes through the lists on which no two queens attack each other, each once
and in lexicographic order.
-/
namespace DancingLinks.Queens

variable {n j left : Nat} {q : Nat × Nat} {files more gs : List Nat}

def queensOf (files : List Nat) : List (Nat × Nat) := files.mapIdx Prod.mk

theorem queensOf_append (files more : List Nat) : ∃ rest,
    queensOf (files ++ more) = queensOf files ++ rest := ⟨_, List.mapIdx_append⟩

theorem queensOf_concat (files : List Nat) (j : Nat) :
    queensOf (files ++ [j]) = queensOf files ++ [(files.length, j)] := List.mapIdx_concat

theorem length_queensOf (files : List Nat) : (queensOf files).length = files.length :=
  List.length_mapIdx

theorem map_snd_queensOf (files : List Nat) : (queensOf files).map Prod.snd = files := by
  induction files using List.reverseRecOn with
  | nil => rfl
  | append_singleton files j ih => rw [queensOf_concat, List.map_append, ih, List.map_singleton]

theorem map_fst_queensOf (files : List Nat) :
    (queensOf files).map Prod.fst = List.range files.length := by
  induction files using List.reverseRecOn with
  | nil => rfl
  | append_singleton files j ih =>
    rw [queensOf_concat, List.map_append, ih, List.map_singleton, List.length_append,
      List.length_singleton, List.range_succ]

theorem rank_lt_of_mem (h : q ∈ queensOf files) : q.1 < files.length := by
  rw [← List.mem_range, ← map_fst_queensOf]
  exact List.mem_map_of_mem h

theorem file_mem_of_mem (h : q ∈ queensOf files) : q.2 ∈ files := by
  rw [← map_snd_queensOf files]
  exact List.mem_map_of_mem h

/-- The queens stand on the board, and no two of them attack each other. -/
structure NonAttacking (n : Nat) (files : List Nat) : Prop where
  inRange : ∀ j ∈ files, j < n
  apart : (queensOf files).Pairwise (Apart n)

/-- The files on which the next rank takes a queen, ascending. -/
def safeFiles (n : Nat) (files : List Nat) : List Nat :=
  (List.range n).filter fun j => ∀ q ∈ queensOf files, Apart n q (files.length, j)

theorem mem_safeFiles :
    j ∈ safeFiles n files ↔ j < n ∧ ∀ q ∈ queensOf files, Apart n q (files.length, j) := by
  simp [safeFiles]

theorem safeFiles_ascending (n : Nat) (files : List Nat) :
    (safeFiles n files).Pairwise (· < ·) := List.pairwise_lt_range.filter _

theorem NonAttacking.nil (n : Nat) : NonAttacking n [] := ⟨by simp, List.Pairwise.nil⟩

theorem NonAttacking.of_append (h : NonAttacking n (files ++ more)) : NonAttacking n files := by
  rcases queensOf_append files more with ⟨rest, hrest⟩
  constructor
  · intro j hj
    exact h.inRange j (List.mem_append_left more hj)
  · have hall := h.apart
    rw [hrest] at hall
    exact (List.pairwise_append.mp hall).1

theorem nonAttacking_concat :
    NonAttacking n (files ++ [j]) ↔ NonAttacking n files ∧ j ∈ safeFiles n files := by
  rw [mem_safeFiles]
  constructor
  · intro h
    have hall := h.apart
    rw [queensOf_concat, List.pairwise_append] at hall
    refine ⟨h.of_append, h.inRange j (by simp), fun q hq => ?_⟩
    exact hall.2.2 q hq _ (List.mem_singleton_self _)
  · rintro ⟨h, hj, hsafe⟩
    constructor
    · intro d hd
      rcases List.mem_append.mp hd with hd | hd
      · exact h.inRange d hd
      · rwa [List.mem_singleton.mp hd]
    · rw [queensOf_concat, List.pairwise_append]
      refine ⟨h.apart, List.pairwise_singleton _ _, fun q hq q' hq' => ?_⟩
      rw [List.mem_singleton.mp hq']
      exact hsafe q hq

theorem NonAttacking.onBoard (h : NonAttacking n files) (hlength : files.length ≤ n)
    (hq : q ∈ queensOf files) : OnBoard n q :=
  ⟨(rank_lt_of_mem hq).trans_le hlength, h.inRange _ (file_mem_of_mem hq)⟩

/-- What placing queens on up to `left` more ranks goes through: the queens placed already, and then
for each safe file of the next rank what goes on from there. -/
def partials (n : Nat) : Nat → List Nat → List (List Nat)
  | 0, files => [files]
  | left + 1, files => files :: (safeFiles n files).flatMap fun j => partials n left (files ++ [j])

def complete (n : Nat) (gone : List (List Nat)) : List (List Nat) := gone.filter (·.length = n)

theorem complete_append (n : Nat) (gone more : List (List Nat)) :
    complete n (gone ++ more) = complete n gone ++ complete n more := List.filter_append _ _

theorem complete_partials_zero (h : files.length = n) :
    complete n (partials n 0 files) = [files] := by
  simpa [partials, complete] using h

theorem complete_partials_succ (h : files.length < n) : complete n (partials n (left + 1) files) =
    complete n ((safeFiles n files).flatMap fun j => partials n left (files ++ [j])) := by
  rw [partials]
  exact List.filter_cons_of_neg (by simpa using h.ne)

/-- Every list without attacks that goes on from the queens placed is gone through. -/
theorem mem_partials (h : NonAttacking n files) : gs ∈ partials n left files ↔
    files <+: gs ∧ gs.length ≤ files.length + left ∧ NonAttacking n gs := by
  induction left generalizing files with
  | zero =>
    rw [partials, List.mem_singleton]
    constructor
    · rintro rfl
      exact ⟨List.prefix_rfl, le_rfl, h⟩
    · rintro ⟨hfrom, hlength, -⟩
      exact (hfrom.eq_of_length_le hlength).symm
  | succ left ih =>
    rw [partials, List.mem_cons, List.mem_flatMap]
    constructor
    · rintro (rfl | ⟨j, hj, hgs⟩)
      · exact ⟨List.prefix_rfl, Nat.le_add_right _ _, h⟩
      · rw [ih (nonAttacking_concat.mpr ⟨h, hj⟩), List.length_append, List.length_singleton] at hgs
        rcases hgs with ⟨hfrom, hlength, hgs⟩
        exact ⟨(List.prefix_append files [j]).trans hfrom, by omega, hgs⟩
    · rintro ⟨⟨more, hmore⟩, hlength, hgs⟩
      cases more with
      | nil =>
        rw [List.append_nil] at hmore
        exact Or.inl hmore.symm
      | cons j more =>
        rw [List.append_cons] at hmore
        have hnext : NonAttacking n (files ++ [j]) := by
          rw [← hmore] at hgs
          exact hgs.of_append
        refine Or.inr ⟨j, (nonAttacking_concat.mp hnext).2, (ih hnext).mpr ⟨⟨more, hmore⟩, ?_, hgs⟩⟩
        rw [List.length_append, List.length_singleton]
        omega

/-- What is gone through comes in lexicographic order. -/
theorem partials_ascending (h : NonAttacking n files) :
    (partials n left files).Pairwise (· < ·) := by
  induction left generalizing files with
  | zero => exact List.pairwise_singleton _ _
  | succ left ih =>
    have hgoes : ∀ j ∈ safeFiles n files, ∀ gs ∈ partials n left (files ++ [j]),
        ∃ more, gs = files ++ j :: more := by
      intro j hj gs hgs
      rcases ((mem_partials (nonAttacking_concat.mpr ⟨h, hj⟩)).mp hgs).1 with ⟨more, rfl⟩
      exact ⟨more, (List.append_cons files j more).symm⟩
    rw [partials, List.pairwise_cons, List.pairwise_flatMap]
    refine ⟨?_, ?_, ?_⟩
    · intro gs hgs
      rcases List.mem_flatMap.mp hgs with ⟨j, hj, hgs⟩
      rcases hgoes j hj gs hgs with ⟨more, rfl⟩
      have hlt : files ++ [] < files ++ j :: more := List.append_left_lt (List.nil_lt_cons j more)
      rwa [List.append_nil] at hlt
    · intro j hj
      exact ih (nonAttacking_concat.mpr ⟨h, hj⟩)
    · apply (safeFiles_ascending n files).imp_of_mem
      intro j j' hj hj' hlt gs hgs gs' hgs'
      rcases hgoes j hj gs hgs with ⟨more, rfl⟩
      rcases hgoes j' hj' gs' hgs' with ⟨more', rfl⟩
      exact List.append_left_lt (List.Lex.rel hlt)

/-- What a list adds to another one, if it goes on from it by one item. -/
def added? (xs ys : List Nat) : Option Nat := if ys.dropLast = xs then ys.getLast? else none

theorem added?_eq_some {xs ys : List Nat} : added? xs ys = some j ↔ ys = xs ++ [j] := by
  rw [added?]
  constructor
  · intro h
    split_ifs at h with hxs
    rw [← hxs]
    exact (List.dropLast_append_getLast? j h).symm
  · rintro rfl
    rw [List.dropLast_concat, if_pos rfl, List.getLast?_concat]

theorem concat_lt_concat {xs : List Nat} {a b : Nat} (h : xs ++ [a] < xs ++ [b]) : a < b := by
  rcases Nat.lt_trichotomy a b with hab | rfl | hab
  · exact hab
  · exact absurd h (lt_irrefl _)
  · exact absurd (List.append_left_lt (List.Lex.rel hab)) (lt_asymm h)

/-- After each list that leaves a rank without a queen, exactly the safe files of the next rank are
tried, in ascending order. -/
theorem filterMap_added?_partials (h : NonAttacking n files) (hlt : files.length < n) :
    (partials n n []).filterMap (added? files) = safeFiles n files := by
  have hascending : ((partials n n []).filterMap (added? files)).Pairwise (· < ·) := by
    rw [List.pairwise_filterMap]
    apply (partials_ascending (.nil n)).imp
    intro gs gs' hgs j hj j' hj'
    rw [added?_eq_some.mp hj, added?_eq_some.mp hj'] at hgs
    exact concat_lt_concat hgs
  apply hascending.eq_of_mem_iff (safeFiles_ascending n files)
  intro j
  rw [List.mem_filterMap]
  simp only [added?_eq_some, exists_eq_right, mem_partials (NonAttacking.nil n), List.nil_prefix,
    true_and, nonAttacking_concat, List.length_append, List.length_nil, List.length_singleton]
  constructor
  · exact fun hj => hj.2.2
  · exact fun hj => ⟨by omega, h, hj⟩

end DancingLinks.Queens
