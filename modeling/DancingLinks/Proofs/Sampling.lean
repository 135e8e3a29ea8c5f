import DancingLinks.Memory
import DancingLinks.Proofs.WarmingUp
import Mathlib.Data.List.DropRight

/-! # A window for every depth

The samples of a depth are the latest that were passed there, oldest first, as many as the cap
allows. A branch is judged by the window that it finds and then enters it, abandoned or not. So what
is asked at a depth is answered from what was passed at that depth alone.
-/
namespace DancingLinks

/-- A window that holds the latest samples up to the cap goes on holding them. -/
theorem Pruning.slide_rtake {p : Pruning} (hcap : p.sampleCap ≠ 0) (passed : List Nat)
    (removed : Nat) : p.slide (passed.rtake p.sampleCap) removed =
      (passed ++ [removed]).rtake p.sampleCap := by
  obtain ⟨k, hk⟩ := Nat.exists_eq_succ_of_ne_zero hcap
  rw [slide, hk, List.rtake_concat_succ]
  congr 1
  simp only [List.rtake, List.length_drop, List.drop_drop]
  by_cases hfull : k < passed.length
  · rw [if_pos (by omega)]
    congr 1
    omega
  · rw [if_neg (by omega)]
    congr 1
    omega

theorem length_rtake_eq_min (n : Nat) (xs : List Nat) : (xs.rtake n).length = min n xs.length := by
  rw [List.rtake, List.length_drop]
  omega

theorem Pruning.bound?_eq_none {p : Pruning} {window : List Nat} :
    p.bound? window = none ↔ window.length < p.warmUp := by
  rw [bound?]
  split <;> simp_all

namespace DepthSamples

/-- A number of hidden rows is passed at a depth, to be taken in or to be judged and taken in. -/
inductive Request where
  | record (depth removed : Nat)
  | judge (depth removed : Nat)
deriving DecidableEq

namespace Request

def depth : Request → Nat
  | .record depth _ => depth
  | .judge depth _ => depth

def removed : Request → Nat
  | .record _ removed => removed
  | .judge _ removed => removed

def apply (w : Memory.Windows) : Request → Except Fault (Option Bool × Memory.Windows)
  | .record depth removed => do
    let w ← w.record depth removed
    return (none, w)
  | .judge depth removed => do
    let (abandoned, w) ← w.judge depth removed
    return (some abandoned, w)

def answer (p : Pruning) (window : List Nat) : Request → Option Bool
  | .record _ _ => none
  | .judge _ removed => some (p.exceeds window removed)

end Request

def serve (w : Memory.Windows) : List Request → Except Fault (List (Option Bool) × Memory.Windows)
  | [] => .ok ([], w)
  | q :: rest => do
    let (answer, w) ← q.apply w
    let (answers, w) ← serve w rest
    return (answer :: answers, w)

def requestsAt (d : Nat) (requests : List Request) : List Request := requests.filter (·.depth = d)

def passedAt (d : Nat) (requests : List Request) : List Nat :=
  (requestsAt d requests).map Request.removed

def answersAt (d : Nat) (requests : List Request) (answers : List (Option Bool)) :
    List (Option Bool) :=
  ((requests.zip answers).filter (·.1.depth = d)).map Prod.snd

/-- There is memory for a window of every depth up to the greatest that is asked about, and for the
samples of each. -/
def Fits (p : Pruning) (requests : List Request) : Prop :=
  p.sampleCap = 0 ∨ ∀ q ∈ requests, q.depth < 2 ^ 57 ∧
    min p.sampleCap (passedAt q.depth requests).length ≤ 2 ^ 59

instance (p : Pruning) (requests : List Request) : Decidable (Fits p requests) :=
  inferInstanceAs (Decidable (_ ∨ _))

variable {p : Pruning} {w : Memory.Windows} {s s' : DepthSamples} {past requests : List Request}
  {q : Request} {d : Nat}

theorem requestsAt_append (d : Nat) (before after : List Request) :
    requestsAt d (before ++ after) = requestsAt d before ++ requestsAt d after :=
  List.filter_append before after

theorem requestsAt_cons_of_eq (hd : q.depth = d) (requests : List Request) :
    requestsAt d (q :: requests) = q :: requestsAt d requests :=
  List.filter_cons_of_pos (by simpa using hd)

theorem requestsAt_cons_of_ne (hd : q.depth ≠ d) (requests : List Request) :
    requestsAt d (q :: requests) = requestsAt d requests :=
  List.filter_cons_of_neg (by simpa using hd)

theorem passedAt_requestsAt (d : Nat) (requests : List Request) :
    passedAt d (requestsAt d requests) = passedAt d requests := by
  simp [passedAt, requestsAt]

theorem passedAt_append (d : Nat) (before after : List Request) :
    passedAt d (before ++ after) = passedAt d before ++ passedAt d after := by
  rw [passedAt, requestsAt_append, List.map_append]
  rfl

theorem passedAt_cons_of_eq (hd : q.depth = d) (requests : List Request) :
    passedAt d (q :: requests) = q.removed :: passedAt d requests := by
  rw [passedAt, requestsAt_cons_of_eq hd]
  rfl

theorem passedAt_cons_of_ne (hd : q.depth ≠ d) (requests : List Request) :
    passedAt d (q :: requests) = passedAt d requests := by
  rw [passedAt, requestsAt_cons_of_ne hd]
  rfl

/-- A request is answered from the window of its depth and then enters it. -/
theorem Request.exists_apply (hroom : w.samples.pruning.sampleCap = 0 ∨ q.depth < 2 ^ 57 ∧
      min w.samples.pruning.sampleCap (w.samples.sampleCount q.depth + 1) ≤ 2 ^ 59) :
    ∃ w', q.apply w = .ok (q.answer w.samples.pruning (w.samples.window q.depth), w') ∧
      w.samples.record q.depth q.removed = .ok w'.samples := by
  have hrecord : ∃ s', w.samples.record q.depth q.removed = .ok s' := by
    rcases hroom with hcap | ⟨hdepth, -⟩
    · exact ⟨w.samples, if_pos hcap⟩
    · have hword : Word.modulus = 2 ^ 64 := rfl
      exact w.samples.exists_record (by omega) q.removed
  obtain ⟨s', hs'⟩ := hrecord
  obtain ⟨w₁, hwiden, hsame⟩ := Memory.Windows.exists_widen hroom
  refine ⟨{ w₁ with samples := s' }, ?_, hs'⟩
  cases q with
  | record depth removed =>
    simp only [Request.depth, Request.removed] at hs' hwiden
    simp only [apply, Memory.Windows.record, hwiden, hsame, hs', bind, Except.bind]
    rfl
  | judge depth removed =>
    simp only [Request.depth, Request.removed] at hs' hwiden
    simp only [apply, Memory.Windows.judge, DepthSamples.judge, hwiden, hsame, hs', bind,
      Except.bind]
    rfl

/-- The window of every depth holds the latest of what was passed there. -/
structure Holds (s : DepthSamples) (p : Pruning) (past : List Request) : Prop where
  pruning : s.pruning = p
  window : ∀ d, s.window d = (passedAt d past).rtake p.sampleCap

theorem holds_empty (p : Pruning) : (empty p).Holds p [] :=
  ⟨rfl, fun d => by simp [passedAt, requestsAt]⟩

theorem Holds.record (h : s.Holds p past)
    (hs' : s.record q.depth q.removed = .ok s') : s'.Holds p (past ++ [q]) := by
  refine ⟨(pruning_record hs').trans h.pruning, fun d => ?_⟩
  rw [window_record hs' d, h.pruning, h.window, h.window]
  by_cases hcap : p.sampleCap = 0
  · simp [hcap, List.rtake_zero]
  · rw [passedAt_append]
    by_cases hd : q.depth = d
    · rw [if_pos ⟨hd.symm, hcap⟩, hd, passedAt_cons_of_eq hd]
      exact Pruning.slide_rtake hcap _ _
    · have hnone : passedAt d [] = [] := rfl
      rw [if_neg fun hand => hd hand.1.symm, passedAt_cons_of_ne hd, hnone, List.append_nil]

/-- The answers owed to some requests after others. -/
def owed (p : Pruning) (past : List Request) : List Request → List (Option Bool)
  | [] => []
  | q :: rest =>
    q.answer p ((passedAt q.depth past).rtake p.sampleCap) :: owed p (past ++ [q]) rest

theorem Holds.sampleCount_eq (h : s.Holds p past) (d : Nat) :
    s.sampleCount d = min p.sampleCap (passedAt d past).length := by
  rw [sampleCount, h.window, length_rtake_eq_min]

theorem Holds.room (h : s.Holds p past) {rest : List Request} (hfits : Fits p (past ++ q :: rest)) :
    s.pruning.sampleCap = 0 ∨ q.depth < 2 ^ 57 ∧
      min s.pruning.sampleCap (s.sampleCount q.depth + 1) ≤ 2 ^ 59 := by
  rw [h.pruning]
  refine hfits.imp_right fun hall => ?_
  obtain ⟨hdepth, hcount⟩ := hall q (List.mem_append_right past List.mem_cons_self)
  rw [passedAt_append, passedAt_cons_of_eq rfl, List.length_append, List.length_cons] at hcount
  rw [h.sampleCount_eq]
  omega

theorem Holds.exists_serve (h : w.samples.Holds p past) (hfits : Fits p (past ++ requests)) :
    ∃ w', serve w requests = .ok (owed p past requests, w') ∧
      w'.samples.Holds p (past ++ requests) := by
  induction requests generalizing w past with
  | nil => exact ⟨w, rfl, by rwa [List.append_nil]⟩
  | cons q rest ih =>
    obtain ⟨w₁, happly, hrecord⟩ := Request.exists_apply (h.room hfits)
    rw [List.append_cons] at hfits ⊢
    obtain ⟨w', hserve, hw'⟩ := ih (h.record hrecord) hfits
    refine ⟨w', ?_, hw'⟩
    simp only [serve, happly, hserve, bind, Except.bind, owed, h.pruning, h.window]
    rfl

theorem exists_serve_empty (hfits : Fits p requests) :
    ∃ w, serve (.empty p) requests = .ok (owed p [] requests, w) ∧ w.samples.Holds p requests :=
  Holds.exists_serve (w := .empty p) (holds_empty p) hfits

theorem getElem?_owed (p : Pruning) (past before after : List Request) (q : Request) :
    (owed p past (before ++ q :: after))[before.length]? =
      some (q.answer p ((passedAt q.depth (past ++ before)).rtake p.sampleCap)) := by
  induction before generalizing past with
  | nil => simp [owed]
  | cons r before ih =>
    have h := ih (past ++ [r])
    rw [List.append_assoc, List.singleton_append] at h
    simpa [owed] using h

/-- The answers at a depth are those owed if nothing is asked at other depths. -/
theorem answersAt_owed (p : Pruning) (d : Nat) (past requests : List Request) :
    answersAt d requests (owed p past requests) =
      owed p (requestsAt d past) (requestsAt d requests) := by
  induction requests generalizing past with
  | nil => rfl
  | cons q rest ih =>
    have hrest := ih (past ++ [q])
    rw [requestsAt_append] at hrest
    by_cases hd : q.depth = d
    · have hcons : answersAt d (q :: rest) (owed p past (q :: rest)) =
          q.answer p ((passedAt q.depth past).rtake p.sampleCap) ::
            answersAt d rest (owed p (past ++ [q]) rest) := by
        simp [answersAt, owed, hd]
      rw [hcons, hrest, requestsAt_cons_of_eq hd, requestsAt_cons_of_eq hd, owed, hd,
        passedAt_requestsAt]
      rfl
    · have hcons : answersAt d (q :: rest) (owed p past (q :: rest)) =
          answersAt d rest (owed p (past ++ [q]) rest) := by
        simp [answersAt, owed, hd]
      rw [hcons, hrest, requestsAt_cons_of_ne hd, requestsAt_cons_of_ne hd]
      simp [requestsAt]

/-- From the empty windows on, requests are all answered, by the latest of what was passed at their
depth before them; so it does not matter what is asked at other depths. -/
theorem windows_slide (p : Pruning) {requests : List Request} (hfits : Fits p requests) :
    ∃ answers w, serve (.empty p) requests = .ok (answers, w) ∧
      (∀ d, w.samples.window d = (passedAt d requests).rtake p.sampleCap ∧
        w.samples.sampleCount d = min p.sampleCap (passedAt d requests).length ∧
        w.samples.bound? d = p.bound? (w.samples.window d) ∧
        (w.samples.bound? d = none ↔ w.samples.sampleCount d < max p.minSamples 2)) ∧
      (∀ before q after, requests = before ++ q :: after →
        answers[before.length]? =
          some (q.answer p ((passedAt q.depth before).rtake p.sampleCap)) ∧
        (min p.sampleCap (passedAt q.depth before).length < max p.minSamples 2 →
          answers[before.length]? ≠ some (some true))) ∧
      ∀ d requests', Fits p requests' → requestsAt d requests' = requestsAt d requests →
        ∃ answers' w', serve (.empty p) requests' = .ok (answers', w') ∧
          w'.samples.window d = w.samples.window d ∧
          w'.samples.sampleCount d = w.samples.sampleCount d ∧
          w'.samples.bound? d = w.samples.bound? d ∧
          answersAt d requests' answers' = answersAt d requests answers := by
  obtain ⟨w, hserve, hw⟩ := exists_serve_empty hfits
  have hbound (s : DepthSamples) (hs : s.pruning = p) (d : Nat) :
      s.bound? d = p.bound? (s.window d) := by rw [DepthSamples.bound?, hs]
  refine ⟨_, w, hserve, fun d => ⟨hw.window d, hw.sampleCount_eq d, hbound _ hw.pruning d, ?_⟩,
    ?_, ?_⟩
  · rw [hbound _ hw.pruning, Pruning.bound?_eq_none]
    rfl
  · rintro before q after rfl
    have hanswer := getElem?_owed p [] before after q
    rw [List.nil_append] at hanswer
    refine ⟨hanswer, fun hshort habandoned => ?_⟩
    rw [← length_rtake_eq_min] at hshort
    cases q with
    | record depth removed => simp [hanswer, Request.answer] at habandoned
    | judge depth removed =>
      rw [hanswer, Request.answer, Pruning.exceeds_of_lt hshort] at habandoned
      simp at habandoned
  · intro d requests' hfits' hsame
    obtain ⟨w', hserve', hw'⟩ := exists_serve_empty hfits'
    have hwindow : w'.samples.window d = w.samples.window d := by
      rw [hw'.window, hw.window, ← passedAt_requestsAt, hsame, passedAt_requestsAt]
    refine ⟨_, w', hserve', hwindow, congrArg List.length hwindow, ?_, ?_⟩
    · rw [hbound _ hw'.pruning, hbound _ hw.pruning, hwindow]
    · rw [answersAt_owed, answersAt_owed, hsame]

/-- With room for two samples a depth, of which both are needed to judge. -/
theorem windows_slide_two : ∃ answers w,
    serve (.empty { sampleCap := 2, minSamples := 2 })
      [.judge 0 5, .record 1 7, .record 0 6, .judge 1 8, .record 0 9] = .ok (answers, w) ∧
    w.samples.window 0 = [6, 9] ∧ w.samples.window 1 = [7, 8] ∧ w.samples.window 2 = [] ∧
    w.samples.bound? 2 = none ∧
    answers[0]? = some (some false) ∧ answers[3]? ≠ some (some true) := by
  obtain ⟨answers, w, hserve, hwindows, hanswers, -⟩ :=
    @windows_slide { sampleCap := 2, minSamples := 2 }
      [.judge 0 5, .record 1 7, .record 0 6, .judge 1 8, .record 0 9] (by decide)
  have hempty : w.samples.sampleCount 2 = 0 := (hwindows 2).2.1
  refine ⟨answers, w, hserve, (hwindows 0).1, (hwindows 1).1, (hwindows 2).1, ?_, ?_, ?_⟩
  · exact (hwindows 2).2.2.2.mpr (hempty ▸ by decide)
  · exact (hanswers [] _ _ rfl).1
  · exact (hanswers [.judge 0 5, .record 1 7, .record 0 6] _ _ rfl).2 (by decide)

/-- The windows of so many depths would fill the address space. -/
theorem record_too_deep : Nat.pow 2 60 < Word.max ∧
    serve (.empty {}) [.record (Nat.pow 2 60) 1] = .error .tooLarge :=
  ⟨by decide, rfl⟩

end DepthSamples

end DancingLinks
