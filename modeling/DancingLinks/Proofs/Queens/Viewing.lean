import DancingLinks.Memory
import DancingLinks.Proofs.Queens.Cells
import DancingLinks.Proofs.Queens.Drawing
import Mathlib.Data.List.Forall2

/-! # Boards and their texts

The text of a board tells everything about it: how many ranks it has, and for each of its cells
whether a queen stands there. So boards with the same text are the same, and queens on different
ranks can be read back. Colours are escape sequences around the cells and nothing else.
-/
namespace DancingLinks.Queens

variable {n : Nat} {q : Nat × Nat} {queens before after : List (Nat × Nat)}

theorem exists_first_off (h : ∃ q ∈ queens, ¬ OnBoard n q) : ∃ before q after,
    queens = before ++ q :: after ∧ (∀ q' ∈ before, OnBoard n q') ∧ ¬ OnBoard n q := by
  have hfound : (queens.find? fun q => ¬ OnBoard n q).isSome := by
    simpa [List.find?_isSome] using h
  obtain ⟨q, hq⟩ := Option.isSome_iff_exists.mp hfound
  obtain ⟨hoff, before, after, hqueens, hon⟩ := List.find?_eq_some_iff_append.mp hq
  exact ⟨before, q, after, hqueens, by simpa using hon, by simpa using hoff⟩

namespace Board

/-- The first queen off the board is turned down. -/
theorem placeAll_of_off (files : Vector (Option (Fin n)) n) (hon : ∀ q ∈ before, OnBoard n q)
    (hoff : ¬ OnBoard n q) :
    placeAll files (before ++ q :: after) = .error (.queenOffBoard q.1 q.2) := by
  induction before generalizing files with
  | nil => exact dif_neg hoff
  | cons x before ih =>
    simp only [List.mem_cons, forall_eq_or_imp] at hon
    obtain ⟨hx, hon⟩ := hon
    rw [OnBoard] at hx
    rw [List.cons_append, placeAll, dif_pos hx]
    exact ih _ hon

def textLines (text : String) : List (List Char) := text.toList.splitOn '\n'

def charAt (text : String) (line column : Nat) : Option Char :=
  (textLines text)[line]?.bind (·[column]?)

def frameChars (n : Nat) : List Char := '+' :: List.replicate (2 * n + 1) '-' ++ ['+']

def markOf (queen : Bool) : Char := if queen then 'Q' else '.'

def rankChars (b : Board) (rank : Fin b.size) : List Char :=
  '|' :: ' ' :: ((List.finRange b.size).flatMap fun file => [markOf (b.hasQueen rank file), ' '])
    ++ ['|']

variable {b b' : Board}

theorem markOf_inj {p q : Bool} : markOf p = markOf q ↔ p = q := by
  cases p <;> cases q <;> decide

theorem toList_frame (b : Board) : b.frame.toList = frameChars b.size := by
  have hdashes (k : Nat) : (List.replicate k "--").flatMap String.toList =
      List.replicate (2 * k) '-' := by
    induction k with
    | zero => rfl
    | succ k ih =>
      rw [List.replicate_succ, List.flatMap_cons, ih, Nat.mul_succ, Nat.add_comm,
        ← List.replicate_append_replicate]
      rfl
  simp [frame, String.toList_join, hdashes, frameChars, List.replicate_succ]

theorem toList_line (b : Board) (rank : Fin b.size) :
    (b.line plainCell rank).toList = b.rankChars rank := by
  have hcell (queen : Bool) : (plainCell queen ++ " ").toList = [markOf queen, ' '] := by
    cases queen <;> rfl
  simp [line, rankChars, String.toList_join, List.flatMap_map, hcell]

theorem length_frameChars (n : Nat) : (frameChars n).length = 2 * n + 3 := by
  simp [frameChars]

theorem length_rankChars (b : Board) (rank : Fin b.size) :
    (b.rankChars rank).length = 2 * b.size + 3 := by
  simp [rankChars, List.length_flatMap, Nat.mul_comm]

theorem newline_notMem_frameChars (n : Nat) : '\n' ∉ frameChars n := by
  simp [frameChars]

theorem newline_notMem_rankChars (b : Board) (rank : Fin b.size) : '\n' ∉ b.rankChars rank := by
  have hmark (queen : Bool) : '\n' ≠ markOf queen := by cases queen <;> decide
  simp [rankChars, hmark]

/-- The lines of the text of a board are the frame, the ranks from the last to the first, and the
frame again. -/
theorem textLines_text (b : Board) : textLines b.text =
    frameChars b.size :: ((List.finRange b.size).reverse.map b.rankChars ++
      [frameChars b.size]) := by
  have hlines : (b.lines plainCell).map String.toList =
      frameChars b.size :: ((List.finRange b.size).reverse.map b.rankChars ++
        [frameChars b.size]) := by
    simp [lines, toList_frame, toList_line, Function.comp_def]
  rw [textLines, text, String.toList_intercalate, hlines]
  refine List.splitOn_intercalate _ (fun line hline => ?_) (List.cons_ne_nil _ _)
  simp only [List.mem_cons, List.mem_append, List.mem_map, List.not_mem_nil, or_false] at hline
  obtain rfl | ⟨rank, -, rfl⟩ | rfl := hline
  · exact newline_notMem_frameChars _
  · exact newline_notMem_rankChars b rank
  · exact newline_notMem_frameChars _

theorem length_textLines (b : Board) : (textLines b.text).length = b.size + 2 := by
  simp [textLines_text]

theorem getElem?_flatMap_mark {α : Type} (mark : α → Char) (xs : List α) (i : Nat) :
    (xs.flatMap fun x => [mark x, ' '])[2 * i]? = xs[i]?.map mark := by
  induction xs generalizing i with
  | nil => simp
  | cons x xs ih =>
    cases i with
    | zero => rfl
    | succ i => simpa [Nat.mul_succ] using ih i

theorem getElem?_rankChars (b : Board) (rank file : Fin b.size) :
    (b.rankChars rank)[2 + 2 * file.val]? = some (markOf (b.hasQueen rank file)) := by
  have hmark := getElem?_flatMap_mark (fun file => markOf (b.hasQueen rank file))
    (List.finRange b.size) file.val
  have hfile : (List.finRange b.size)[file.val]? = some file := by simp
  rw [hfile, Option.map_some] at hmark
  obtain ⟨hlt, -⟩ := List.getElem?_eq_some_iff.mp hmark
  rw [rankChars, List.cons_append, List.cons_append, Nat.add_comm, List.getElem?_cons_succ,
    List.getElem?_cons_succ, List.getElem?_append_left hlt, hmark]

theorem charAt_text (b : Board) (rank file : Fin b.size) :
    charAt b.text (b.size - rank) (2 + 2 * file) = some (markOf (b.hasQueen rank file)) := by
  have hrank : (textLines b.text)[b.size - rank.val]? = some (b.rankChars rank) := by
    obtain ⟨below, hbelow⟩ := Nat.exists_eq_add_of_lt rank.isLt
    have hplace : b.size - rank.val = below + 1 := by omega
    rw [textLines_text, hplace, List.getElem?_cons_succ, List.getElem?_append_left (by simp; omega),
      List.getElem?_map, List.getElem?_reverse (by simp; omega), List.length_finRange]
    have hat : b.size - 1 - below = rank.val := by omega
    simp [hat]
  rw [charAt, hrank, Option.bind_some, getElem?_rankChars]

theorem text_inj : b.text = b'.text ↔ b = b' := by
  refine ⟨fun h => ?_, congrArg text⟩
  have hsize : b.size = b'.size := by
    have hlength := congrArg (fun text => (textLines text).length) h
    simpa [length_textLines] using hlength
  obtain ⟨n, files⟩ := b
  obtain ⟨n', files'⟩ := b'
  obtain rfl : n = n' := hsize
  have hqueen (rank file : Fin n) : files[rank] = some file ↔ files'[rank] = some file := by
    have hmarks := (charAt_text ⟨n, files⟩ rank file).symm.trans
      ((congrArg (charAt · _ _) h).trans (charAt_text ⟨n, files'⟩ rank file))
    simpa [markOf_inj, hasQueen] using hmarks
  obtain rfl : files = files' := by
    apply Vector.ext
    intro i hi
    exact Option.ext fun file => hqueen ⟨i, hi⟩ file
  rfl

def shownQueens (text : String) : List (Nat × Nat) :=
  let n := (textLines text).length - 2
  (cells n).filter fun q => charAt text (n - q.1) (2 + 2 * q.2) = some 'Q'

/-- Leaves escape sequences out. The flag tells whether one has begun; it ends with an m. -/
def dropEscapes : Bool → List Char → List Char
  | _, [] => []
  | true, c :: cs => dropEscapes (c != 'm') cs
  | false, c :: cs => if c = '\x1b' then dropEscapes true cs else c :: dropEscapes false cs

def plainText (text : String) : String := String.ofList (dropEscapes false text.toList)

/-- The painted text reads as the plain one, whatever follows it. -/
def ReadsAs (painted plain : String) : Prop := ∀ rest : List Char,
  dropEscapes false (painted.toList ++ rest) = plain.toList ++ dropEscapes false rest

variable {painted painted' plain plain' : String}

theorem ReadsAs.append (h : ReadsAs painted plain) (h' : ReadsAs painted' plain') :
    ReadsAs (painted ++ painted') (plain ++ plain') := by
  intro rest
  rw [String.toList_append, String.toList_append, List.append_assoc, h, h', List.append_assoc]

theorem ReadsAs.plainText_eq (h : ReadsAs painted plain) : plainText painted = plain := by
  have hall := h []
  rw [List.append_nil] at hall
  rw [plainText, hall, dropEscapes, List.append_nil, String.ofList_toList]

theorem map_plainText {texts texts' : List String} (h : List.Forall₂ ReadsAs texts texts') :
    texts.map plainText = texts' := by
  induction h with
  | nil => rfl
  | cons hfirst _ ih => rw [List.map_cons, hfirst.plainText_eq, ih]

theorem readsAs_self (h : '\x1b' ∉ plain.toList) : ReadsAs plain plain := by
  intro rest
  generalize plain.toList = chars at h
  induction chars with
  | nil => rfl
  | cons c chars ih =>
    obtain ⟨hc, hchars⟩ := not_or.mp (List.mem_cons.not.mp h)
    rw [List.cons_append, dropEscapes, if_neg (Ne.symm hc), ih hchars]
    rfl

theorem readsAs_join {texts texts' : List String} (h : List.Forall₂ ReadsAs texts texts') :
    ReadsAs (String.join texts) (String.join texts') := by
  induction h with
  | nil => exact readsAs_self (by decide)
  | cons hfirst _ ih =>
    rw [String.join_cons, String.join_cons]
    exact hfirst.append ih

theorem readsAs_intercalate {texts texts' : List String} {sep : String} (hsep : ReadsAs sep sep)
    (h : List.Forall₂ ReadsAs texts texts') :
    ReadsAs (sep.intercalate texts) (sep.intercalate texts') := by
  induction h with
  | nil => exact readsAs_self (by simp)
  | cons hfirst hrest ih =>
    cases hrest with
    | nil => simpa using hfirst
    | cons hsecond hrest =>
      rw [String.intercalate_cons_cons, String.intercalate_cons_cons]
      exact (hfirst.append hsep).append ih

/-- Escape sequences in a row, each up to the m that ends it. -/
inductive Escapes : List Char → Prop
  | nil : Escapes []
  | cons {body rest : List Char} (hbody : 'm' ∉ body) (hrest : Escapes rest) :
    Escapes ('\x1b' :: (body ++ 'm' :: rest))

theorem dropEscapes_body {body : List Char} (h : 'm' ∉ body) (rest : List Char) :
    dropEscapes true (body ++ 'm' :: rest) = dropEscapes false rest := by
  induction body with
  | nil => rfl
  | cons c body ih =>
    obtain ⟨hc, hbody⟩ := not_or.mp (List.mem_cons.not.mp h)
    rw [List.cons_append, dropEscapes, bne_iff_ne.mpr (Ne.symm hc), ih hbody]

theorem Escapes.dropEscapes_append {chars : List Char} (h : Escapes chars) (rest : List Char) :
    dropEscapes false (chars ++ rest) = dropEscapes false rest := by
  induction h with
  | nil => rfl
  | cons hbody _ ih =>
    rw [List.cons_append, List.append_assoc, dropEscapes, if_pos rfl, List.cons_append,
      dropEscapes_body hbody, ih]

/-- The emphasis puts escape sequences around a text and does nothing else to it. -/
def OnlyWraps (paint : Emphasis → String → String) : Prop :=
  ∀ e text, '\x1b' ∉ text.toList → ∃ before after : String,
    Escapes before.toList ∧ Escapes after.toList ∧ paint e text = before ++ text ++ after

theorem OnlyWraps.readsAs {paint : Emphasis → String → String} (h : OnlyWraps paint)
    (e : Emphasis) {text : String} (htext : '\x1b' ∉ text.toList) :
    ReadsAs (paint e text) text := by
  obtain ⟨before, after, hbefore, hafter, hpaint⟩ := h e text htext
  intro rest
  rw [hpaint, String.toList_append, String.toList_append, List.append_assoc, List.append_assoc,
    hbefore.dropEscapes_append, readsAs_self htext, hafter.dropEscapes_append]

theorem onlyWraps_apply (colors : Bool) : OnlyWraps (Emphasis.apply colors) := by
  intro e text _
  cases colors with
  | false => exact ⟨"", "", .nil, .nil, by simp [Emphasis.apply]⟩
  | true =>
    have hreset : Escapes ("\x1b[0m" : String).toList :=
      .cons (show 'm' ∉ ['[', '0'] by decide) .nil
    have hswitch : Escapes ("\x1b[" ++ e.codes ++ "m").toList := by
      have hcodes : 'm' ∉ '[' :: e.codes.toList := by cases e <;> decide
      simpa using Escapes.cons hcodes .nil
    exact ⟨_, _, hswitch, hreset, rfl⟩

/-- Lines with a frame around them read as the lines with other cells if the cells do. -/
theorem readsAs_framed {α β : Type} (n : Nat) (ranks : List α) (files : List β)
    {painted plain : α → β → String}
    (h : ∀ rank file, ReadsAs (painted rank file) (plain rank file)) :
    List.Forall₂ ReadsAs (framed n ranks files painted) (framed n ranks files plain) := by
  have hframe : ReadsAs (empty n).frame (empty n).frame := by
    apply readsAs_self
    simp [toList_frame, frameChars]
  have hline (rank : α) : ReadsAs
      ("| " ++ String.join (files.map fun file => painted rank file ++ " ") ++ "|")
      ("| " ++ String.join (files.map fun file => plain rank file ++ " ") ++ "|") := by
    refine ((readsAs_self (by decide)).append (readsAs_join ?_)).append (readsAs_self (by decide))
    rw [List.forall₂_map_left_iff, List.forall₂_map_right_iff, List.forall₂_same]
    exact fun file _ => (h rank file).append (readsAs_self (by decide))
  refine List.rel_append (.cons hframe ?_) (.cons hframe .nil)
  rw [List.forall₂_map_left_iff, List.forall₂_map_right_iff, List.forall₂_same]
  exact fun rank _ => hline rank

/-- Colours are escape sequences around the cells and nothing else. -/
theorem plainText_paintedText {paint : Emphasis → String → String} (h : OnlyWraps paint)
    (b : Board) : plainText (b.paintedText paint) = b.text := by
  have hcell (queen : Bool) : ReadsAs (paintedCell paint queen) (plainCell queen) := by
    cases queen with
    | false => exact h.readsAs .dimmed (by decide)
    | true => exact h.readsAs .boldYellow (by decide)
  apply ReadsAs.plainText_eq
  apply readsAs_intercalate (readsAs_self (by decide))
  exact readsAs_framed b.size _ _ fun rank file => hcell (b.hasQueen rank file)

/-- The text shows the board with the queens put on it in turn: a frame above and below, and in
every cell a queen if it is the last one of its rank. -/
structure Shows (text : String) (n : Nat) (queens : List (Nat × Nat)) : Prop where
  height : (textLines text).length = n + 2
  width : ∀ line ∈ textLines text, line.length = 2 * n + 3
  top : (textLines text)[0]? = some (frameChars n)
  bottom : (textLines text)[n + 1]? = some (frameChars n)
  cell : ∀ rank < n, ∀ file < n, charAt text (n - rank) (2 + 2 * file) =
    some (if lastFile queens rank = some file then 'Q' else '.')

theorem shows_text {files : Vector (Option (Fin n)) n}
    (h : ∀ rank file : Fin n,
      hasQueen ⟨n, files⟩ rank file ↔ lastFile queens rank = some file.val) :
    Shows (text ⟨n, files⟩) n queens where
  height := length_textLines _
  width := by
    intro line hline
    simp only [textLines_text, List.mem_cons, List.mem_append, List.mem_map, List.not_mem_nil,
      or_false] at hline
    obtain rfl | ⟨rank, -, rfl⟩ | rfl := hline
    · exact length_frameChars n
    · exact length_rankChars ⟨n, files⟩ rank
    · exact length_frameChars n
  top := by simp [textLines_text]
  bottom := by simp [textLines_text]
  cell := by
    intro rank hrank file hfile
    rw [charAt_text ⟨n, files⟩ ⟨rank, hrank⟩ ⟨file, hfile⟩, markOf]
    simp only [h]

/-- A text that shows queens on different ranks shows them all. -/
theorem Shows.mem_shownQueens {text : String} (h : Shows text n queens)
    (hon : ∀ q ∈ queens, OnBoard n q) (hranks : ∀ q ∈ queens, ∀ q' ∈ queens, q.1 = q'.1 → q = q') :
    q ∈ shownQueens text ↔ q ∈ queens := by
  have hshown (hq : OnBoard n q) : charAt text (n - q.1) (2 + 2 * q.2) = some 'Q' ↔ q ∈ queens := by
    rw [h.cell q.1 hq.1 q.2 hq.2, ← lastFile_eq_some hranks]
    by_cases hlast : lastFile queens q.1 = some q.2 <;> simp [hlast]
  simp only [shownQueens, h.height, Nat.add_sub_cancel, List.mem_filter, mem_cells,
    decide_eq_true_eq]
  exact ⟨fun ⟨hq, hchar⟩ => (hshown hq).mp hchar, fun hq => ⟨hon q hq, (hshown (hon q hq)).mpr hq⟩⟩

theorem ofQueens_of_off (hon : ∀ q' ∈ before, OnBoard n q') (hoff : ¬ OnBoard n q) :
    ofQueens n (before ++ q :: after) = .error (.queenOffBoard q.1 q.2) := by
  rw [ofQueens_eq, placeAll_of_off _ hon hoff]
  rfl

theorem exists_ofQueens_shows (hon : ∀ q ∈ queens, OnBoard n q) :
    ∃ b, ofQueens n queens = .ok b ∧ Shows b.text n queens := by
  obtain ⟨files, hplace, hfiles⟩ := exists_placeAll (Vector.replicate n none) hon
  refine ⟨⟨n, files⟩, ?_, shows_text fun rank file => ?_⟩
  · rw [ofQueens_eq, hplace]
    rfl
  · rw [hfiles]
    simp [hasQueen]

/-- Drawings are faithful. A board is refused exactly if a queen is off it, and the first such
queen is named. The text of the others has a frame and shows the last queen of each rank, so queens
on different ranks can be read back from it. Boards with the same text are the same, and colours do
not change what is read. -/
theorem drawings_are_faithful (hn : n < 2 ^ 59) (queens : List (Nat × Nat)) :
    ((∃ fault, Memory.board n queens = .error fault) ↔ ∃ q ∈ queens, ¬ OnBoard n q) ∧
    (∀ before q after, queens = before ++ q :: after → (∀ q' ∈ before, OnBoard n q') →
      ¬ OnBoard n q → ∃ fault, Memory.board n queens = .error fault ∧
        fault.message? = some s!"queen ({q.1}, {q.2}) is off the board") ∧
    ((∀ q ∈ queens, OnBoard n q) → ∃ b, Memory.board n queens = .ok b ∧ Shows b.text n queens ∧
      ((∀ q ∈ queens, ∀ q' ∈ queens, q.1 = q'.1 → q = q') →
        ∀ q, q ∈ shownQueens b.text ↔ q ∈ queens)) ∧
    (∀ b b' : Board, b.text = b'.text ↔ b = b') ∧
    ∀ (b : Board) (paint : Emphasis → String → String), OnlyWraps paint →
      plainText (b.paintedText paint) = b.text := by
  have hroom : n * 16 < Memory.addressSpace := by
    have hspace : Memory.addressSpace = 2 ^ 63 := rfl
    omega
  rw [Memory.board_of_lt hroom]
  refine ⟨⟨?_, ?_⟩, ?_, ?_, fun _ _ => text_inj, fun b _ h => plainText_paintedText h b⟩
  · rintro ⟨fault, hfault⟩
    by_contra hnone
    obtain ⟨b, hok, -⟩ := exists_ofQueens_shows (by simpa using hnone)
    rw [hok] at hfault
    cases hfault
  · intro hexists
    obtain ⟨before, q, after, rfl, hon, hoff⟩ := exists_first_off hexists
    exact ⟨_, ofQueens_of_off hon hoff⟩
  · rintro before q after rfl hon hoff
    exact ⟨_, ofQueens_of_off hon hoff, rfl⟩
  · intro hon
    obtain ⟨b, hok, hshows⟩ := exists_ofQueens_shows hon
    exact ⟨b, hok, hshows, fun hranks q => hshows.mem_shownQueens hon hranks⟩

/-- On two ranks, the second queen of a rank replaces the first, and the first queen off the board
is named. -/
theorem drawings_are_faithful_two :
    (∃ b, Memory.board 2 [(1, 0), (0, 0), (0, 1)] = .ok b ∧ charAt b.text 1 2 = some 'Q' ∧
      charAt b.text 2 2 = some '.' ∧ charAt b.text 2 4 = some 'Q' ∧
      plainText (b.coloredText true) = b.text) ∧
    (∃ b, Memory.board 2 [(1, 0), (0, 1)] = .ok b ∧ ((1, 0) ∈ shownQueens b.text)) ∧
    ∃ fault, Memory.board 2 [(0, 1), (2, 0), (0, 7)] = .error fault ∧
      fault.message? = some "queen (2, 0) is off the board" := by
  have htwo : 2 < 2 ^ 59 := by decide
  obtain ⟨-, -, hreplaced, -, hpainted⟩ := drawings_are_faithful htwo [(1, 0), (0, 0), (0, 1)]
  obtain ⟨-, -, hapart, -, -⟩ := drawings_are_faithful htwo [(1, 0), (0, 1)]
  obtain ⟨-, hnamed, -, -, -⟩ := drawings_are_faithful htwo [(0, 1), (2, 0), (0, 7)]
  refine ⟨?_, ?_, hnamed [(0, 1)] (2, 0) [(0, 7)] rfl (by decide) (by decide)⟩
  · obtain ⟨b, hok, hshows, -⟩ := hreplaced (by decide)
    exact ⟨b, hok, hshows.cell 1 (by decide) 0 (by decide),
      hshows.cell 0 (by decide) 0 (by decide), hshows.cell 0 (by decide) 1 (by decide),
      hpainted b _ (onlyWraps_apply true)⟩
  · obtain ⟨b, hok, -, hback⟩ := hapart (by decide)
    exact ⟨b, hok, (hback (by decide) (1, 0)).mpr (by decide)⟩

/-- A board that would fill the address space is refused before any queen is looked at, and none is
named. -/
theorem board_too_large : Nat.pow 2 60 < Word.modulus ∧
    Memory.board (Nat.pow 2 60) [] = .error .tooLarge ∧
    ¬ OnBoard (Nat.pow 2 60) (Nat.pow 2 60, 0) ∧
    Memory.board (Nat.pow 2 60) [(Nat.pow 2 60, 0)] = .error .tooLarge ∧
    Fault.tooLarge.message? = none :=
  ⟨by decide, rfl, by decide, rfl, rfl⟩

end Board

end DancingLinks.Queens
