import Acceptor.Proofs.LineByLine

/-!
# The layout of a description

Blank lines and carriage returns make no difference. In the lines that are read, a blank line only
changes the numbers of those behind it, and a carriage return before a line break only adds a blank
to the end of a line. Both are lines that are read alike.

## Main definitions

* `Description.insertLine`, `Description.Error.below`: a line that is put into a text, and an error
  that has moved down.
* `Description.withReturns`: carriage returns before all line breaks.

## Main results

* `Description.read_insertLine`: blank lines move the errors behind them.
* `Description.read_withReturns`: carriage returns only change the columns of errors.
* `Description.layout_irrelevant`: both.
-/

namespace Acceptor

/-- The position one line down, if it is on line `j` or behind it. -/
def Position.below (j : Nat) (p : Position) : Position :=
  if j ≤ p.line then ⟨p.line + 1, p.column⟩ else p

namespace Description

/-- The error in a text in which the lines from line `j` on have moved down by one. -/
def Error.below (j : Nat) (e : Error) : Error := ⟨e.cause, e.position.map (·.below j)⟩

/-- The text with a line put in before line `j`. The first line has the number one. -/
def insertLine (j : Nat) (line : List Char) (text : String) : String :=
  .ofList (['\n'].intercalate ((Text.cut '\n' text.toList).insertIdx (j - 1) line))

/-- The characters of a text with a carriage return before each line break. -/
def returned (text : List Char) : List Char :=
  text.flatMap fun x => if x = '\n' then ['\r', '\n'] else [x]

/-- The text with a carriage return before each line break. -/
def withReturns (text : String) : String := .ofList (returned text.toList)

variable {P : Position → Position → Prop} {lines : List (List Char)} {n n' j : Nat}
  {line b : List Char} {e : Error}

/-! ### Lines with other numbers -/

/-- Lines are alike under different numbers, if `P` relates the positions on them. -/
theorem rowsAlike_number (hlines : ∀ line ∈ lines, '\n' ∉ line)
    (hP : ∀ i < lines.length, ∀ column, P ⟨n + i, column⟩ ⟨n' + i, column⟩) :
    List.Forall₂ (RowsAlike P) (number n lines) (number n' lines) := by
  induction lines generalizing n n' with
  | nil => exact .nil
  | cons line lines ih =>
    obtain ⟨hline, hlines⟩ := List.forall_mem_cons.mp hlines
    have hrest : List.Forall₂ (RowsAlike P) (number (n + 1) lines) (number (n' + 1) lines) := by
      refine ih hlines fun i hi column => ?_
      rw [Nat.add_assoc, Nat.add_assoc, Nat.add_comm 1]
      exact hP (i + 1) (Nat.succ_lt_succ hi) column
    have hfirst := hP 0 (Nat.zero_lt_succ _)
    rw [number, number]
    split
    · exact hrest
    · next hall =>
      refine .cons ⟨fun h => hall (List.all_eq_true.mpr h), [], ?_, ?_⟩ hrest
      · exact (List.append_nil line).symm
      · exact ⟨hline, blank_nil, by simp, hfirst, hfirst _⟩

/-! ### Blank lines -/

theorem insertIdx_length {α : Type} (xs ys : List α) (a : α) :
    (xs ++ ys).insertIdx xs.length a = xs ++ a :: ys := by
  induction xs with
  | nil => rfl
  | cons x xs ih => simpa using ih

theorem number_blank_cons (hb : Blank b) : number n (b :: lines) = number (n + 1) lines := by
  rw [number, if_pos (List.all_eq_true.mpr hb)]

/-- The position behind a text is on its last line, behind the characters of the line. -/
theorem stop_eq {text last : List Char} (h : (Text.cut '\n' text).getLast? = some last) :
    (Position.start.after text).next = ⟨(Text.cut '\n' text).length, last.length + 1⟩ := by
  obtain ⟨line, hline, hafter⟩ := after_eq 1 text
  rw [List.getLast?_eq_getElem?, Text.length_cut, Nat.add_sub_cancel, hline] at h
  obtain rfl := Option.some.inj h
  rw [Position.start, hafter, Text.length_cut, Nat.add_comm]
  rfl

theorem cut_insertLine {text : String} {front back : List (List Char)}
    (h : Text.cut '\n' text.toList = front ++ back) (hb : '\n' ∉ b) :
    Text.cut '\n' (insertLine (front.length + 1) b text).toList = front ++ b :: back := by
  have hpieces : ∀ line ∈ front ++ back, '\n' ∉ line := fun line hline =>
    Text.not_mem_of_mem_cut (h ▸ hline)
  rw [insertLine, String.toList_ofList, h, Nat.add_sub_cancel, insertIdx_length]
  refine Text.cut_intercalate (by simp) fun line hline => ?_
  rcases List.mem_append.mp hline with hline | hline
  · exact hpieces line (List.mem_append_left back hline)
  · rcases List.mem_cons.mp hline with rfl | hline
    · exact hb
    · exact hpieces line (List.mem_append_right front hline)

/-- Errors whose positions a function relates are determined by it. -/
theorem eq_mapError_of_alike {α : Type} {x x' : Except Error α}
    (h : Alike Eq (Error.Related fun p p' => p' = p.below j) x x') :
    x' = x.mapError (·.below j) := by
  cases h with
  | ok h => rw [← h]; rfl
  | @error e e' h =>
    obtain ⟨cause, position⟩ := e
    obtain ⟨cause', position'⟩ := e'
    obtain ⟨rfl, hposition⟩ := h
    cases hposition with
    | none => rfl
    | some h => rw [h]; rfl

/-- **Blank lines make no difference,** but that errors on the lines behind them move down. -/
theorem read_insertLine (text : String) (hj : 1 ≤ j) (hlast : j ≤ text.toList.count '\n' + 1)
    (hb : Blank b) : read (insertLine j b text) = (read text).mapError (·.below j) := by
  obtain ⟨front, back, htext, rfl⟩ : ∃ front back : List (List Char),
      Text.cut '\n' text.toList = front ++ back ∧ j = front.length + 1 := by
    refine ⟨_, _, (List.take_append_drop (j - 1) _).symm, ?_⟩
    rw [List.length_take, Text.length_cut]
    omega
  have hinserted := cut_insertLine htext (Cursor.not_mem_of_blank hb)
  have hne : back ≠ [] := by
    rintro rfl
    have hlength := Text.length_cut '\n' text.toList
    rw [htext, List.append_nil] at hlength
    omega
  obtain ⟨last, hback⟩ : ∃ last, back.getLast? = some last :=
    ⟨_, List.getLast?_eq_some_getLast hne⟩
  have hlines : ∀ line ∈ front ++ back, '\n' ∉ line := fun line hline =>
    Text.not_mem_of_mem_cut (htext ▸ hline)
  rw [read_eq_readRows, read_eq_readRows]
  refine eq_mapError_of_alike (alike_readRows ?_ ?_)
  · -- the lines in front stay, those behind the blank line get the next number
    rw [rowsFrom, rowsFrom, htext, hinserted, number_append, number_append, number_blank_cons hb]
    refine List.rel_append (rowsAlike_number ?_ fun i hi column => ?_)
      (rowsAlike_number ?_ fun i hi column => ?_)
    · exact fun line hline => hlines line (List.mem_append_left back hline)
    · rw [Position.below, if_neg (by dsimp only; omega)]
    · exact fun line hline => hlines line (List.mem_append_right front hline)
    · have hnumber : 1 + front.length + 1 + i = 1 + front.length + i + 1 := by omega
      rw [Position.below, if_pos (by dsimp only; omega), hnumber]
  · have hlength : 0 < back.length := List.length_pos_iff.mpr hne
    have hstop : (Text.cut '\n' text.toList).getLast? = some last := by
      rw [htext, List.getLast?_append_of_ne_nil _ hne, hback]
    have hstop' : (Text.cut '\n' (insertLine (front.length + 1) b text).toList).getLast? =
        some last := by
      rw [hinserted, List.getLast?_append_of_ne_nil _ (List.cons_ne_nil b back),
        List.getLast?_cons_of_ne_nil hne, hback]
    have hcount : (front ++ b :: back).length = (front ++ back).length + 1 := by simp; omega
    rw [stop_eq hstop, stop_eq hstop', hinserted, htext, hcount, Position.below, if_pos]
    show front.length + 1 ≤ (front ++ back).length
    rw [List.length_append]
    omega

/-! ### Carriage returns -/

theorem returned_of_not_mem (h : '\n' ∉ line) : returned line = line := by
  induction line with
  | nil => rfl
  | cons x line ih =>
    obtain ⟨hx, hline⟩ := not_or.mp (List.mem_cons.not.mp h)
    rw [returned, List.flatMap_cons, if_neg (Ne.symm hx)]
    exact congrArg (x :: ·) (ih hline)

theorem returned_cons (rest : List Char) (h : '\n' ∉ line) :
    returned (line ++ '\n' :: rest) = (line ++ ['\r']) ++ '\n' :: returned rest := by
  have hline := returned_of_not_mem h
  rw [returned] at hline
  rw [returned, List.flatMap_append, hline, List.flatMap_cons, if_pos rfl]
  simp [returned]

theorem count_returned (text : List Char) :
    (returned text).count '\n' = text.count '\n' := by
  induction text using line_induction with
  | last line hline => rw [returned_of_not_mem hline]
  | line line rest hline ih =>
    rw [returned_cons rest hline, List.count_append, List.count_append, List.count_cons_self,
      List.count_append, List.count_cons_self, ih]
    rfl

/-- The lines are those of the text, with blanks at their ends. -/
theorem rowsAlike_returned (text : List Char) (n : Nat) :
    List.Forall₂ (RowsAlike fun p p' => p'.line = p.line) (rowsFrom n text)
      (rowsFrom n (returned text)) := by
  induction text using line_induction generalizing n with
  | last line hline =>
    rw [returned_of_not_mem hline, rowsFrom_of_not_mem hline]
    exact rowsAlike_number (by simpa using hline) fun _ _ _ => rfl
  | line line rest hline ih =>
    have hcount : (line ++ ['\r']).count '\n' = line.count '\n' := by
      rw [List.count_append]
      rfl
    have hreturn : '\n' ∉ line ++ ['\r'] := by simpa using hline
    have hblank : Blank ['\r'] := by simp [Blank, Cursor.isBlank]
    rw [returned_cons rest hline, rowsFrom_append, rowsFrom_append, hcount,
      rowsFrom_of_not_mem hline, rowsFrom_of_not_mem hreturn]
    refine List.rel_append ?_ (ih _)
    by_cases h : Blank line
    · rw [number_singleton_of_blank h, number_singleton_of_blank (blank_append.mpr ⟨h, hblank⟩)]
      exact .nil
    · rw [number_singleton_of_not_blank h,
        number_singleton_of_not_blank fun h' => h (blank_append.mp h').1]
      exact .cons ⟨h, ['\r'], rfl, hline, hblank, by simp, fun _ => rfl, rfl⟩ .nil

/-- **Carriage returns before line breaks make no difference,** but for the columns of errors. -/
theorem read_withReturns (text : String) :
    Alike Eq (fun e e' => e'.cause = e.cause ∧
        e'.position.map Position.line = e.position.map Position.line)
      (read text) (read (withReturns text)) := by
  have hreturned : (withReturns text).toList = returned text.toList := String.toList_ofList ..
  rw [read_eq_readRows, read_eq_readRows, hreturned]
  refine (alike_readRows (rowsAlike_returned text.toList 1) ?_).mono (fun _ _ h => h) ?_
  · show (Position.start.after (returned text.toList)).line = (Position.start.after _).line
    rw [Position.line_after, Position.line_after, count_returned]
  · rintro ⟨cause, position⟩ ⟨cause', position'⟩ ⟨hcause, hposition⟩
    refine ⟨hcause, ?_⟩
    cases hposition with
    | none => rfl
    | some h => exact congrArg some h

/-- **The layout of a text makes no difference.** If a blank line is put in before line `j`, the
result is the same, but that errors on line `j` and behind it move down by one line. If a carriage
return is put before each line break, the result is the same, but for the columns of errors. -/
theorem layout_irrelevant (text : String) :
    (∀ j b, 1 ≤ j → j ≤ text.toList.count '\n' + 1 → Blank b →
      read (insertLine j b text) = (read text).mapError (·.below j)) ∧
    Alike Eq (fun e e' => e'.cause = e.cause ∧
        e'.position.map Position.line = e.position.map Position.line)
      (read text) (read (withReturns text)) :=
  ⟨fun _ _ hj hlast hb => read_insertLine text hj hlast hb, read_withReturns text⟩

/-- A description whose second line is no state line. -/
def strayText : String := "nfa 1 0 (0) () a\n x"

theorem layout_irrelevant_stray :
    read strayText = .error ⟨.expectedState, some ⟨2, 2⟩⟩ ∧
    (1 ≤ 2 ∧ 2 ≤ strayText.toList.count '\n' + 1 ∧ Blank [' ', '\t']) ∧
    read (insertLine 2 [' ', '\t'] strayText) = .error ⟨.expectedState, some ⟨3, 2⟩⟩ ∧
    Alike Eq (fun e e' => e'.cause = e.cause ∧
        e'.position.map Position.line = e.position.map Position.line)
      (read strayText) (read (withReturns strayText)) := by
  have hread : read strayText = .error ⟨.expectedState, some ⟨2, 2⟩⟩ := by decide +kernel
  have hlast : 2 ≤ strayText.toList.count '\n' + 1 := by decide +kernel
  have hblank : Blank [' ', '\t'] := by simp [Blank, Cursor.isBlank]
  refine ⟨hread, ⟨by decide, hlast, hblank⟩, ?_, (layout_irrelevant strayText).2⟩
  rw [(layout_irrelevant strayText).1 2 [' ', '\t'] (by decide) hlast hblank, hread]
  rfl

end Description

end Acceptor
