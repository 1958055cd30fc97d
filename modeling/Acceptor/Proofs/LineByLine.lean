import Acceptor.Proofs.LinesAlike

/-!
# Descriptions are read line by line

Between two lines the cursor stands in front of the lines that are left, and the reader knows what
is due. It then does what the machine of the lines does. So whatever holds of a run over lines, line
after line, holds of reading a description.

## Main definitions

* `Cursor.Awaits`: the cursor stands in front of some lines.

## Main results

* `Description.rowsFrom_append`: the lines of a text that is cut at a line break.
* `Cursor.Awaits.skipBlankLines`: what stands behind the blank lines.
* `Description.readLines_eq`: a loop that reads lines takes the steps of the machine.
* `Description.read_eq_readRows`: reading a description is reading its lines.
-/

namespace Acceptor

namespace Description

variable {row : Row} {n : Nat} {text line rest u v : List Char} {lines lines' : List (List Char)}

/-! ### Lines with their numbers -/

theorem number_append (n : Nat) (lines lines' : List (List Char)) :
    number n (lines ++ lines') = number n lines ++ number (n + lines.length) lines' := by
  induction lines generalizing n with
  | nil => rfl
  | cons line lines ih =>
    rw [List.cons_append, number, number, ih, List.length_cons, Nat.add_assoc, Nat.add_comm 1]
    split <;> rfl

theorem rowsFrom_append (n : Nat) (u v : List Char) :
    rowsFrom n (u ++ '\n' :: v) = rowsFrom n u ++ rowsFrom (n + u.count '\n' + 1) v := by
  rw [rowsFrom, Text.cut_append_sep, number_append, Text.length_cut, rowsFrom, rowsFrom,
    Nat.add_assoc]

theorem number_singleton_of_blank (h : Blank line) : number n [line] = [] := by
  rw [number, if_pos (List.all_eq_true.mpr h)]
  rfl

theorem number_singleton_of_not_blank (h : ¬Blank line) : number n [line] = [⟨n, line⟩] := by
  rw [number, if_neg fun hall => h (List.all_eq_true.mp hall)]
  rfl

theorem rowsFrom_of_not_mem (h : '\n' ∉ line) : rowsFrom n line = number n [line] := by
  rw [rowsFrom, Text.cut_of_not_mem h]

theorem mem_number : row ∈ number n lines ↔
    ∃ i, lines[i]? = some row.letters ∧ row.number = n + i ∧ ¬Blank row.letters := by
  induction lines generalizing n with
  | nil => simp [number]
  | cons line lines ih =>
    have hrest : (∃ i, (line :: lines)[i]? = some row.letters ∧ row.number = n + i ∧
        ¬Blank row.letters) ↔ (line = row.letters ∧ row.number = n ∧ ¬Blank row.letters) ∨
          row ∈ number (n + 1) lines := by
      rw [ih]
      constructor
      · rintro ⟨i, hi, hnumber, hblank⟩
        cases i with
        | zero => exact .inl ⟨by simpa using hi, hnumber, hblank⟩
        | succ i => exact .inr ⟨i, hi, by omega, hblank⟩
      · rintro (⟨rfl, hnumber, hblank⟩ | ⟨i, hi, hnumber, hblank⟩)
        · exact ⟨0, rfl, hnumber, hblank⟩
        · exact ⟨i + 1, hi, by omega, hblank⟩
    rw [hrest, number]
    split
    · next hall =>
      have hblank : Blank line := List.all_eq_true.mp hall
      constructor
      · exact .inr
      · rintro (⟨rfl, -, h⟩ | h)
        · exact absurd hblank h
        · exact h
    · next hall =>
      have hblank : ¬Blank line := fun h => hall (List.all_eq_true.mpr h)
      rw [List.mem_cons]
      refine or_congr_left ?_
      obtain ⟨k, letters⟩ := row
      simp only [Row.mk.injEq]
      constructor
      · rintro ⟨rfl, rfl⟩
        exact ⟨rfl, rfl, hblank⟩
      · rintro ⟨rfl, rfl, -⟩
        exact ⟨rfl, rfl⟩

/-- The lines of a text are its pieces between line breaks. -/
theorem mem_rowsFrom (h : row ∈ rowsFrom n text) : '\n' ∉ row.letters ∧ ¬Blank row.letters ∧
    n ≤ row.number ∧ (Text.cut '\n' text)[row.number - n]? = some row.letters := by
  obtain ⟨i, hi, hnumber, hblank⟩ := mem_number.mp h
  refine ⟨Text.not_mem_of_mem_cut (List.mem_of_getElem? hi), hblank, by omega, ?_⟩
  rwa [hnumber, Nat.add_sub_cancel_left]

/-- The position behind a text is behind its last piece. -/
theorem after_eq (n : Nat) (text : List Char) :
    ∃ line, (Text.cut '\n' text)[text.count '\n']? = some line ∧
      Position.after ⟨n, 0⟩ text = ⟨n + text.count '\n', line.length⟩ := by
  induction text using line_induction generalizing n with
  | last line hline =>
    refine ⟨line, ?_, ?_⟩
    · rw [Text.cut_of_not_mem hline, List.count_eq_zero.mpr hline]
      rfl
    · rw [Position.after_of_not_mem hline, List.count_eq_zero.mpr hline, Nat.zero_add]
      rfl
  | line front rest hfront ih =>
    obtain ⟨line, hline, hafter⟩ := ih (n + 1)
    have hcount : (front ++ '\n' :: rest).count '\n' = rest.count '\n' + 1 := by
      rw [List.count_append, List.count_eq_zero.mpr hfront, Nat.zero_add, List.count_cons_self]
    refine ⟨line, ?_, ?_⟩
    · rw [Text.cut_append hfront, hcount]
      exact hline
    · rw [hcount, Position.after_append, Position.after_of_not_mem hfront, Position.after_cons]
      exact hafter.trans (by rw [Nat.add_assoc, Nat.add_comm 1])

end Description

/-! ### In front of lines -/

namespace Cursor

open Description

variable {c d : Cursor} {rows : List Row} {p pos : Position} {b rest line tail : List Char}

/-- The cursor stands at the start of a line, or at the end of the text. The lines that are not
blank from there on are `rows`, and `p` is the position behind the text. -/
structure Awaits (c : Cursor) (rows : List Row) (p : Position) : Prop where
  /-- The cursor stands at the start of a line. -/
  column : c.rest ≠ [] → c.position.column = 0
  /-- These are the lines. -/
  rows_eq : rows = rowsFrom c.position.line c.rest
  /-- This is the position behind the text. -/
  stop : (c.position.after c.rest).next = p

theorem awaits_ofText (text : String) :
    (ofText text).Awaits (rowsFrom 1 text.toList) (Position.start.after text.toList).next :=
  ⟨fun _ => rfl, rfl, rfl⟩

theorem awaits_nil (pos : Position) : Awaits ⟨pos, []⟩ [] pos.next := ⟨by simp, rfl, rfl⟩

theorem Awaits.forward (h : Awaits ⟨pos, line ++ '\n' :: rest⟩ rows p) (hline : '\n' ∉ line) :
    ∃ rows', rows = number pos.line [line] ++ rows' ∧ Awaits ⟨⟨pos.line + 1, 0⟩, rest⟩ rows' p := by
  obtain ⟨-, rfl, rfl⟩ := h
  refine ⟨rowsFrom (pos.line + 1) rest, ?_, fun _ => rfl, rfl, ?_⟩
  · rw [rowsFrom_append, rowsFrom_of_not_mem hline, List.count_eq_zero.mpr hline]
  · rw [Position.after_append, Position.after_of_not_mem hline]
    rfl

/-- What stands in front of the cursor behind the blank lines: the end of the text, or the first of
the lines, behind which the cursor stands in front of the others. -/
theorem Awaits.skipBlankLines (h : c.Awaits rows p) :
    (rows = [] ∧ c.skipBlankLines = ⟨c.skipBlankLines.position, []⟩ ∧
        c.skipBlankLines.position.next = p) ∨
      ∃ row rows' tail, rows = row :: rows' ∧ c.skipBlankLines = row.start.beside row.number tail ∧
        '\n' ∉ row.letters ∧ ¬Blank row.letters ∧ (∀ x ∈ tail.head?, x = '\n') ∧
        (next ⟨row.stop, tail⟩).Awaits rows' p := by
  obtain ⟨pos, text⟩ := c
  -- a blank line in front does not change what the lines behind it are
  induction text using line_induction generalizing pos rows with
  | last line hline =>
    obtain ⟨hcolumn, rfl, rfl⟩ := h
    by_cases hblank : Blank line
    · rw [skipBlankLines_of_blank pos hblank]
      exact .inl ⟨by rw [rowsFrom_of_not_mem hline, number_singleton_of_blank hblank], rfl, rfl⟩
    · have hcol : pos.column = 0 := hcolumn fun hnil : line = [] => hblank (hnil ▸ blank_nil)
      refine .inr ⟨⟨pos.line, line⟩, [], [], ?_, ?_, hline, hblank, by simp, ?_⟩
      · rw [rowsFrom_of_not_mem hline, number_singleton_of_not_blank hblank]
      · rw [skipBlankLines_of_not_blank_text pos hline hblank, beside, Row.start,
          List.append_nil, Position.onLine, ← hcol]
      · rw [Position.after_of_not_mem hline, hcol, Nat.zero_add]
        exact awaits_nil _
  | line line rest hline ih =>
    obtain ⟨rows', hrows, hnext⟩ := h.forward hline
    by_cases hblank : Blank line
    · rw [number_singleton_of_blank hblank, List.nil_append] at hrows
      rw [skipBlankLines_cons pos hblank, hrows]
      exact ih _ hnext
    · have hcol : pos.column = 0 := h.column (by simp)
      rw [number_singleton_of_not_blank hblank, List.singleton_append] at hrows
      refine .inr ⟨_, rows', '\n' :: rest, hrows, ?_, hline, hblank, by simp, hnext⟩
      rw [skipBlankLines_of_not_blank pos hline hblank, beside, Row.start, Position.onLine, ← hcol]

theorem not_atEnd_beside {row : Row} (hblank : ¬Blank row.letters) :
    ¬(row.start.beside row.number tail).atEnd := by
  have hne : row.letters ++ tail ≠ [] := fun h =>
    hblank ((List.append_eq_nil_iff.mp h).1 ▸ blank_nil)
  simpa [atEnd, beside, Row.start] using hne

/-- All words of a line are read. -/
theorem lineWords_beside {row : Row} (hline : '\n' ∉ row.letters)
    (ht : ∀ x ∈ tail.head?, x = '\n') :
    (row.start.beside row.number tail).lineWords = (row.words, next ⟨row.stop, tail⟩) := by
  have hall : ∀ x ∈ row.letters, (x != '\n') = true := fun x hx => by
    simpa using fun h : x = '\n' => hline (h ▸ hx)
  have hstop : ∀ x ∈ tail.head?, ¬(x != '\n') = true := fun x hx => by simp [ht x hx]
  obtain ⟨hahead, hskip⟩ := skipWhile_append ⟨row.number, 0⟩ hall hstop
  have hafter : Position.after ⟨row.number, 0⟩ row.letters = row.stop := by
    rw [Position.after_of_not_mem hline, Nat.zero_add]
    rfl
  rw [hafter] at hskip
  exact Prod.ext (congrArg (words ⟨row.number, 0⟩) hahead) (congrArg next hskip)

end Cursor

namespace Description

open Cursor

variable {c : Cursor} {rows : List Row} {p : Position} {g : Graph} {n : Nat}

/-! ### Reading lines -/

theorem eq_of_related {e e' : Error} (h : Error.Related Eq e e') : e = e' := by
  obtain ⟨cause, position⟩ := e
  obtain ⟨cause', position'⟩ := e'
  obtain ⟨rfl, hposition⟩ := h
  cases hposition with
  | none => rfl
  | some h => rw [h]

theorem beside_self {row : Row} {tail : List Char} (hline : '\n' ∉ row.letters)
    (ht : ∀ x ∈ tail.head?, x = '\n') : Beside Eq row row.number [] tail :=
  ⟨hline, blank_nil, ht, fun _ => rfl, rfl⟩

/-- The next line is missing, or its words are read. -/
theorem readLine_of_awaits (hc : c.Awaits rows p) :
    (rows = [] ∧ ∀ missing, readLine missing c = .error (.located p missing)) ∨
      ∃ row rows' d, rows = row :: rows' ∧ (∀ missing, readLine missing c = .ok (row.words, d)) ∧
        d.Awaits rows' p := by
  rcases hc.skipBlankLines with
    ⟨hrows, hskip, hstop⟩ | ⟨row, rows', tail, hrows, hskip, hline, hblank, ht, hnext⟩
  · refine .inl ⟨hrows, fun missing => ?_⟩
    rw [readLine, if_pos (by rw [hskip]; rfl), hstop]
  · refine .inr ⟨row, rows', _, hrows, fun missing => ?_, hnext⟩
    rw [readLine, hskip, if_neg (not_atEnd_beside hblank), lineWords_beside hline ht]

/-- Reading lines is taking steps of the machine, if it is due to add as many lines, and what comes
then is what the machine does in the end. -/
theorem readLines_eq {α : Type} {add : Graph → List Word → Except Error Graph}
    {missing : Nat → Cause} (due : Nat → Graph → Due) {k : Graph × Cursor → Except Error α}
    {conclude : Due → Except Error α}
    (hstep : ∀ n g row, step (due (n + 1) g) row = (add g row.words).map (due n))
    (hfinish : ∀ n g, conclude (due (n + 1) g) = .error (.located p (missing (n + 1))))
    (hk : ∀ {g c rows}, c.Awaits rows p → k (g, c) = rows.foldlM step (due 0 g) >>= conclude)
    (hc : c.Awaits rows p) :
    readLines add missing n g c >>= k = rows.foldlM step (due n g) >>= conclude := by
  induction n generalizing g c rows with
  | zero => exact hk hc
  | succ n ih =>
    -- with no line left both complain of it, and with one left both take the same step on it
    rw [readLines]
    rcases readLine_of_awaits hc with ⟨rfl, hmissing⟩ | ⟨row, rows', d, rfl, hread, hd⟩
    · rw [hmissing]
      exact (hfinish n g).symm
    · simp only [hread, List.foldlM_cons, hstep]
      cases add g row.words with
      | error e => rfl
      | ok g => exact ih hd

/-! ### The parts of a description -/

/-- What is done behind the last transition line. -/
theorem readEnd_eq (h : Header) (hc : c.Awaits rows p) :
    (readEnd c >>= fun _ => finish p (.lines h 0 0 g)) =
      rows.foldlM step (.lines h 0 0 g) >>= finish p := by
  rw [readEnd]
  rcases hc.skipBlankLines with
    ⟨rfl, hskip, hstop⟩ | ⟨row, rows', tail, rfl, hskip, hline, hblank, ht, hnext⟩
  · rw [hskip]
    rfl
  · rw [hskip, if_neg (not_atEnd_beside hblank)]
    rfl

/-- The header is missing, or it is the first of the lines. -/
theorem readHeader_of_awaits (hc : c.Awaits rows p) :
    (rows = [] ∧ readHeader c = .error (.located p .missingHeader)) ∨
      ∃ row rows' d, rows = row :: rows' ∧ d.Awaits rows' p ∧
        Alike (fun x y => y = (x.1, d)) Eq (readHeader row.start) (readHeader c) := by
  have hsame {d : Cursor} (h : c.skipBlankLines = d.skipBlankLines) :
      readHeader c = readHeader d := by rw [readHeader, readHeader, h]
  rcases hc.skipBlankLines with
    ⟨hrows, hskip, hstop⟩ | ⟨row, rows', tail, hrows, hskip, hline, hblank, ht, hnext⟩
  · refine .inl ⟨hrows, ?_⟩
    rw [readHeader, hskip, readKind, nextWord_of_blank_text _ blank_nil]
    exact congrArg (fun q => Except.error (Error.located q .missingHeader)) hstop
  · refine .inr ⟨row, rows', _, hrows, hnext, ?_⟩
    have hstay : (row.start.beside row.number tail).skipBlankLines =
        row.start.beside row.number tail := skipBlankLines_of_not_blank _ hline hblank
    rw [hsame (hskip.trans hstay.symm)]
    exact ((beside_self hline ht).readHeader hblank).mono (fun _ _ h => h)
      fun _ _ => eq_of_related

/-- **Reading a description is reading its lines,** one after the other. -/
theorem read_eq_readRows (text : String) :
    read text = readRows (Position.start.after text.toList).next (rowsFrom 1 text.toList) := by
  rcases readHeader_of_awaits (awaits_ofText text) with
    ⟨hrows, hmissing⟩ | ⟨row, rows', d, hrows, hd, halike⟩
  · rw [read, hmissing, hrows]
    rfl
  · rw [read, hrows, readRows, List.foldlM_cons, step]
    generalize readHeader row.start = x at halike
    generalize readHeader (ofText text) = y at halike
    cases halike with
    | error h =>
      subst h
      rfl
    | @ok hd' _ h =>
      -- what the state lines leave is for the transition lines, and what these leave for the end
      subst h
      refine readLines_eq (fun n g => .lines hd'.1 n hd'.1.transitionCount g)
        (fun _ _ _ => rfl) (fun _ _ => rfl) (fun {g c rows} hc => ?_) hd
      refine readLines_eq (fun n g => .lines hd'.1 0 n g)
        (fun _ _ _ => rfl) (fun _ _ => rfl) (fun {g c rows} hc => ?_) hc
      exact readEnd_eq hd'.1 hc

end Description

end Acceptor
