import Acceptor.Proofs.Words

/-!
# Lines of a text

A cursor skips blank lines and reads the words of the next one, the format drops blank lines from
the pieces between line breaks. A loop that reads a number of lines takes as many of the lines that
are left in the format's view, and fails where there are not enough of them.

## Main results

* `Cursor.skipBlankLines_spec`: skipping blank lines comes to the next line of the format.
* `Description.readLine_spec`, `Description.readEnd_eq_ok`: reading the next line or none.
* `Description.readLines_iff`: reading a number of lines into a graph.
-/

namespace Acceptor

namespace Description

variable {line tail rest : List Char}

theorem contentLines_append (hline : '\n' ∉ line) (htail : ∀ x ∈ tail.head?, x = '\n') :
    contentLines (line ++ tail) =
      [line].filter (fun l => !l.all Cursor.isBlank) ++ contentLines (tail.drop 1) := by
  cases tail with
  | nil =>
    rw [List.append_nil, contentLines, Text.cut_of_not_mem hline]
    simp [contentLines]
  | cons x tail =>
    obtain rfl : x = '\n' := htail x rfl
    rw [contentLines, Text.cut_append hline, ← List.singleton_append, List.filter_append]
    rfl

theorem contentLines_of_blank (hline : '\n' ∉ line) (htail : ∀ x ∈ tail.head?, x = '\n')
    (h : Blank line) : contentLines (line ++ tail) = contentLines (tail.drop 1) := by
  have hall : line.all Cursor.isBlank := List.all_eq_true.mpr h
  rw [contentLines_append hline htail, List.filter_cons_of_neg (by simp [hall])]
  rfl

theorem contentLines_of_not_blank (hline : '\n' ∉ line) (htail : ∀ x ∈ tail.head?, x = '\n')
    (h : ¬Blank line) : contentLines (line ++ tail) = line :: contentLines (tail.drop 1) := by
  have hall : ¬line.all Cursor.isBlank := fun hall => h (List.all_eq_true.mp hall)
  rw [contentLines_append hline htail, List.filter_cons_of_pos (by simpa using hall)]
  rfl

end Description

namespace Cursor

open Description

variable {c d : Cursor} {line tail b cs : List Char}

/-! ### Skipping blank lines -/

/-- After `b`, the blanks seen so far on a line, what is left once the blank lines are dropped is
the end of the text or starts with the next line that is not blank. -/
theorem drop_blankLines (cs : List Char) (hb : Blank b) :
    ((b ++ cs).drop (blankLines b.length cs) = [] ∧ contentLines (b ++ cs) = []) ∨
      ∃ line tail, (b ++ cs).drop (blankLines b.length cs) = line ++ tail ∧ '\n' ∉ line ∧
        (∀ x ∈ tail.head?, x = '\n') ∧ ¬Blank line ∧
          contentLines (b ++ cs) = line :: contentLines (tail.drop 1) := by
  have hbreak : '\n' ∉ b := fun hmem => absurd (hb _ hmem) (by decide)
  induction cs generalizing b with
  | nil =>
    exact .inl ⟨by simp [blankLines], contentLines_of_blank hbreak (by simp) hb⟩
  | cons x cs ih =>
    rw [blankLines]
    by_cases hx : x = '\n'
    · -- the blanks were a whole line: what is dropped of the rest follows
      subst hx
      have hdrop : (b ++ '\n' :: cs).drop (b.length + 1 + blankLines 0 cs) =
          cs.drop (blankLines 0 cs) := by
        rw [Nat.add_assoc, Nat.add_comm 1, List.drop_length_add_append, List.drop_succ_cons]
      rw [if_pos rfl, contentLines_of_blank hbreak (by simp) hb, hdrop]
      simpa using ih blank_nil (by simp)
    · rw [if_neg hx]
      by_cases hblank : isBlank x
      · have hbx : Blank (b ++ [x]) := blank_append.mpr ⟨hb, by simpa using hblank⟩
        have hbreak' : '\n' ∉ b ++ [x] := by simpa [hbreak] using Ne.symm hx
        rw [if_pos hblank]
        simpa using ih hbx hbreak'
      · rw [if_neg hblank, List.drop_zero]
        obtain ⟨line, tail, hbefore⟩ := exists_before ⟨.start, x :: cs⟩
        have hrest : x :: cs = line ++ tail := hbefore.rest_eq
        have hfirst : ¬Blank line := by
          intro hbl
          cases line with
          | nil => exact hx (hbefore.tail_break x (by rw [← List.nil_append tail, ← hrest]; rfl))
          | cons y line =>
            obtain rfl : x = y := (List.cons.inj hrest).1
            exact hblank (blank_cons.mp hbl).1
        have hline : '\n' ∉ b ++ line := by
          rw [List.mem_append]
          exact not_or.mpr ⟨hbreak, hbefore.no_break⟩
        have hnot : ¬Blank (b ++ line) := fun h => hfirst (blank_append.mp h).2
        have heq : b ++ x :: cs = (b ++ line) ++ tail := by rw [List.append_assoc, hrest]
        refine .inr ⟨b ++ line, tail, heq, hline, hbefore.tail_break, hnot, ?_⟩
        rw [heq, contentLines_of_not_blank hline hbefore.tail_break hnot]

/-- **Skipping blank lines** comes to the next line that is not blank, or to the end of the text. -/
theorem skipBlankLines_spec (c : Cursor) :
    (c.skipBlankLines.rest = [] ∧ contentLines c.rest = []) ∨
      ∃ line tail, c.skipBlankLines.Before line tail ∧ ¬Blank line ∧
        contentLines c.rest = line :: contentLines (tail.drop 1) := by
  rcases drop_blankLines c.rest blank_nil with h | ⟨line, tail, hrest, h₁, h₂, h₃, h₄⟩
  · exact .inl h
  · exact .inr ⟨line, tail, ⟨hrest, h₁, h₂⟩, h₃, h₄⟩

end Cursor

namespace Description

variable {c d : Cursor} {line : List Char} {lines rest : List (List Char)} {ws : List Word}
  {g g' : Graph} {n : Nat}

/-! ### Reading lines -/

/-- Reading the next line fails if no line is left, and else gives its words. -/
theorem readLine_spec (missing : Cause) (c : Cursor) :
    (contentLines c.rest = [] ∧ ∃ e, readLine missing c = .error e) ∨
      ∃ line ws d, readLine missing c = .ok (ws, d) ∧
        contentLines c.rest = line :: contentLines d.rest ∧
        ws.map Word.letters = wordsOf line := by
  rw [readLine]
  rcases c.skipBlankLines_spec with ⟨hend, hnil⟩ | ⟨line, tail, hbefore, hblank, hlines⟩
  · exact .inl ⟨hnil, _, if_pos (by rw [Cursor.atEnd, hend]; rfl)⟩
  · have hne : c.skipBlankLines.rest ≠ [] := by
      rw [hbefore.rest_eq]
      rintro hnil
      obtain rfl := (List.append_eq_nil_iff.mp hnil).1
      exact hblank blank_nil
    obtain ⟨hwords, hrest⟩ := hbefore.lineWords
    exact .inr ⟨line, _, _, by simp [Cursor.atEnd, hne], hrest ▸ hlines, hwords⟩

theorem readEnd_eq_ok : readEnd c = .ok () ↔ contentLines c.rest = [] := by
  rw [readEnd]
  rcases c.skipBlankLines_spec with ⟨hend, hnil⟩ | ⟨line, tail, hbefore, hblank, hlines⟩
  · simp [Cursor.atEnd, hend, hnil]
  · have hne : line ++ tail ≠ [] := by
      intro hnil
      obtain rfl := (List.append_eq_nil_iff.mp hnil).1
      exact hblank blank_nil
    simp [Cursor.atEnd, hbefore.rest_eq, hne, hlines]

/-- The lines lead from one graph to another, each by a step that depends on its words. -/
def Leads (step : Graph → List (List Char) → Graph → Prop) :
    List (List Char) → Graph → Graph → Prop
  | [], g, g' => g = g'
  | line :: lines, g, g' => ∃ g₁, step g (wordsOf line) g₁ ∧ Leads step lines g₁ g'

/-- Reading `n` lines takes the next `n` lines of the format. -/
theorem readLines_iff {add : Graph → List Word → Except Error Graph} {missing : Nat → Cause}
    {step : Graph → List (List Char) → Graph → Prop}
    (hadd : ∀ g ws g', add g ws = .ok g' ↔ step g (ws.map Word.letters) g') :
    (∃ d, readLines add missing n g c = .ok (g', d) ∧ contentLines d.rest = rest) ↔
      ∃ lines, contentLines c.rest = lines ++ rest ∧ lines.length = n ∧
        Leads step lines g g' := by
  induction n generalizing g c with
  | zero =>
    constructor
    · rintro ⟨d, hd, rfl⟩
      cases hd
      exact ⟨[], rfl, rfl, rfl⟩
    · rintro ⟨lines, hlines, hlen, hleads⟩
      obtain rfl := List.length_eq_zero_iff.mp hlen
      exact ⟨c, by rw [readLines, show g = g' from hleads], hlines⟩
  | succ n ih =>
    rw [readLines]
    rcases readLine_spec (missing (n + 1)) c with
      ⟨hnil, e, he⟩ | ⟨line, ws, d, hread, hlines, hwords⟩
    · rw [he, hnil]
      refine iff_of_false (by simp) ?_
      rintro ⟨lines, hlines, hlen, -⟩
      obtain rfl := (List.append_eq_nil_iff.mp hlines.symm).1
      cases hlen
    · simp only [hread, hlines]
      constructor
      · rintro ⟨d', hd', hrest⟩
        split at hd'
        · cases hd'
        · next g₁ hg₁ =>
          obtain ⟨lines, hl, hlen, hleads⟩ := ih.mp ⟨d', hd', hrest⟩
          refine ⟨line :: lines, congrArg (line :: ·) hl, congrArg (· + 1) hlen, g₁, ?_, hleads⟩
          exact hwords ▸ (hadd g ws g₁).mp hg₁
      · rintro ⟨lines, hl, hlen, hleads⟩
        obtain ⟨l, lines, rfl⟩ := List.exists_cons_of_ne_nil (List.ne_nil_of_length_eq_add_one hlen)
        obtain ⟨rfl, hleft⟩ := List.cons.inj hl
        obtain ⟨g₁, hstep, hleads⟩ := hleads
        rw [(hadd g ws g₁).mpr (hwords ▸ hstep)]
        exact ih.mpr ⟨lines, hleft, Nat.succ.inj hlen, hleads⟩

end Description

end Acceptor
