import Acceptor.Description.Cursor.Run
import Acceptor.Proofs.CursorSteps
import Mathlib.Data.List.DropRight
import Mathlib.Logic.Relation

/-!
# Where a cursor comes to

Every step of a cursor takes characters off the front of the text that is left and moves the
position along them. So a run does the same, and the position tells how many lines and characters
have been read since the start.

Blank lines are skipped in one go, although they may be found one at a time. Each of them takes a
character off the text, so there is an end to it, and then no blank line is ahead. As a text that
consists of blank lines is read by the same count, no such text at the front can be longer.

A longest run of characters that are no blanks can not begin inside a word. So it is the first word
of the line, or it stands behind that. The words that are read from the front are therefore all the
longest runs there are.

## Main results

* `Position.after_start`: the position behind a text from its characters.
* `Cursor.step_moves`, `Cursor.exists_run_moves`: one step, and a run.
* `Cursor.blankLine?_lt`, `Cursor.skipBlankLines_turns`: blank lines, one at a time.
* `Cursor.BlankLines.le_blankLines`: no longer text of blank lines is ahead.
* `Cursor.lineWords_turn`: the words of a line, one at a time.
* `Cursor.mem_words_iff`: the words of a line are the longest runs.
* `Cursor.run_ofText`: where a cursor stands, and what it finds.
-/

namespace Acceptor

/-- The position behind a text, counted from its start. -/
theorem Position.after_start (cs : List Char) : Position.start.after cs =
    ⟨1 + cs.count '\n', (cs.rtakeWhile (· != '\n')).length⟩ := by
  induction cs using List.reverseRecOn with
  | nil => rfl
  | append_singleton cs c ih =>
    rw [Position.after_append, ih, Position.after_cons, Position.after_nil, Position.advance,
      List.rtakeWhile_concat, List.count_append]
    by_cases hc : c = '\n'
    · simp [hc, Nat.add_assoc]
    · simp [hc]

namespace Cursor

open Description

variable {c d e : Cursor} {pos : Position} {w : Word}
variable {a b r t x y xs ys line rest tail : List Char}

/-! ### Steps and runs -/

/-- Every step takes characters off the text that is left. -/
theorem step_moves (c : Cursor) (s : Step) : ∃ xs, c.Moves (c.step s) xs := by
  cases s with
  | peek => exact ⟨[], rfl, rfl⟩
  | next => exact ⟨_, c.next_moves⟩
  | skipBlanks => exact ⟨_, c.skipBlanks_moves⟩
  | skipBlankLines => exact ⟨_, c.skipBlankLines_moves⟩
  | nextWord => exact c.nextWord_moves
  | lineWords => exact c.lineWords_moves
  | nextUntil x => exact c.nextUntil_moves x

theorem exists_run_moves (c : Cursor) (steps : List Step) : ∃ xs, c.Moves (c.run steps) xs := by
  induction steps generalizing c with
  | nil => exact ⟨[], rfl, rfl⟩
  | cons s steps ih =>
    obtain ⟨xs, hstep⟩ := c.step_moves s
    obtain ⟨ys, hrun⟩ := ih (c.step s)
    exact ⟨xs ++ ys, hstep.trans hrun⟩

/-- What is ahead up to the line break is what is left of the line. -/
theorem skipLine_append (pos : Position) (hline : '\n' ∉ line) (ht : ∀ y ∈ tail.head?, y = '\n') :
    ahead ⟨pos, line ++ tail⟩ (· != '\n') = line ∧
      skipWhile ⟨pos, line ++ tail⟩ (· != '\n') = ⟨pos.after line, tail⟩ := by
  refine skipWhile_append pos (fun y hy => ?_) fun y hy => ?_
  · simpa using fun heq : y = '\n' => hline (heq ▸ hy)
  · simp [ht y hy]

theorem not_mem_ahead (c : Cursor) : '\n' ∉ c.ahead (· != '\n') := by
  obtain ⟨pos, text⟩ := c
  obtain ⟨line, tail, rfl, hline, ht⟩ := exists_before ⟨pos, text⟩
  rwa [(skipLine_append pos hline ht).1]

/-! ### Blank lines -/

/-- A text starts with a blank line, or it is blank, or its first line holds a word. -/
theorem blankLines_induction {motive : List Char → Prop} (last : ∀ b, Blank b → motive b)
    (line : ∀ b r, Blank b → motive r → motive (b ++ '\n' :: r))
    (word : ∀ line tail, '\n' ∉ line → (∀ x ∈ tail.head?, x = '\n') → ¬Blank line →
      motive (line ++ tail)) (text : List Char) : motive text := by
  induction text using line_induction with
  | last l hl =>
    by_cases hb : Blank l
    · exact last l hb
    · simpa using word l [] hl (by simp) hb
  | line l r hl ih =>
    by_cases hb : Blank l
    · exact line l r hb ih
    · exact word l ('\n' :: r) hl (by simp) hb

theorem blankLine?_nil : blankLine? ⟨pos, []⟩ = none := rfl

theorem blankLine?_of_blank (pos : Position) (hb : Blank b) (hne : b ≠ []) :
    blankLine? ⟨pos, b⟩ = some ⟨pos.after b, []⟩ := by
  have hskip : skipBlanks ⟨pos, b ++ []⟩ = ⟨pos.after b, []⟩ := skipBlanks_append pos hb (by simp)
  rw [List.append_nil] at hskip
  simp [blankLine?, hskip, peek, atEnd, hne]

theorem blankLine?_of_break (pos : Position) (hb : Blank b) :
    blankLine? ⟨pos, b ++ '\n' :: r⟩ = some ⟨⟨pos.line + 1, 0⟩, r⟩ := by
  have hskip : skipBlanks ⟨pos, b ++ '\n' :: r⟩ = ⟨pos.after b, '\n' :: r⟩ :=
    skipBlanks_append pos hb (by simpa using not_blank_break)
  simp [blankLine?, hskip, peek, next, skip, after_of_blank pos hb, Position.advance]

theorem blankLine?_of_not_blank (pos : Position) (hline : '\n' ∉ line) (h : ¬Blank line) :
    blankLine? ⟨pos, line ++ tail⟩ = none := by
  obtain ⟨x, r, b, rfl, hb, hne, hx, -⟩ := exists_wordAt h
  obtain ⟨y, x, rfl⟩ := List.exists_cons_of_ne_nil hne
  have hy : ¬isBlank y := hx y (List.mem_cons_self ..)
  have hbreak : y ≠ '\n' := fun heq => hline (by simp [heq])
  have hsplit : b ++ (y :: x ++ r) ++ tail = b ++ y :: (x ++ (r ++ tail)) := by simp
  have hskip : skipBlanks ⟨pos, b ++ y :: (x ++ (r ++ tail))⟩ =
      ⟨pos.after b, y :: (x ++ (r ++ tail))⟩ := skipBlanks_append pos hb (by simpa using hy)
  rw [hsplit, blankLine?, hskip]
  simp [peek, atEnd, hbreak]

/-- A blank line is some blanks and a line break, or the blanks at the end of the text. -/
theorem blankLine?_eq_some (h : c.blankLine? = some d) :
    ∃ b, Blank b ∧ (c.Moves d (b ++ ['\n']) ∨ b ≠ [] ∧ c.Moves d b ∧ d.rest = []) := by
  obtain ⟨pos, text⟩ := c
  induction text using blankLines_induction with
  | last b hb =>
    by_cases hne : b = []
    · subst hne
      cases h
    · rw [blankLine?_of_blank pos hb hne] at h
      cases h
      exact ⟨b, hb, .inr ⟨hne, ⟨(List.append_nil b).symm, rfl⟩, rfl⟩⟩
  | line b r hb =>
    rw [blankLine?_of_break pos hb] at h
    cases h
    refine ⟨b, hb, .inl ⟨by simp, ?_⟩⟩
    rw [Position.after_append, after_of_blank pos hb]
    rfl
  | word line tail hline _ hblank =>
    rw [blankLine?_of_not_blank pos hline hblank] at h
    cases h

/-- Where no blank line is ahead, the text has ended or there is a word on the line. -/
theorem not_blank_of_blankLine? (h : c.blankLine? = none) :
    c.rest = [] ∨ ¬Blank (c.ahead (· != '\n')) := by
  obtain ⟨pos, text⟩ := c
  induction text using blankLines_induction with
  | last b hb =>
    by_cases hne : b = []
    · exact .inl hne
    · rw [blankLine?_of_blank pos hb hne] at h
      cases h
  | line b r hb =>
    rw [blankLine?_of_break pos hb] at h
    cases h
  | word line tail hline htail hblank =>
    rw [(skipLine_append pos hline htail).1]
    exact .inr hblank

/-- A blank line takes a character off the text, so there is an end to blank lines. -/
theorem blankLine?_lt (h : c.blankLine? = some d) : d.rest.length < c.rest.length := by
  obtain ⟨b, -, hmoves | ⟨hne, hmoves, -⟩⟩ := blankLine?_eq_some h
  · simp only [hmoves.1, List.length_append, List.length_singleton]
    omega
  · simpa [hmoves.1] using List.length_pos_iff.mpr hne

/-- Skipping blank lines is going behind one after the other until there is none ahead. -/
theorem skipBlankLines_turns (c : Cursor) :
    Relation.ReflTransGen (fun c d => c.blankLine? = some d) c c.skipBlankLines ∧
      c.skipBlankLines.blankLine? = none := by
  obtain ⟨pos, text⟩ := c
  induction text using blankLines_induction generalizing pos with
  | last b hb =>
    rw [skipBlankLines_of_blank pos hb]
    refine ⟨?_, blankLine?_nil⟩
    by_cases hne : b = []
    · subst hne
      exact .refl
    · exact .single (blankLine?_of_blank pos hb hne)
  | line b r hb ih =>
    rw [skipBlankLines_cons pos hb]
    obtain ⟨hturns, hnone⟩ := ih ⟨pos.line + 1, 0⟩
    exact ⟨.head (blankLine?_of_break pos hb) hturns, hnone⟩
  | word line tail hline _ hblank =>
    rw [skipBlankLines_of_not_blank pos hline hblank]
    exact ⟨.refl, blankLine?_of_not_blank pos hline hblank⟩

/-- A blank line before blank lines. -/
theorem BlankLines.turn (hturn : c.blankLine? = some d) (hmoves : d.Moves e xs)
    (h : BlankLines e.rest xs) : ∃ ys, c.Moves e ys ∧ BlankLines e.rest ys := by
  obtain ⟨b, hb, hline | ⟨-, hline, hend⟩⟩ := blankLine?_eq_some hturn
  · refine ⟨b ++ '\n' :: xs, ?_, .line hb h⟩
    simpa using hline.trans hmoves
  · obtain ⟨rfl, hrest⟩ := List.append_eq_nil_iff.mp (hmoves.1.symm.trans hend)
    refine ⟨b, ?_, .last hb hrest⟩
    simpa using hline.trans hmoves

/-- What lies between a cursor and one behind blank lines are blank lines. -/
theorem exists_blankLines (h : Relation.ReflTransGen (fun c d => c.blankLine? = some d) c e) :
    ∃ xs, c.Moves e xs ∧ BlankLines e.rest xs := by
  induction h using Relation.ReflTransGen.head_induction_on with
  | refl => exact ⟨[], ⟨rfl, rfl⟩, .nil⟩
  | head hturn _ ih =>
    obtain ⟨xs, hmoves, hxs⟩ := ih
    exact hxs.turn hturn hmoves

/-- A text of blank lines is counted in full. -/
theorem BlankLines.le_blankLines (h : BlankLines rest ys) :
    ys.length ≤ blankLines 0 (ys ++ rest) := by
  induction h with
  | nil => exact Nat.zero_le _
  | line hb _ ih =>
    rw [List.append_assoc, blankLines_append hb, List.cons_append, blankLines, if_pos rfl,
      List.length_append, List.length_cons]
    omega
  | last hb hrest =>
    rw [blankLines_append hb, hrest, blankLines]
    omega

/-- No text of blank lines at the front is longer than what is skipped. -/
theorem BlankLines.prefix_of_moves (h : BlankLines rest ys) (hc : c.rest = ys ++ rest)
    (hmoves : c.Moves c.skipBlankLines xs) : ys <+: xs := by
  have hlength : ys.length ≤ xs.length := by
    have hcount := h.le_blankLines
    have hrest := congrArg List.length hmoves.1
    rw [← hc] at hcount
    rw [skipBlankLines, skip, List.length_append, List.length_drop] at hrest
    have htotal := congrArg List.length hc
    rw [List.length_append] at htotal
    omega
  exact List.prefix_of_prefix_length_le ⟨rest, hc.symm⟩ ⟨_, hmoves.1.symm⟩ hlength

/-! ### Words -/

theorem lineWords_append (pos : Position) (hline : '\n' ∉ line) (ht : ∀ y ∈ tail.head?, y = '\n') :
    lineWords ⟨pos, line ++ tail⟩ = (words pos line, next ⟨pos.after line, tail⟩) := by
  obtain ⟨hahead, hskip⟩ := skipLine_append pos hline ht
  rw [lineWords, hahead, hskip]

/-- The words of a line are the next word and the words behind it, up to where there is none. -/
theorem lineWords_turn (c : Cursor) :
    c.lineWords = match c.nextWord with
      | (some w, d) => (w :: d.lineWords.1, d.lineWords.2)
      | (none, d) => ([], d.next) := by
  obtain ⟨pos, text⟩ := c
  obtain ⟨line, tail, rfl, hline, ht⟩ := exists_before ⟨pos, text⟩
  induction line using words_induction with
  | blank b hb =>
    rw [lineWords_append pos hline ht, nextWord_of_blank pos hb ht, words_of_blank pos hb]
  | word b x r hb hne hx hr =>
    obtain ⟨hfront, hback⟩ := not_mem_of_word hline
    have hword : ∀ y ∈ x, inWord y := fun y hy =>
      inWord_iff.mpr ⟨hx y hy, fun heq => hfront (heq ▸ List.mem_append_right b hy)⟩
    have hstop : ∀ y ∈ (r ++ tail).head?, ¬inWord y := by
      cases r with
      | nil => exact fun y hy => by simp [ht y hy, inWord]
      | cons z r => simpa using not_inWord_of_blank (hr z rfl)
    rw [lineWords_append pos hline ht, words_append pos hline hb hne hx hr,
      show b ++ (x ++ r) ++ tail = b ++ (x ++ (r ++ tail)) by simp,
      nextWord_of_word pos hb hne hword hstop]
    simp only [lineWords_append _ hback ht, ← Position.after_append, List.append_assoc]

/-- Between its blanks the first word of a line is a longest run. -/
theorem longestRun_of_word (hb : Blank b) (hne : x ≠ []) (hx : ∀ y ∈ x, ¬isBlank y)
    (hr : ∀ y ∈ r.head?, isBlank y) : LongestRun b x r :=
  ⟨hne, hx, fun y hy => hb y (List.mem_of_mem_getLast? hy), hr⟩

/-- A longest run of what is left behind another one is a longest run of the whole. -/
theorem LongestRun.behind (h : LongestRun b x (a ++ (y ++ r))) (h' : LongestRun a y r) :
    LongestRun (b ++ (x ++ a)) y r := by
  refine ⟨h'.ne_nil, h'.not_blank, ?_, h'.after⟩
  cases a with
  | nil =>
    -- the character after `x` would be a blank and the first of `y`
    obtain ⟨z, y, rfl⟩ := List.exists_cons_of_ne_nil h'.ne_nil
    exact absurd (h.after z rfl) (h'.not_blank z (List.mem_cons_self ..))
  | cons z a =>
    rw [← List.append_assoc, List.getLast?_append_of_ne_nil _ (List.cons_ne_nil z a)]
    exact h'.before

/-- A longest run of a line is its first word, or it stands behind that. -/
theorem LongestRun.eq_or_behind {d : List Char} (hb : Blank b) (h : LongestRun b x r) (h' : LongestRun d y t)
    (heq : b ++ (x ++ r) = d ++ (y ++ t)) :
    d = b ∧ y = x ∨ ∃ a, d = b ++ (x ++ a) ∧ r = a ++ (y ++ t) ∧ LongestRun a y t := by
  have hfirst : WordAt (b ++ (x ++ r)) x r := ⟨b, rfl, hb, h.ne_nil, h.not_blank, h.after⟩
  by_cases hd : Blank d
  · have hsecond : WordAt (b ++ (x ++ r)) y t := ⟨d, heq, hd, h'.ne_nil, h'.not_blank, h'.after⟩
    obtain ⟨rfl, rfl⟩ := hfirst.unique hsecond
    exact .inl ⟨(List.append_cancel_right heq).symm, rfl⟩
  · obtain ⟨z, a, e, rfl, he, hne, hz, ha⟩ := exists_wordAt hd
    cases a with
    | nil =>
      -- the character before `y` would be a blank and the last of `z`
      have hlast := h'.before (z.getLast hne) (by simp [List.getLast?_eq_some_getLast, hne])
      exact absurd hlast (hz _ (List.getLast_mem hne))
    | cons s a =>
      have hsecond : WordAt (b ++ (x ++ r)) z (s :: a ++ (y ++ t)) :=
        ⟨e, by rw [heq]; simp, he, hne, hz, ha⟩
      obtain ⟨rfl, rfl⟩ := hfirst.unique hsecond
      have hfront : b = e := by simpa using heq
      subst hfront
      refine .inr ⟨s :: a, rfl, rfl, h'.ne_nil, h'.not_blank, ?_, h'.after⟩
      have hbefore := h'.before
      rwa [← List.append_assoc, List.getLast?_append_of_ne_nil _ (List.cons_ne_nil s a)] at hbefore

/-- **Words.** The words of a line are its longest runs, and the position of a word is that of its
first character. -/
theorem mem_words_iff (pos : Position) (hline : '\n' ∉ line) : w ∈ words pos line ↔
    ∃ b r, line = b ++ (w.letters ++ r) ∧ LongestRun b w.letters r ∧
      w.position = ⟨pos.line, pos.column + b.length + 1⟩ := by
  induction line using words_induction generalizing pos with
  | blank l hl =>
    rw [words_of_blank pos hl]
    refine iff_of_false List.not_mem_nil ?_
    rintro ⟨b, r, rfl, hrun, -⟩
    obtain ⟨z, hz⟩ := List.exists_mem_of_ne_nil _ hrun.ne_nil
    exact hrun.not_blank z hz (hl z (by simp [hz]))
  | word b x r hb hne hx hr ih =>
    obtain ⟨hfront, hback⟩ := not_mem_of_word hline
    have hrun := longestRun_of_word hb hne hx hr
    rw [words_append pos hline hb hne hx hr, List.mem_cons, ih _ hback, after_of_blank pos hb,
      Position.after_of_not_mem hfront]
    constructor
    · rintro (rfl | ⟨a, t, rfl, hrun', hpos⟩)
      · exact ⟨b, r, rfl, hrun, rfl⟩
      · refine ⟨b ++ (x ++ a), t, by simp, hrun.behind hrun', ?_⟩
        rw [hpos]
        simp [Nat.add_assoc]
    · rintro ⟨d, t, heq, hrun', hpos⟩
      obtain ⟨rfl, hletters⟩ | ⟨a, rfl, rfl, hrun'⟩ := hrun.eq_or_behind hb hrun' heq
      · left
        cases w
        simp_all [Position.next]
      · refine .inr ⟨a, t, rfl, hrun', ?_⟩
        rw [hpos]
        simp [Nat.add_assoc]

/-- The words of a line stand in the order of their positions. -/
theorem words_sorted (pos : Position) (hline : '\n' ∉ line) :
    (words pos line).Pairwise fun v w => v.position.column < w.position.column := by
  induction line using words_induction generalizing pos with
  | blank b hb =>
    rw [words_of_blank pos hb]
    exact .nil
  | word b x r hb hne hx hr ih =>
    obtain ⟨hfront, hback⟩ := not_mem_of_word hline
    rw [words_append pos hline hb hne hx hr]
    refine .cons (fun w hw => ?_) (ih _ hback)
    have hbehind := column_lt_of_mem_words hback hw
    have hpos : 0 < x.length := List.length_pos_iff.mpr hne
    simp only [Position.after_of_not_mem hfront, List.length_append] at hbehind
    simp only [after_of_blank pos hb, Position.next]
    omega

/-! ### Runs from the start of a text -/

/-- **Where a cursor stands, and what it finds.** Whatever steps a cursor has made from the start of
a text, the position counts the line breaks read and the characters read since the last of them.
Blank lines can be found one at a time, until none is ahead, and each of them makes the text that is
left shorter. What is skipped consists of blank lines, and there are no more of them: the text has
ended, or the line holds a word. The words of the line are the longest runs of characters that are
no blanks, from left to right. -/
theorem run_ofText (s : String) (steps : List Step) :
    let c := (ofText s).run steps
    (∃ read, s.toList = read ++ c.rest ∧
      c.position = ⟨1 + read.count '\n', (read.rtakeWhile (· != '\n')).length⟩) ∧
    (Relation.ReflTransGen (fun d e => d.blankLine? = some e) c c.skipBlankLines ∧
      c.skipBlankLines.blankLine? = none ∧
      ∀ d e : Cursor, d.blankLine? = some e → e.rest.length < d.rest.length) ∧
    (∃ xs, c.Moves c.skipBlankLines xs ∧ BlankLines c.skipBlankLines.rest xs ∧
      ∀ ys rest, c.rest = ys ++ rest → BlankLines rest ys → ys <+: xs) ∧
    (c.skipBlankLines.rest = [] ∨ ¬Blank (c.skipBlankLines.ahead (· != '\n'))) ∧
    (∀ w, w ∈ c.lineWords.1 ↔
      ∃ b r, c.ahead (· != '\n') = b ++ (w.letters ++ r) ∧ LongestRun b w.letters r ∧
        w.position = ⟨c.position.line, c.position.column + b.length + 1⟩) ∧
    c.lineWords.1.Pairwise fun v w => v.position.column < w.position.column := by
  intro c
  obtain ⟨read, hsplit, hposition⟩ := (ofText s).exists_run_moves steps
  obtain ⟨hturns, hnone⟩ := c.skipBlankLines_turns
  obtain ⟨xs, hmoves, hxs⟩ := exists_blankLines hturns
  refine ⟨⟨read, hsplit, ?_⟩, ⟨hturns, hnone, fun _ _ => blankLine?_lt⟩,
    ⟨xs, hmoves, hxs, fun ys rest hc hys => hys.prefix_of_moves hc hmoves⟩,
    not_blank_of_blankLine? hnone, fun w => mem_words_iff c.position c.not_mem_ahead,
    words_sorted c.position c.not_mem_ahead⟩
  rw [hposition, ofText, Position.after_start]

/-- Behind a word a line goes on with another one, and a line of blanks follows at the end of the
text. -/
theorem run_ofText_trailing :
    ⟨⟨1, 4⟩, ['c']⟩ ∈ ((ofText "ab c\n \t").run [.nextWord]).lineWords.1 ∧
      ∃ xs, ((ofText "ab c\n \t").run [.lineWords]).Moves
        ((ofText "ab c\n \t").run [.lineWords, .skipBlankLines]) xs ∧ [' ', '\t'] <+: xs := by
  constructor
  · obtain ⟨-, -, -, -, hwords, -⟩ := run_ofText "ab c\n \t" [.nextWord]
    refine (hwords _).mpr ⟨[' '], [], by decide +kernel, ?_, by decide +kernel⟩
    exact ⟨List.cons_ne_nil _ _, by simp [isBlank], by simp [isBlank], by simp⟩
  · obtain ⟨-, -, ⟨xs, hmoves, -, hlongest⟩, -⟩ := run_ofText "ab c\n \t" [.lineWords]
    exact ⟨xs, hmoves, hlongest _ [] (by decide +kernel) (.last (by simp [isBlank]) rfl)⟩

end Cursor

end Acceptor
