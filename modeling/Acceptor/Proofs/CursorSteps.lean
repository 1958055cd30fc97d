import Acceptor.Proofs.Words

/-!
# The steps of a cursor

What each operation does to a cursor whose text is taken apart into the pieces that the operation
looks for. The position moves on by the pieces that are read. These equations say of an operation
all that there is to it, so that two cursors can be compared by applying the same equation to both.

## Main results

* `line_induction`: induction on the lines of a text.
* `Cursor.nextWord_of_blank`, `Cursor.nextWord_of_word`: the next word of a line.
* `Cursor.words_of_blank`, `Cursor.words_append`: the words of a line with their positions.
* `Cursor.words_induction`: induction on the words of a line.
* `Cursor.nextUntil_of_mem`, `Cursor.nextUntil_of_not_mem`: the text up to a character.
* `Cursor.skipBlankLines_of_not_blank`, `Cursor.skipBlankLines_of_blank`,
  `Cursor.skipBlankLines_cons`: skipping blank lines, one line at a time.
-/

namespace Acceptor

/-- A text is one line, or a line with a text behind its line break. -/
theorem line_induction {motive : List Char → Prop} (last : ∀ line, '\n' ∉ line → motive line)
    (line : ∀ line rest, '\n' ∉ line → motive rest → motive (line ++ '\n' :: rest))
    (text : List Char) : motive text := by
  induction hn : text.length using Nat.strongRecOn generalizing text with
  | ind n ih =>
    by_cases hbreak : '\n' ∈ text
    · obtain ⟨front, rest, rfl, hfront⟩ := List.eq_append_cons_of_mem hbreak
      refine line front rest hfront (ih rest.length ?_ rest rfl)
      rw [← hn, List.length_append, List.length_cons]
      omega
    · exact last text hbreak

namespace Cursor

open Description

variable {pos : Position} {b x r xs line tail : List Char} {p : Char → Bool} {c y : Char} {n : Nat}

theorem skipWhile_append (pos : Position) (hx : ∀ c ∈ xs, p c) (hr : ∀ c ∈ r.head?, ¬p c) :
    ahead ⟨pos, xs ++ r⟩ p = xs ∧ skipWhile ⟨pos, xs ++ r⟩ p = ⟨pos.after xs, r⟩ := by
  have hahead : ahead ⟨pos, xs ++ r⟩ p = xs := takeWhile_append_stop hx hr
  exact ⟨hahead, by simp [skipWhile, hahead, skip]⟩

/-! ### Words -/

theorem not_blank_break : ¬isBlank '\n' := by decide

theorem inWord_iff : inWord c ↔ ¬isBlank c ∧ c ≠ '\n' := by simp [inWord]

theorem not_inWord_of_blank (h : isBlank c) : ¬inWord c := fun hc => (inWord_iff.mp hc).1 h

theorem not_mem_of_blank (hb : Blank b) : '\n' ∉ b := fun h => not_blank_break (hb _ h)

theorem after_of_blank (pos : Position) (hb : Blank b) :
    pos.after b = ⟨pos.line, pos.column + b.length⟩ :=
  Position.after_of_not_mem (not_mem_of_blank hb)

theorem skipBlanks_append (pos : Position) (hb : Blank b) (hr : ∀ c ∈ r.head?, ¬isBlank c) :
    skipBlanks ⟨pos, b ++ r⟩ = ⟨pos.after b, r⟩ :=
  (skipWhile_append pos hb hr).2

/-- At the end of a line there is no word. -/
theorem nextWord_of_blank (pos : Position) (hb : Blank b) (ht : ∀ c ∈ tail.head?, c = '\n') :
    nextWord ⟨pos, b ++ tail⟩ = (none, ⟨pos.after b, tail⟩) := by
  have hblank : ∀ c ∈ tail.head?, ¬isBlank c := fun c hc => ht c hc ▸ not_blank_break
  have hword : ∀ c ∈ tail.head?, ¬inWord c := fun c hc => by simp [ht c hc, inWord]
  have hahead : ahead ⟨pos.after b, [] ++ tail⟩ inWord = [] :=
    (skipWhile_append _ (by simp) hword).1
  rw [List.nil_append] at hahead
  simp [nextWord, skipBlanks_append pos hb hblank, hahead]

theorem nextWord_of_blank_text (pos : Position) (hb : Blank b) :
    nextWord ⟨pos, b⟩ = (none, ⟨pos.after b, []⟩) := by
  have hnext : nextWord ⟨pos, b ++ []⟩ = (none, ⟨pos.after b, []⟩) :=
    nextWord_of_blank pos hb (by simp)
  rwa [List.append_nil] at hnext

/-- Behind blanks the next word goes on until there is no character of a word. -/
theorem nextWord_of_word (pos : Position) (hb : Blank b) (hne : x ≠ []) (hx : ∀ c ∈ x, inWord c)
    (hr : ∀ c ∈ r.head?, ¬inWord c) : nextWord ⟨pos, b ++ (x ++ r)⟩ =
      (some ⟨(pos.after b).next, x⟩, ⟨pos.after (b ++ x), r⟩) := by
  obtain ⟨y, x, rfl⟩ := List.exists_cons_of_ne_nil hne
  have hblank : ∀ c ∈ (y :: x ++ r).head?, ¬isBlank c := by
    simpa using (inWord_iff.mp (hx y (List.mem_cons_self ..))).1
  obtain ⟨hahead, hskip⟩ := skipWhile_append (pos.after b) hx hr
  simp only [nextWord, skipBlanks_append pos hb hblank, hahead, hskip, Position.after_append]

theorem words_of_blank (pos : Position) (hb : Blank b) : words pos b = [] := by
  induction b generalizing pos with
  | nil => rfl
  | cons c b ih =>
    obtain ⟨hc, hb⟩ := blank_cons.mp hb
    rw [words, ih _ hb, if_pos hc]

theorem words_of_blank_append (pos : Position) (hb : Blank b) :
    words pos (b ++ r) = words (pos.after b) r := by
  induction b generalizing pos with
  | nil => rfl
  | cons c b ih =>
    obtain ⟨hc, hb⟩ := blank_cons.mp hb
    rw [List.cons_append, words, ih _ hb, if_pos hc, Position.after_cons]

/-- A word at the start of a line comes first, and the words behind it are found from its end. -/
theorem words_of_word (pos : Position) (hline : '\n' ∉ x ++ r) (hne : x ≠ [])
    (hx : ∀ c ∈ x, ¬isBlank c) (hr : ∀ c ∈ r.head?, isBlank c) :
    words pos (x ++ r) = ⟨pos.next, x⟩ :: words (pos.after x) r := by
  induction x generalizing pos with
  | nil => exact absurd rfl hne
  | cons c x ih =>
    rw [List.cons_append, List.mem_cons, not_or] at hline
    obtain ⟨hbreak, hline⟩ := hline
    obtain ⟨hc, hx⟩ := List.forall_mem_cons.mp hx
    have hadvance : pos.advance c = pos.next := Position.advance_of_ne (Ne.symm hbreak)
    rw [List.cons_append, words, hadvance, if_neg hc, Position.after_cons, hadvance]
    cases x with
    | nil =>
      -- what follows is blank, so the next word begins further on
      rw [List.nil_append] at hline ⊢
      rw [Position.after_nil]
      obtain ⟨-, hfirst⟩ := words_spec pos.next hline
      cases hwords : words pos.next r with
      | nil => rfl
      | cons w ws =>
        have hgap : w.position ≠ pos.next.next := fun heq => by
          have hhead := (hfirst w (by rw [hwords]; rfl)).mp heq
          cases r with
          | nil => simp [words] at hwords
          | cons d r => exact hhead d rfl (hr d rfl)
        simp only [if_neg hgap]
    | cons d x =>
      rw [ih pos.next hline (List.cons_ne_nil d x) hx]
      simp only [if_true]

theorem not_mem_of_word (h : '\n' ∉ b ++ (x ++ r)) : '\n' ∉ b ++ x ∧ '\n' ∉ r := by
  simp only [List.mem_append, not_or] at h ⊢
  exact ⟨⟨h.1, h.2.1⟩, h.2.2⟩

/-- Behind blanks a word comes first, and the words behind it are found from its end. -/
theorem words_append (pos : Position) (hline : '\n' ∉ b ++ (x ++ r)) (hb : Blank b) (hne : x ≠ [])
    (hx : ∀ c ∈ x, ¬isBlank c) (hr : ∀ c ∈ r.head?, isBlank c) :
    words pos (b ++ (x ++ r)) = ⟨(pos.after b).next, x⟩ :: words (pos.after (b ++ x)) r := by
  have hline' : '\n' ∉ x ++ r := fun h => hline (List.mem_append_right _ h)
  rw [words_of_blank_append pos hb, words_of_word _ hline' hne hx hr, Position.after_append]

/-- A line is blank, or it is a line with a word before it. -/
theorem words_induction {motive : List Char → Prop} (blank : ∀ b, Blank b → motive b)
    (word : ∀ b x r, Blank b → x ≠ [] → (∀ c ∈ x, ¬isBlank c) → (∀ c ∈ r.head?, isBlank c) →
      motive r → motive (b ++ (x ++ r))) (line : List Char) : motive line := by
  induction hn : line.length using Nat.strongRecOn generalizing line with
  | ind n ih =>
    by_cases hblank : Blank line
    · exact blank line hblank
    · obtain ⟨x, r, b, rfl, hb, hne, hx, hr⟩ := exists_wordAt hblank
      have hpos : 0 < x.length := List.length_pos_iff.mpr hne
      refine word b x r hb hne hx hr (ih r.length ?_ r rfl)
      rw [← hn, List.length_append, List.length_append]
      omega

/-! ### Text up to a character -/

theorem nextUntil_of_mem (pos : Position) (hy : y ≠ '\n') (hbreak : '\n' ∉ xs) (hmem : y ∉ xs) :
    nextUntil ⟨pos, xs ++ y :: r⟩ y = (some xs, ⟨pos.after (xs ++ [y]), r⟩) := by
  have hxs : ∀ c ∈ xs, (c != '\n' && c != y) = true := fun c hc => by
    simpa using ⟨fun h => hbreak (h ▸ hc), fun h => hmem (h ▸ hc)⟩
  obtain ⟨hahead, hskip⟩ := skipWhile_append (r := y :: r) pos hxs (by simp)
  simp only [nextUntil, hahead, hskip, peek, List.head?_cons, hy, ne_eq, not_false_eq_true,
    and_self, if_true, Position.after_append]
  rfl

theorem nextUntil_of_not_mem (pos : Position) (hbreak : '\n' ∉ xs) (hmem : y ∉ xs)
    (ht : ∀ c ∈ tail.head?, c = '\n') :
    nextUntil ⟨pos, xs ++ tail⟩ y = (none, ⟨pos.after xs, tail⟩) := by
  have hxs : ∀ c ∈ xs, (c != '\n' && c != y) = true := fun c hc => by
    simpa using ⟨fun h => hbreak (h ▸ hc), fun h => hmem (h ▸ hc)⟩
  have htail : ∀ c ∈ tail.head?, ¬(c != '\n' && c != y) = true := fun c hc => by simp [ht c hc]
  obtain ⟨-, hskip⟩ := skipWhile_append pos hxs htail
  simp only [nextUntil, hskip, peek]
  cases tail with
  | nil => rfl
  | cons c tail =>
    obtain rfl := ht c rfl
    simp

theorem nextUntil_of_not_mem_text (pos : Position) (hbreak : '\n' ∉ xs) (hmem : y ∉ xs) :
    nextUntil ⟨pos, xs⟩ y = (none, ⟨pos.after xs, []⟩) := by
  have hnext : nextUntil ⟨pos, xs ++ []⟩ y = (none, ⟨pos.after xs, []⟩) :=
    nextUntil_of_not_mem pos hbreak hmem (by simp)
  rwa [List.append_nil] at hnext

/-! ### Blank lines -/

theorem blankLines_append (hb : Blank b) : blankLines n (b ++ r) = blankLines (n + b.length) r := by
  induction b generalizing n with
  | nil => rfl
  | cons c b ih =>
    obtain ⟨hc, hb⟩ := blank_cons.mp hb
    have hbreak : c ≠ '\n' := fun h => not_blank_break (h ▸ hc)
    rw [List.cons_append, blankLines, if_neg hbreak, if_pos hc, ih hb, List.length_cons]
    congr 1
    omega

theorem blankLines_of_not_blank (hline : '\n' ∉ line) (h : ¬Blank line) :
    blankLines n (line ++ tail) = 0 := by
  induction line generalizing n with
  | nil => exact absurd blank_nil h
  | cons c line ih =>
    obtain ⟨hbreak, hline⟩ := not_or.mp (List.mem_cons.not.mp hline)
    rw [List.cons_append, blankLines, if_neg (Ne.symm hbreak)]
    split
    · next hc => exact ih hline fun hb => h (blank_cons.mpr ⟨hc, hb⟩)
    · rfl

theorem skipBlankLines_of_not_blank (pos : Position) (hline : '\n' ∉ line) (h : ¬Blank line) :
    skipBlankLines ⟨pos, line ++ tail⟩ = ⟨pos, line ++ tail⟩ := by
  simp [skipBlankLines, blankLines_of_not_blank hline h, skip]

theorem skipBlankLines_of_not_blank_text (pos : Position) (hline : '\n' ∉ line)
    (h : ¬Blank line) : skipBlankLines ⟨pos, line⟩ = ⟨pos, line⟩ := by
  have hstay : skipBlankLines ⟨pos, line ++ []⟩ = ⟨pos, line ++ []⟩ :=
    skipBlankLines_of_not_blank pos hline h
  rwa [List.append_nil] at hstay

theorem skipBlankLines_of_blank (pos : Position) (hb : Blank b) :
    skipBlankLines ⟨pos, b⟩ = ⟨pos.after b, []⟩ := by
  have hlen : blankLines 0 b = b.length := by
    simpa [blankLines] using blankLines_append (n := 0) (r := []) hb
  simp [skipBlankLines, hlen, skip]

theorem skipBlankLines_cons (pos : Position) (hb : Blank b) :
    skipBlankLines ⟨pos, b ++ '\n' :: r⟩ = skipBlankLines ⟨⟨pos.line + 1, 0⟩, r⟩ := by
  have hlen : blankLines 0 (b ++ '\n' :: r) = (b ++ ['\n']).length + blankLines 0 r := by
    rw [blankLines_append hb, blankLines, if_pos rfl]
    simp
  have hpos : pos.after (b ++ ['\n']) = ⟨pos.line + 1, 0⟩ := by
    rw [Position.after_append, after_of_blank pos hb]
    rfl
  have hsplit : b ++ '\n' :: r = (b ++ ['\n']) ++ r := by simp
  simp only [skipBlankLines, skip, hlen]
  rw [hsplit, List.take_length_add_append, List.drop_length_add_append, Position.after_append, hpos]

end Cursor

end Acceptor
