import Acceptor.Description.Format

/-!
# Words of a line

A cursor reads words character by character, the format cuts a line at its blanks. Both go by the
first word of the line and what is left behind it.

## Main results

* `Description.wordsOf_eq_nil`, `Description.wordsOf_eq_cons`: the words of a line, from its front.
* `Cursor.Before.nextWord`: the cursor reads the first word of the line and stays on it.
* `Cursor.Before.lineWords`: the cursor reads the words of the line and goes on to the next.
-/

namespace Acceptor

namespace Description

variable {line line' b x y r r' : List Char} {xs : List (List Char)} {c : Char}

/-! ### The first word of a line -/

/-- After blanks the line has the word `x`, which ends where `r` begins. -/
def WordAt (line x r : List Char) : Prop :=
  ∃ b, line = b ++ (x ++ r) ∧ Blank b ∧ x ≠ [] ∧ (∀ c ∈ x, ¬Cursor.isBlank c) ∧
    ∀ c ∈ r.head?, Cursor.isBlank c

@[simp] theorem blank_nil : Blank [] := by simp [Blank]

@[simp] theorem blank_cons : Blank (c :: line) ↔ Cursor.isBlank c ∧ Blank line := by simp [Blank]

theorem blank_append : Blank (line ++ line') ↔ Blank line ∧ Blank line' := by
  simp only [Blank, List.mem_append, or_imp, forall_and]

theorem dropWhile_append_stop {p : Char → Bool} (hx : ∀ c ∈ x, p c)
    (hr : ∀ c ∈ r.head?, ¬p c) : (x ++ r).dropWhile p = r := by
  rw [List.dropWhile_append_of_pos hx]
  cases r with
  | nil => rfl
  | cons c r => exact List.dropWhile_cons_of_neg (hr c rfl)

theorem takeWhile_append_stop {p : Char → Bool} (hx : ∀ c ∈ x, p c)
    (hr : ∀ c ∈ r.head?, ¬p c) : (x ++ r).takeWhile p = x := by
  rw [List.takeWhile_append_of_pos hx]
  cases r with
  | nil => simp
  | cons c r => rw [List.takeWhile_cons_of_neg (hr c rfl), List.append_nil]

/-- A text is cut at the first occurrence of a character in one way. -/
theorem append_cons_unique {a : Char} (hx : a ∉ x) (hy : a ∉ y) (h : x ++ a :: r = y ++ a :: r') :
    x = y ∧ r = r' := by
  have htake (z s : List Char) (hz : a ∉ z) : (z ++ a :: s).takeWhile (· != a) = z := by
    refine takeWhile_append_stop (fun c hc => ?_) (by simp)
    simpa using fun heq : c = a => hz (heq ▸ hc)
  obtain rfl : x = y := by rw [← htake x r hx, h, htake y r' hy]
  exact ⟨rfl, (List.cons.inj (List.append_cancel_left h)).2⟩

/-- Where dropping stops, there is a character that is not dropped. -/
theorem head?_dropWhile (p : Char → Bool) (line : List Char) :
    ∀ c ∈ (line.dropWhile p).head?, ¬p c := by
  intro c hc
  have h := List.head?_dropWhile_not p line
  rw [Option.mem_def.mp hc] at h
  simpa using h

theorem WordAt.dropWhile (h : WordAt line x r) : line.dropWhile Cursor.isBlank = x ++ r := by
  obtain ⟨b, rfl, hb, hne, hx, -⟩ := h
  obtain ⟨c, x, rfl⟩ := List.exists_cons_of_ne_nil hne
  exact dropWhile_append_stop hb (by simpa using hx c (List.mem_cons_self ..))

theorem WordAt.takeWhile (h : WordAt line x r) :
    (line.dropWhile Cursor.isBlank).takeWhile (fun c => !Cursor.isBlank c) = x := by
  rw [h.dropWhile]
  obtain ⟨-, -, -, -, hx, hr⟩ := h
  exact takeWhile_append_stop (by simpa using hx) (by simpa using hr)

/-- A line has one first word. -/
theorem WordAt.unique (h : WordAt line x r) (h' : WordAt line y r') : x = y ∧ r = r' := by
  obtain rfl : x = y := h.takeWhile.symm.trans h'.takeWhile
  exact ⟨rfl, List.append_cancel_left (h.dropWhile.symm.trans h'.dropWhile)⟩

/-- The first word of a line is what stands between the blanks at its start and the next one. -/
theorem wordAt_of_ne_nil
    (h : (line.dropWhile Cursor.isBlank).takeWhile (fun c => !Cursor.isBlank c) ≠ []) :
    WordAt line ((line.dropWhile Cursor.isBlank).takeWhile fun c => !Cursor.isBlank c)
      ((line.dropWhile Cursor.isBlank).dropWhile fun c => !Cursor.isBlank c) := by
  refine ⟨line.takeWhile Cursor.isBlank, ?_, ?_, h, ?_, ?_⟩
  · rw [List.takeWhile_append_dropWhile, List.takeWhile_append_dropWhile]
  · exact List.all_eq_true.mp List.all_takeWhile
  · simpa using List.all_eq_true.mp
      (List.all_takeWhile (p := fun c => !Cursor.isBlank c) (l := line.dropWhile Cursor.isBlank))
  · simpa using head?_dropWhile (fun c => !Cursor.isBlank c) (line.dropWhile Cursor.isBlank)

theorem blank_iff_dropWhile : Blank line ↔ line.dropWhile Cursor.isBlank = [] := by
  constructor
  · intro h
    simpa using dropWhile_append_stop (r := []) h (by simp)
  · intro h
    have hsplit := List.takeWhile_append_dropWhile (p := Cursor.isBlank) (l := line)
    rw [h, List.append_nil] at hsplit
    rw [← hsplit]
    exact List.all_eq_true.mp List.all_takeWhile

theorem exists_wordAt (h : ¬Blank line) : ∃ x r, WordAt line x r := by
  refine ⟨_, _, wordAt_of_ne_nil fun hnil => h (blank_iff_dropWhile.mpr ?_)⟩
  cases hline : line.dropWhile Cursor.isBlank with
  | nil => rfl
  | cons c cs =>
    have hc := head?_dropWhile Cursor.isBlank line c (by rw [hline]; rfl)
    simp [hline, hc] at hnil

theorem WordAt.not_blank (h : WordAt line x r) : ¬Blank line := by
  rw [blank_iff_dropWhile, h.dropWhile]
  obtain ⟨-, -, -, hne, -⟩ := h
  simp [hne]

/-! ### The words of a line -/

theorem wordsOf_append_blank (line r : List Char) (hc : Cursor.isBlank c) :
    wordsOf (line ++ c :: r) = wordsOf line ++ wordsOf r := by
  rw [wordsOf, List.splitOnP_append_cons _ _ hc, List.filter_append]
  rfl

@[simp] theorem wordsOf_nil : wordsOf [] = [] := by simp [wordsOf]

theorem wordsOf_cons_blank (hc : Cursor.isBlank c) : wordsOf (c :: r) = wordsOf r := by
  simpa using wordsOf_append_blank [] r hc

theorem wordsOf_blank_append (hb : Blank b) : wordsOf (b ++ r) = wordsOf r := by
  induction b with
  | nil => rfl
  | cons c b ih =>
    obtain ⟨hc, hb⟩ := blank_cons.mp hb
    rw [List.cons_append, wordsOf_cons_blank hc, ih hb]

theorem WordAt.wordsOf_eq (h : WordAt line x r) : wordsOf line = x :: wordsOf r := by
  obtain ⟨b, rfl, hb, hne, hx, hr⟩ := h
  have hword : wordsOf x = [x] := by
    rw [wordsOf, List.splitOnP_eq_singleton (by simpa using hx)]
    simp [hne]
  rw [wordsOf_blank_append hb]
  cases r with
  | nil => simp [hword]
  | cons c r =>
    have hc := hr c rfl
    rw [wordsOf_append_blank x r hc, wordsOf_cons_blank hc, hword, List.singleton_append]

theorem wordsOf_eq_nil : wordsOf line = [] ↔ Blank line := by
  constructor
  · intro h
    by_contra hblank
    obtain ⟨x, r, hword⟩ := exists_wordAt hblank
    rw [hword.wordsOf_eq] at h
    exact List.cons_ne_nil _ _ h
  · intro h
    simpa using wordsOf_blank_append (r := []) h

theorem wordsOf_eq_cons : wordsOf line = x :: xs ↔ ∃ r, WordAt line x r ∧ wordsOf r = xs := by
  constructor
  · intro h
    have hblank : ¬Blank line := fun hb => by simp [wordsOf_eq_nil.mpr hb] at h
    obtain ⟨y, r, hword⟩ := exists_wordAt hblank
    rw [hword.wordsOf_eq] at h
    obtain ⟨rfl, rfl⟩ := List.cons.inj h
    exact ⟨r, hword, rfl⟩
  · rintro ⟨r, hword, rfl⟩
    exact hword.wordsOf_eq

theorem wordsOf_singleton : wordsOf line = [x] ↔ ∃ r, WordAt line x r ∧ Blank r := by
  simp only [wordsOf_eq_cons, wordsOf_eq_nil]

/-- A character that is no blank begins a word, or joins the one right behind it. -/
theorem wordsOf_cons_of_not_blank (line : List Char) (hc : ¬Cursor.isBlank c) :
    ((∀ d ∈ line.head?, Cursor.isBlank d) → wordsOf (c :: line) = [c] :: wordsOf line) ∧
    ∀ x xs, (∀ d ∈ line.head?, ¬Cursor.isBlank d) → wordsOf line = x :: xs →
      wordsOf (c :: line) = (c :: x) :: xs := by
  constructor
  · intro hline
    exact WordAt.wordsOf_eq ⟨[], rfl, blank_nil, List.cons_ne_nil _ _, by simpa using hc, hline⟩
  · intro x xs hline hxs
    obtain ⟨r, ⟨b, rfl, hb, hne, hx, hr⟩, rfl⟩ := wordsOf_eq_cons.mp hxs
    obtain rfl : b = [] := by
      cases b with
      | nil => rfl
      | cons d b => exact absurd (blank_cons.mp hb).1 (hline d rfl)
    exact WordAt.wordsOf_eq ⟨[], rfl, blank_nil, List.cons_ne_nil _ _, by simpa [hc] using hx, hr⟩

end Description

theorem Word.letters_eq {w : Word} {s : String} : w.letters = s.toList ↔ w.text = s := by
  rw [Word.text, ← String.toList_inj, String.toList_ofList]

namespace Cursor

open Description

variable {c d : Cursor} {line tail xs : List Char} {p : Char → Bool} {x : Char} {pos : Position}

/-! ### A cursor on a line -/

/-- The cursor stands before `line`, which is what is left of its line, and `tail` follows. -/
structure Before (c : Cursor) (line tail : List Char) : Prop where
  /-- The text that is left. -/
  rest_eq : c.rest = line ++ tail
  /-- The line has no line break. -/
  no_break : '\n' ∉ line
  /-- The line ends at a line break or at the end of the text. -/
  tail_break : ∀ x ∈ tail.head?, x = '\n'

theorem exists_before (c : Cursor) : ∃ line tail, c.Before line tail := by
  refine ⟨c.rest.takeWhile (· != '\n'), c.rest.dropWhile (· != '\n'), ?_, fun h => ?_, ?_⟩
  · exact List.takeWhile_append_dropWhile.symm
  · simpa using List.all_eq_true.mp (List.all_takeWhile (p := (· != '\n')) (l := c.rest)) _ h
  · simpa using head?_dropWhile (· != '\n') c.rest

theorem skipWhile_rest (c : Cursor) (p : Char → Bool) :
    (c.skipWhile p).rest = c.rest.dropWhile p := by
  have h := (c.skipWhile_moves p).1
  rw [ahead] at h
  exact List.append_cancel_left (h.symm.trans List.takeWhile_append_dropWhile.symm)

/-- What lies ahead of a cursor ends with its line, if it holds no line break. -/
theorem Before.skipWhile (h : c.Before line tail) (hp : ¬p '\n') :
    c.ahead p = line.takeWhile p ∧ (c.skipWhile p).Before (line.dropWhile p) tail := by
  have htail : ∀ x ∈ tail.head?, ¬p x := fun x hx => h.tail_break x hx ▸ hp
  have hhead : ∀ x ∈ (line.dropWhile p ++ tail).head?, ¬p x := by
    cases hd : line.dropWhile p with
    | nil => exact htail
    | cons y ys =>
      have hy := head?_dropWhile p line y (by rw [hd]; rfl)
      simpa using hy
  have htake : ∀ x ∈ line.takeWhile p, p x := List.all_eq_true.mp List.all_takeWhile
  have hsplit : c.rest = line.takeWhile p ++ (line.dropWhile p ++ tail) := by
    rw [h.rest_eq, ← List.append_assoc, List.takeWhile_append_dropWhile]
  refine ⟨?_, ?_, fun hmem => h.no_break ((List.dropWhile_sublist p).subset hmem), h.tail_break⟩
  · rw [ahead, hsplit, takeWhile_append_stop htake hhead]
  · rw [skipWhile_rest, hsplit, dropWhile_append_stop htake hhead]

theorem Before.next (h : c.Before (x :: line) tail) : c.next.Before line tail := by
  refine ⟨?_, fun hmem => h.no_break (List.mem_cons_of_mem x hmem), h.tail_break⟩
  simp [Cursor.next, skip, h.rest_eq]

/-- Behind the end of its line a cursor is at the next one. -/
theorem Before.next_rest (h : c.Before [] tail) : c.next.rest = tail.drop 1 := by
  simp [Cursor.next, skip, h.rest_eq]

/-! ### Reading words -/

theorem takeWhile_inWord (h : '\n' ∉ line) :
    line.takeWhile inWord = line.takeWhile (fun x => !isBlank x) ∧
      line.dropWhile inWord = line.dropWhile fun x => !isBlank x := by
  induction line with
  | nil => exact ⟨rfl, rfl⟩
  | cons x line ih =>
    obtain ⟨hx, hline⟩ := not_or.mp (List.mem_cons.not.mp h)
    have heq : inWord x = !isBlank x := by simp [inWord, Ne.symm hx]
    simp only [List.takeWhile_cons, List.dropWhile_cons, heq, ih hline, and_self]

/-- **The next word.** A cursor reads the first word of its line and stands behind it then. On a
blank line it reads nothing and comes to the end of the line. -/
theorem Before.nextWord (h : c.Before line tail) :
    (Blank line ∧ ∃ d, c.nextWord = (none, d) ∧ d.Before [] tail) ∨
      ∃ w r d, c.nextWord = (some w, d) ∧ WordAt line w.letters r ∧ d.Before r tail := by
  obtain ⟨-, hskip⟩ := h.skipWhile (p := isBlank) (by decide)
  obtain ⟨hahead, hnext⟩ := hskip.skipWhile (p := inWord) (by decide)
  obtain ⟨htake, hdrop⟩ := takeWhile_inWord hskip.no_break
  rw [htake] at hahead
  rw [hdrop] at hnext
  rw [Cursor.nextWord, skipBlanks]
  cases hxs : (c.skipWhile isBlank).ahead inWord with
  | nil =>
    have hblank : Blank line := by
      by_contra hblank
      obtain ⟨x, r, hword⟩ := exists_wordAt hblank
      rw [hxs, hword.takeWhile] at hahead
      obtain ⟨-, -, -, hne, -⟩ := hword
      exact hne hahead.symm
    rw [blank_iff_dropWhile.mp hblank] at hskip
    exact .inl ⟨hblank, _, rfl, hskip⟩
  | cons x xs =>
    rw [hxs] at hahead
    have hword := wordAt_of_ne_nil (hahead ▸ List.cons_ne_nil x xs)
    rw [← hahead] at hword
    exact .inr ⟨_, _, _, rfl, hword, hnext⟩

/-! ### Reading lines -/

theorem column_lt_of_mem_words (hline : '\n' ∉ line) {w : Word} (hw : w ∈ words pos line) :
    pos.column < w.position.column := by
  induction line generalizing pos w with
  | nil => cases hw
  | cons x line ih =>
    obtain ⟨hx, hline⟩ := not_or.mp (List.mem_cons.not.mp hline)
    have hadvance : pos.advance x = pos.next := Position.advance_of_ne (Ne.symm hx)
    have hrest {w : Word} (hw : w ∈ words pos.next line) : pos.column < w.position.column :=
      Nat.lt_trans (Nat.lt_succ_self _) (ih hline hw)
    have hhere : pos.column < pos.next.column := Nat.lt_succ_self _
    rw [words, hadvance] at hw
    split at hw
    · exact hrest hw
    · split at hw
      · obtain rfl := List.mem_singleton.mp hw
        exact hhere
      · next v vs hv =>
        split at hw
        · rcases List.mem_cons.mp hw with rfl | hw
          · exact hhere
          · exact hrest (hv ▸ List.mem_cons_of_mem v hw)
        · rcases List.mem_cons.mp hw with rfl | hw
          · exact hhere
          · exact hrest (hv ▸ hw)

/-- The words that are read from the end of the line on are those between the blanks. A word begins
right behind a position exactly if the line does. -/
theorem words_spec (pos : Position) (hline : '\n' ∉ line) :
    (words pos line).map Word.letters = wordsOf line ∧
      ∀ w ∈ (words pos line).head?,
        (w.position = pos.next ↔ ∀ x ∈ line.head?, ¬isBlank x) := by
  induction line generalizing pos with
  | nil => simp [words]
  | cons x line ih =>
    obtain ⟨hx, hline'⟩ := not_or.mp (List.mem_cons.not.mp hline)
    have hadvance : pos.advance x = pos.next := Position.advance_of_ne (Ne.symm hx)
    obtain ⟨hletters, hfirst⟩ := ih pos.next hline'
    rw [words, hadvance]
    by_cases hblank : isBlank x
    · rw [if_pos hblank, wordsOf_cons_blank hblank]
      refine ⟨hletters, fun w hw => iff_of_false (fun heq => ?_) (by simp [hblank])⟩
      have hlt := column_lt_of_mem_words hline' (List.mem_of_mem_head? hw)
      rw [heq] at hlt
      exact Nat.lt_irrefl _ hlt
    · obtain ⟨halone, hjoined⟩ := wordsOf_cons_of_not_blank line hblank
      have hhead : ∀ y ∈ (x :: line).head?, ¬isBlank y := by simpa using hblank
      rw [if_neg hblank]
      cases hwords : words pos.next line with
      | nil =>
        have hnil : Blank line := wordsOf_eq_nil.mp (by rw [← hletters, hwords]; rfl)
        rw [halone fun y hy => hnil y (List.mem_of_mem_head? hy), wordsOf_eq_nil.mpr hnil]
        exact ⟨rfl, by simpa using hblank⟩
      | cons v vs =>
        rw [hwords, List.map_cons] at hletters
        have hv := hfirst v (by rw [hwords]; rfl)
        by_cases hpos : v.position = pos.next.next
        · simp only [if_pos hpos]
          rw [hjoined _ _ (hv.mp hpos) hletters.symm]
          exact ⟨rfl, by simpa using hblank⟩
        · simp only [if_neg hpos]
          have hgap : ∀ y ∈ line.head?, isBlank y := by
            intro y hy
            by_contra hne
            refine hpos (hv.mpr fun z hz => ?_)
            obtain rfl := Option.mem_unique hy hz
            exact hne
          rw [halone hgap, ← hletters]
          exact ⟨rfl, by simpa using hblank⟩

/-- **The words of a line.** -/
theorem Before.lineWords (h : c.Before line tail) :
    c.lineWords.1.map Word.letters = wordsOf line ∧ c.lineWords.2.rest = tail.drop 1 := by
  obtain ⟨hahead, hskip⟩ := h.skipWhile (p := (· != '\n')) (by decide)
  have hall : ∀ x ∈ line, (x != '\n') = true := by
    intro x hx
    have hne : x ≠ '\n' := fun heq => h.no_break (heq ▸ hx)
    simpa using hne
  have htake := takeWhile_append_stop (r := []) hall (by simp)
  have hdrop := dropWhile_append_stop (r := []) hall (by simp)
  rw [List.append_nil] at htake hdrop
  rw [htake] at hahead
  rw [hdrop] at hskip
  refine ⟨?_, hskip.next_rest⟩
  rw [Cursor.lineWords, hahead]
  exact (words_spec _ h.no_break).1

end Cursor

end Acceptor
