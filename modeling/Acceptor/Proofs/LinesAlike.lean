import Acceptor.Description.LineByLine
import Acceptor.Outcome
import Acceptor.Proofs.CursorSteps
import Mathlib.Data.List.Forall2

/-!
# Lines that are read alike

Two lines are read alike if they are the same but for their numbers and for blanks at the end. A
reader on the one and the same reader on the other find the same, and their cursors stay side by
side. An error has the same cause on both and the same column, unless it is about the end of the
line, which the blanks at the end move. What follows the line break is not looked at.

## Main definitions

* `Description.Beside`: what a line and the text that is read beside it have in common.
* `Cursor.OnLine`, `Cursor.beside`: a cursor on a line, and the one beside it.

## Main results

* `Cursor.OnLine.nextWord`: two cursors side by side read the same word.
* `Description.Beside.readHeader`: header lines are read alike.
* `Description.Beside.step`: so are all lines.
* `Description.alike_readRows`: descriptions whose lines are alike.
-/

namespace Acceptor

/-! ### Side by side -/

namespace Position

/-- The position in the same column of another line. -/
def onLine (p : Position) (n : Nat) : Position := ⟨n, p.column⟩

theorem after_onLine {p : Position} {xs : List Char} (n : Nat) (h : '\n' ∉ xs) :
    (p.onLine n).after xs = (p.after xs).onLine n := by
  rw [after_of_not_mem h, after_of_not_mem h]
  rfl

end Position

namespace Word

/-- The word in the same column of another line. -/
def onLine (w : Word) (n : Nat) : Word := ⟨w.position.onLine n, w.letters⟩

@[simp] theorem letters_onLine (w : Word) (n : Nat) : (w.onLine n).letters = w.letters := rfl

@[simp] theorem text_onLine (w : Word) (n : Nat) : (w.onLine n).text = w.text := rfl

end Word

namespace Description

/-- Two errors have the same cause, and `P` relates their positions if they have one. -/
def Error.Related (P : Position → Position → Prop) (e e' : Error) : Prop :=
  e'.cause = e.cause ∧ Option.Rel P e.position e'.position

theorem related_located {P : Position → Position → Prop} {p p' : Position} (cause : Cause)
    (h : P p p') : Error.Related P (.located p cause) (.located p' cause) :=
  ⟨rfl, .some h⟩

/-- A line, and beside it a text that starts with the same characters, blanks `b` behind them and
then the end of the line. `P` relates the positions on the line to those on line `n`, and that of
the end of the line to that of the end behind the blanks. -/
structure Beside (P : Position → Position → Prop) (row : Row) (n : Nat) (b tail : List Char) :
    Prop where
  /-- The line is one line. -/
  no_break : '\n' ∉ row.letters
  /-- What follows it is blank. -/
  blank : Blank b
  /-- Then the line ends. -/
  tail_break : ∀ x ∈ tail.head?, x = '\n'
  /-- Positions are related by their columns. -/
  column : ∀ i, P ⟨row.number, i⟩ ⟨n, i⟩
  /-- The ends of the line are related. -/
  stop : P row.stop.next ⟨n, row.letters.length + b.length + 1⟩

end Description

namespace Cursor

open Description

variable {P : Position → Position → Prop} {row : Row} {n : Nat} {b tail xs r : List Char}
  {c d : Cursor}

/-- The cursor stands on a line that nothing follows. -/
def OnLine (c : Cursor) (row : Row) : Prop :=
  ∃ seen, row.letters = seen ++ c.rest ∧ c.position = ⟨row.number, seen.length⟩

/-- The cursor at the same place of line `n`, where `more` follows. -/
def beside (c : Cursor) (n : Nat) (more : List Char) : Cursor :=
  ⟨c.position.onLine n, c.rest ++ more⟩

theorem onLine_start (row : Row) : row.start.OnLine row := ⟨[], rfl, rfl⟩

/-- A line that is not blank is not skipped. -/
theorem skipBlankLines_start (hrow : '\n' ∉ row.letters) (hblank : ¬Blank row.letters) :
    row.start.skipBlankLines = row.start :=
  skipBlankLines_of_not_blank_text ⟨row.number, 0⟩ hrow hblank

theorem OnLine.no_break (hc : c.OnLine row) (hrow : '\n' ∉ row.letters) : '\n' ∉ c.rest := by
  obtain ⟨seen, hseen, -⟩ := hc
  exact fun h => hrow (hseen ▸ List.mem_append_right _ h)

theorem OnLine.forward (hc : c.OnLine row) (hrow : '\n' ∉ row.letters) (h : c.rest = xs ++ r) :
    OnLine ⟨c.position.after xs, r⟩ row := by
  have hxs : '\n' ∉ xs := fun hmem => hc.no_break hrow (h ▸ List.mem_append_left _ hmem)
  obtain ⟨seen, hseen, hpos⟩ := hc
  refine ⟨seen ++ xs, by rw [hseen, h, List.append_assoc], ?_⟩
  simp [hpos, Position.after_of_not_mem hxs]

/-- At its end the cursor has gone through the whole line. -/
theorem OnLine.after_rest (hc : c.OnLine row) (hrow : '\n' ∉ row.letters) :
    c.position.after c.rest = row.stop := by
  rw [Position.after_of_not_mem (hc.no_break hrow)]
  obtain ⟨seen, hseen, hpos⟩ := hc
  simp [hpos, Row.stop, hseen]

theorem OnLine.onLine_number (hc : c.OnLine row) : c.position.onLine row.number = c.position := by
  obtain ⟨seen, -, hpos⟩ := hc
  rw [hpos]
  rfl

/-- The word that stands at the front of what is left of a line is read, and so is the word at the
same place of a line beside it. -/
theorem OnLine.nextWord_of_wordAt {x : List Char} (hc : c.OnLine row) (hrow : '\n' ∉ row.letters)
    (h : WordAt c.rest x r) : ∃ b, c.rest = b ++ (x ++ r) ∧ Blank b ∧
      c.nextWord = (some ⟨(c.position.after b).next, x⟩, ⟨c.position.after (b ++ x), r⟩) ∧
      ∀ n more, (∀ y ∈ more.head?, ¬inWord y) →
        (c.beside n more).nextWord = (some ⟨((c.position.after b).next).onLine n, x⟩,
          (⟨c.position.after (b ++ x), r⟩ : Cursor).beside n more) := by
  obtain ⟨b, hrest, hb, hne, hx, hr⟩ := h
  obtain ⟨hbx, -⟩ := not_mem_of_word (hrest ▸ hc.no_break hrow)
  have hword : ∀ y ∈ x, inWord y := fun y hy =>
    inWord_iff.mpr ⟨hx y hy, fun h => hbx (h ▸ List.mem_append_right _ hy)⟩
  refine ⟨b, hrest, hb, ?_, fun n more hmore => ?_⟩
  · have hstop : ∀ y ∈ r.head?, ¬inWord y := fun y hy => not_inWord_of_blank (hr y hy)
    have hnext := nextWord_of_word c.position hb hne hword hstop
    rwa [← hrest] at hnext
  · have hstop : ∀ y ∈ (r ++ more).head?, ¬inWord y := by
      cases r with
      | nil => exact hmore
      | cons y r => exact fun z hz => not_inWord_of_blank (hr z hz)
    rw [beside, hrest, List.append_assoc, List.append_assoc,
      nextWord_of_word _ hb hne hword hstop, Position.after_onLine n (not_mem_of_blank hb),
      Position.after_onLine n hbx]
    rfl

/-- **The next word of two lines.** Either both lines have no more word, and both cursors come to
the end, or the same word is next on both. -/
theorem OnLine.nextWord (hc : c.OnLine row) (h : Beside P row n b tail) :
    (Blank c.rest ∧ c.nextWord = (none, ⟨row.stop, []⟩) ∧ (c.beside n (b ++ tail)).nextWord =
      (none, ⟨⟨n, row.letters.length + b.length⟩, tail⟩)) ∨
    ∃ w d, c.nextWord = (some w, d) ∧ WordAt c.rest w.letters d.rest ∧ d.OnLine row ∧
      w.position.line = row.number ∧
      (c.beside n (b ++ tail)).nextWord = (some (w.onLine n), d.beside n (b ++ tail)) := by
  by_cases hblank : Blank c.rest
  · have hafter := hc.after_rest h.no_break
    refine .inl ⟨hblank, ?_, ?_⟩
    · have hnext := nextWord_of_blank_text c.position hblank
      rwa [hafter] at hnext
    · rw [beside, ← List.append_assoc,
        nextWord_of_blank _ (blank_append.mpr ⟨hblank, h.blank⟩) h.tail_break,
        Position.after_append, Position.after_onLine n (hc.no_break h.no_break), hafter,
        after_of_blank _ h.blank]
      rfl
  · obtain ⟨x, r, hword⟩ := exists_wordAt hblank
    obtain ⟨b', hrest, hb', hself, hnext⟩ := hc.nextWord_of_wordAt h.no_break hword
    have hmore : ∀ y ∈ (b ++ tail).head?, ¬inWord y := by
      cases b with
      | nil => exact fun y hy => by simp [h.tail_break y hy, inWord]
      | cons y b => exact fun z hz => not_inWord_of_blank (h.blank z (List.mem_of_mem_head? hz))
    have hd : OnLine ⟨c.position.after (b' ++ x), r⟩ row :=
      hc.forward h.no_break (by rw [hrest, List.append_assoc])
    have hline : (c.position.after b').next.line = row.number := by
      rw [after_of_blank _ hb', ← hc.onLine_number]
      rfl
    exact .inr ⟨_, _, hself, hword, hd, hline, hnext n _ hmore⟩

end Cursor

namespace Description

variable {α β : Type} {P : Position → Position → Prop} {row : Row} {n : Nat} {b tail : List Char}
  {c d : Cursor} {f : Field} {w : Word} {p p' : Position} {is inside : List Nat}

/-! ### Readers of words -/

/-- A reader that gives a meaning to the next word, and complains of `cause` if there is none. -/
structure ReadsWord (read : Cursor → Except Error (α × Cursor)) (cause : Cause)
    (meaning : Word → Except Error α) : Prop where
  /-- No word is left on the line. -/
  none {c d : Cursor} : c.nextWord = (none, d) → read c = .error (.located d.position.next cause)
  /-- There is a word. -/
  some {c d : Cursor} {w : Word} : c.nextWord = (some w, d) → read c = (meaning w).map (·, d)

/-- The kind that a word names. -/
def kindOf (w : Word) : Except Error Kind :=
  match Kind.ofText w.text with
  | .ok k => .ok k
  | .error _ => .error (.located w.position (.unknownKind w.text))

/-- The number that a word stands for. -/
def countOf (w : Word) : Except Error Nat :=
  match Text.numeral? w.letters with
  | some n => .ok n
  | none => .error (.located w.position (.invalidNumber w.text))

theorem readsWord_readWord : ReadsWord (readWord f) (.missingField f) .ok where
  none h := by simp [readWord, h]
  some h := by simp [readWord, h, Except.map]

theorem readsWord_readKind : ReadsWord readKind .missingHeader kindOf where
  none h := by simp [readKind, h]
  some {c d w} h := by
    simp only [readKind, h, kindOf]
    cases Kind.ofText w.text <;> rfl

theorem readsWord_readCount : ReadsWord (readCount f) (.missingField f) countOf where
  none h := by simp [readCount, readWord, h, bind, Except.bind]
  some {c d w} h := by
    simp only [readCount, readWord, h, countOf, bind, Except.bind]
    cases Text.numeral? w.letters <;> rfl

theorem Beside.position (h : Beside P row n b tail) (hp : p.line = row.number) :
    P p (p.onLine n) := by
  rw [show p = ⟨row.number, p.column⟩ from hp ▸ rfl]
  exact h.column p.column

theorem Beside.located (h : Beside P row n b tail) (hp : p.line = row.number) (cause : Cause) :
    Error.Related P (.located p cause) (.located (p.onLine n) cause) :=
  related_located cause (h.position hp)

theorem Beside.related_stop (h : Beside P row n b tail) (cause : Cause) :
    Error.Related P (.located row.stop.next cause)
      (.located (Position.next ⟨n, row.letters.length + b.length⟩) cause) :=
  related_located cause h.stop

/-- What a reader of a word finds beside a line is what it finds on it, up to `move`. -/
theorem Beside.readsWord (h : Beside P row n b tail) {read : Cursor → Except Error (α × Cursor)}
    {cause : Cause} {meaning : Word → Except Error α} (move : α → α)
    (hread : ReadsWord read cause meaning)
    (hmeaning : ∀ w : Word, w.position.line = row.number →
      Alike (fun a a' => a' = move a) (Error.Related P) (meaning w) (meaning (w.onLine n)))
    (hc : c.OnLine row) :
    Alike (fun x y => x.2.OnLine row ∧ y = (move x.1, x.2.beside n (b ++ tail)))
      (Error.Related P) (read c) (read (c.beside n (b ++ tail))) := by
  rcases hc.nextWord h with ⟨-, hnone, hnone'⟩ | ⟨w, d, hsome, -, hd, hw, hsome'⟩
  · rw [hread.none hnone, hread.none hnone']
    exact .error (h.related_stop cause)
  · rw [hread.some hsome, hread.some hsome']
    refine (hmeaning w hw).map ?_
    rintro a _ rfl
    exact ⟨hd, rfl⟩

theorem Beside.readKind (h : Beside P row n b tail) (hc : c.OnLine row) :
    Alike (fun x y => x.2.OnLine row ∧ y = (x.1, x.2.beside n (b ++ tail)))
      (Error.Related P) (readKind c) (readKind (c.beside n (b ++ tail))) := by
  refine h.readsWord id readsWord_readKind (fun w hw => ?_) hc
  rw [kindOf, kindOf, Word.text_onLine]
  cases Kind.ofText w.text with
  | ok k => exact .ok rfl
  | error _ => exact .error (h.located hw _)

theorem Beside.readCount (h : Beside P row n b tail) (hc : c.OnLine row) :
    Alike (fun x y => x.2.OnLine row ∧ y = (x.1, x.2.beside n (b ++ tail)))
      (Error.Related P) (readCount f c) (readCount f (c.beside n (b ++ tail))) := by
  refine h.readsWord id readsWord_readCount (fun w hw => ?_) hc
  rw [countOf, countOf, Word.letters_onLine]
  cases Text.numeral? w.letters with
  | some k => exact .ok rfl
  | none => exact .error (h.located hw _)

theorem Beside.readWord (h : Beside P row n b tail) (hc : c.OnLine row) :
    Alike (fun x y => x.2.OnLine row ∧ y = (x.1.onLine n, x.2.beside n (b ++ tail)))
      (Error.Related P) (readWord f c) (readWord f (c.beside n (b ++ tail))) :=
  h.readsWord (·.onLine n) readsWord_readWord (fun _ _ => .ok rfl) hc

/-- Behind the line the cursor goes on where the line ends. -/
theorem Beside.readLineEnd (h : Beside P row n b tail) (hc : c.OnLine row) :
    Alike (fun _ d => d = Cursor.next ⟨⟨n, row.letters.length + b.length⟩, tail⟩)
      (Error.Related P) (readLineEnd c) (readLineEnd (c.beside n (b ++ tail))) := by
  rw [Description.readLineEnd, Description.readLineEnd]
  rcases hc.nextWord h with ⟨-, hnone, hnone'⟩ | ⟨w, d, hsome, -, hd, hw, hsome'⟩
  · rw [hnone, hnone']
    exact .ok rfl
  · rw [hsome, hsome']
    exact .error (h.located hw _)

/-! ### Lists -/

theorem readOpening_of_blank (pos : Position) (hb : Blank b)
    (ht : ∀ x ∈ tail.head?, x = '\n') : readOpening f ⟨pos, b ++ tail⟩ =
      .error (.located (pos.after b).next (.missingField f)) := by
  have hblank : ∀ x ∈ tail.head?, ¬Cursor.isBlank x := fun x hx =>
    ht x hx ▸ Cursor.not_blank_break
  simp only [readOpening, Cursor.skipBlanks_append pos hb hblank, Cursor.peek]
  cases tail with
  | nil => rfl
  | cons x tail =>
    obtain rfl := ht x rfl
    rfl

theorem readOpening_of_blank_text (pos : Position) (hb : Blank b) :
    readOpening f ⟨pos, b⟩ = .error (.located (pos.after b).next (.missingField f)) := by
  have hopen : readOpening f ⟨pos, b ++ []⟩ =
      .error (.located (pos.after b).next (.missingField f)) :=
    readOpening_of_blank pos hb (by simp)
  rwa [List.append_nil] at hopen

theorem readOpening_of_cons (pos : Position) {y : Char} {r : List Char} (hb : Blank b)
    (hy : ¬Cursor.isBlank y) (hbreak : y ≠ '\n') : readOpening f ⟨pos, b ++ y :: r⟩ =
      if y = '(' then .ok ((pos.after b).next, ⟨pos.after (b ++ [y]), r⟩)
      else .error (.located (pos.after b).next (.malformedList .opening)) := by
  have hblank : ∀ x ∈ (y :: r).head?, ¬Cursor.isBlank x := by simpa using hy
  have hnext : (pos.after b).advance y = (pos.after b).next := Position.advance_of_ne hbreak
  simp only [readOpening, Cursor.skipBlanks_append pos hb hblank, Cursor.peek, List.head?_cons,
    hbreak, if_false, Position.after_append, Position.after_cons, Position.after_nil, hnext]
  simp [Cursor.next, Cursor.skip, hnext]

/-- What is left of a line is blank or goes on, behind blanks, with a character that is none. -/
theorem blank_or_exists_cons (line : List Char) :
    Blank line ∨ ∃ b y r, line = b ++ y :: r ∧ Blank b ∧ ¬Cursor.isBlank y := by
  by_cases hblank : Blank line
  · exact .inl hblank
  · obtain ⟨x, r, b, rfl, hb, hne, hx, -⟩ := exists_wordAt hblank
    obtain ⟨y, x, rfl⟩ := List.exists_cons_of_ne_nil hne
    exact .inr ⟨b, y, x ++ r, rfl, hb, hx y (List.mem_cons_self ..)⟩

theorem Beside.readOpening (h : Beside P row n b tail) (hc : c.OnLine row) :
    Alike (fun x y => x.2.OnLine row ∧ x.1.line = row.number ∧
        y = (x.1.onLine n, x.2.beside n (b ++ tail)))
      (Error.Related P) (readOpening f c) (readOpening f (c.beside n (b ++ tail))) := by
  have hbreak := hc.no_break h.no_break
  obtain ⟨pos, rest⟩ := c
  rw [Cursor.beside]
  rcases blank_or_exists_cons rest with hb | ⟨b', y, r, rfl, hb', hy⟩
  · rw [readOpening_of_blank_text pos hb, hc.after_rest h.no_break, ← List.append_assoc,
      readOpening_of_blank _ (blank_append.mpr ⟨hb, h.blank⟩) h.tail_break,
      Position.after_append, Position.after_onLine n hbreak, hc.after_rest h.no_break,
      Cursor.after_of_blank _ h.blank]
    exact .error (h.related_stop _)
  · have hline : (pos.after b').next.line = row.number := by
      obtain ⟨seen, -, rfl⟩ := hc
      rw [Cursor.after_of_blank _ hb']
      rfl
    have hy' : y ≠ '\n' := fun hy => hbreak (hy ▸ by simp)
    have hby : '\n' ∉ b' ++ [y] := fun hmem => hbreak <| by
      rw [List.append_cons]
      exact List.mem_append_left _ hmem
    have hd : Cursor.OnLine ⟨pos.after (b' ++ [y]), r⟩ row :=
      hc.forward h.no_break (by simp)
    rw [readOpening_of_cons pos hb' hy hy', List.append_assoc, List.cons_append,
      readOpening_of_cons _ hb' hy hy', Position.after_onLine n (Cursor.not_mem_of_blank hb'),
      Position.after_onLine n hby]
    split
    · exact .ok ⟨hd, hline, rfl⟩
    · exact .error (h.located hline _)

theorem alike_indices {inside : List Char} (hp : P p p') :
    Alike Eq (Error.Related P) (indices p inside) (indices p' inside) := by
  rw [indices, indices]
  split
  · exact .ok rfl
  · refine Alike.mapM (fun piece => ?_) _
    cases Text.numeral? (Text.trim piece) with
    | some i => exact .ok rfl
    | none => exact .error (related_located _ hp)

theorem alike_checkRange {count : Nat} (hp : P p p') :
    Alike Eq (Error.Related P) (checkRange count p is) (checkRange count p' is) := by
  rw [checkRange, checkRange]
  split
  · exact .error (related_located _ hp)
  · exact .ok rfl

/-- The numbers of a list behind its opening parenthesis at `p`. -/
def readInside (p : Position) (c : Cursor) : Except Error ((Position × List Nat) × Cursor) :=
  match c.nextUntil ')' with
  | (none, c) => .error (.located c.position.next (.malformedList .closing))
  | (some inside, c) => (indices p inside).map fun is => ((p, is), c)

theorem readList_eq (f : Field) (c : Cursor) :
    readList f c = readOpening f c >>= fun x => readInside x.1 x.2 :=
  rfl

theorem Beside.readInside (h : Beside P row n b tail) (hc : c.OnLine row)
    (hp : p.line = row.number) :
    Alike (fun x y => x.2.OnLine row ∧ x.1.1.line = row.number ∧
        y = ((x.1.1.onLine n, x.1.2), x.2.beside n (b ++ tail)))
      (Error.Related P) (readInside p c) (readInside (p.onLine n) (c.beside n (b ++ tail))) := by
  have hbreak := hc.no_break h.no_break
  obtain ⟨pos, rest⟩ := c
  rw [Description.readInside, Description.readInside, Cursor.beside]
  by_cases hmem : ')' ∈ rest
  · obtain ⟨inside, r, rfl, hclose⟩ := List.eq_append_cons_of_mem hmem
    have hinside : '\n' ∉ inside := fun h => hbreak (List.mem_append_left _ h)
    have hwhole : '\n' ∉ inside ++ [')'] := by simpa using hinside
    have hd : Cursor.OnLine ⟨pos.after (inside ++ [')']), r⟩ row :=
      hc.forward h.no_break (by simp)
    rw [Cursor.nextUntil_of_mem pos (by decide) hinside hclose, List.append_assoc,
      List.cons_append, Cursor.nextUntil_of_mem _ (by decide) hinside hclose,
      Position.after_onLine n hwhole]
    refine (alike_indices (h.position hp)).map ?_
    rintro is _ rfl
    exact ⟨hd, hp, rfl⟩
  · have hclose : ')' ∉ rest ++ b := fun hb => (List.mem_append.mp hb).elim hmem fun hb =>
      absurd (h.blank _ hb) (by decide)
    have hwhole : '\n' ∉ rest ++ b := fun hb => (List.mem_append.mp hb).elim hbreak fun hb =>
      absurd (h.blank _ hb) (by decide)
    rw [Cursor.nextUntil_of_not_mem_text pos hbreak hmem, hc.after_rest h.no_break,
      ← List.append_assoc,
      Cursor.nextUntil_of_not_mem _ hwhole hclose h.tail_break, Position.after_append,
      Position.after_onLine n hbreak, hc.after_rest h.no_break, Cursor.after_of_blank _ h.blank]
    exact .error (h.related_stop _)

theorem Beside.readList (h : Beside P row n b tail) (hc : c.OnLine row) :
    Alike (fun x y => x.2.OnLine row ∧ x.1.1.line = row.number ∧
        y = ((x.1.1.onLine n, x.1.2), x.2.beside n (b ++ tail)))
      (Error.Related P) (readList f c) (readList f (c.beside n (b ++ tail))) := by
  rw [readList_eq, readList_eq]
  refine (h.readOpening hc).bind ?_
  rintro ⟨p, d⟩ _ ⟨hd, hp, rfl⟩
  exact h.readInside hd hp

/-! ### Header lines -/

/-- **Header lines are read alike.** Behind them the cursor goes on where the line ends. -/
theorem Beside.readHeader (h : Beside P row n b tail) (hblank : ¬Blank row.letters) :
    Alike (fun x y => y = (x.1, Cursor.next ⟨⟨n, row.letters.length + b.length⟩, tail⟩))
      (Error.Related P) (readHeader row.start)
      (readHeader (row.start.beside n (b ++ tail))) := by
  have hskip := Cursor.skipBlankLines_start h.no_break hblank
  have hskip' : (row.start.beside n (b ++ tail)).skipBlankLines =
      row.start.beside n (b ++ tail) := by
    have hbreak : '\n' ∉ row.letters ++ b := fun hmem =>
      (List.mem_append.mp hmem).elim h.no_break (Cursor.not_mem_of_blank h.blank)
    have hstay : Cursor.skipBlankLines ⟨⟨n, 0⟩, row.letters ++ b ++ tail⟩ =
        ⟨⟨n, 0⟩, row.letters ++ b ++ tail⟩ :=
      Cursor.skipBlankLines_of_not_blank _ hbreak fun hb => hblank (blank_append.mp hb).1
    rwa [List.append_assoc] at hstay
  rw [Description.readHeader, Description.readHeader, hskip, hskip']
  refine (h.readKind (Cursor.onLine_start row)).bind ?_
  rintro ⟨k, c₁⟩ _ ⟨hc₁, rfl⟩
  refine (h.readCount hc₁).bind ?_
  rintro ⟨s, c₂⟩ _ ⟨hc₂, rfl⟩
  refine (h.readCount hc₂).bind ?_
  rintro ⟨t, c₃⟩ _ ⟨hc₃, rfl⟩
  refine (h.readList hc₃).bind ?_
  rintro ⟨⟨p, is⟩, c₄⟩ _ ⟨hc₄, hp, rfl⟩
  dsimp only
  split
  · exact .error (h.located hp _)
  refine (h.readList hc₄).bind ?_
  rintro ⟨⟨q, fs⟩, c₅⟩ _ ⟨hc₅, hq, rfl⟩
  refine (alike_checkRange (h.position hp)).bind ?_
  rintro ⟨⟩ _ -
  refine (alike_checkRange (h.position hq)).bind ?_
  rintro ⟨⟩ _ -
  refine (h.readWord hc₅).bind ?_
  rintro ⟨w, c₆⟩ _ ⟨hc₆, rfl⟩
  refine (h.readLineEnd hc₆).bind ?_
  rintro d _ rfl
  exact .ok rfl

/-! ### Words of lines -/

theorem line_of_mem_words {line : List Char} {pos : Position} (hline : '\n' ∉ line) :
    ∀ w ∈ Cursor.words pos line, w.position.line = pos.line := by
  induction line using Cursor.words_induction generalizing pos with
  | blank b hb => simp [Cursor.words_of_blank pos hb]
  | word b x r hb hne hx hr ih =>
    obtain ⟨hbx, hr'⟩ := Cursor.not_mem_of_word hline
    rw [Cursor.words_append pos hline hb hne hx hr, List.forall_mem_cons]
    refine ⟨by rw [Cursor.after_of_blank pos hb]; rfl, fun w hw => ?_⟩
    rw [ih hr' w hw, Position.after_of_not_mem hbx]

/-- Blanks at the end of a line make no difference to its words. -/
theorem words_onLine {line : List Char} (pos : Position) (n : Nat) (hline : '\n' ∉ line)
    (hb : Blank b) : Cursor.words (pos.onLine n) (line ++ b) =
      (Cursor.words pos line).map (·.onLine n) := by
  induction line using Cursor.words_induction generalizing pos with
  | blank b' hb' =>
    rw [Cursor.words_of_blank _ (blank_append.mpr ⟨hb', hb⟩), Cursor.words_of_blank pos hb']
    rfl
  | word b' x r hb' hne hx hr ih =>
    obtain ⟨hbx, hr'⟩ := Cursor.not_mem_of_word hline
    have hline' : '\n' ∉ b' ++ (x ++ (r ++ b)) := by
      rw [← List.append_assoc, ← List.append_assoc, List.append_assoc b']
      exact fun h => (List.mem_append.mp h).elim hline (Cursor.not_mem_of_blank hb)
    have hrb : ∀ c ∈ (r ++ b).head?, Cursor.isBlank c := by
      cases r with
      | nil => exact fun c hc => hb c (List.mem_of_mem_head? hc)
      | cons c r => exact hr
    rw [List.append_assoc, List.append_assoc, Cursor.words_append _ hline' hb' hne hx hrb,
      Cursor.words_append pos hline hb' hne hx hr, Position.after_onLine n hbx, ih _ hr',
      Position.after_onLine n (Cursor.not_mem_of_blank hb')]
    rfl

/-! ### Lines of states and transitions -/

section Words

variable {ws : List Word} {g : Graph} {h : Header} {keyword : Char} {count : Nat} {cause : Cause}

theorem alike_arguments (hws : ∀ w ∈ ws, P w.position (w.position.onLine n)) :
    Alike (fun as as' => as' = as.map (·.onLine n) ∧ ∀ w ∈ as, w ∈ ws) (Error.Related P)
      (arguments keyword count cause ws)
      (arguments keyword count cause (ws.map (·.onLine n))) := by
  cases ws with
  | nil => exact .error ⟨rfl, .none⟩
  | cons w ws =>
    have hw := hws w (List.mem_cons_self ..)
    simp only [arguments, List.map_cons, Word.letters_onLine, List.length_map]
    split
    · exact .error (related_located _ hw)
    · split
      · exact .error (related_located _ hw)
      · exact .ok ⟨rfl, fun v hv => List.mem_cons_of_mem w hv⟩

theorem alike_addState (hws : ∀ w ∈ ws, P w.position (w.position.onLine n)) :
    Alike Eq (Error.Related P) (addState g ws) (addState g (ws.map (·.onLine n))) := by
  refine (alike_arguments hws).bind ?_
  rintro as _ ⟨rfl, has⟩
  match as with
  | [w] =>
    have hw := hws w (has w (List.mem_singleton_self w))
    simp only [List.map_cons, List.map_nil]
    by_cases hdeclared : (g.find? w.text).isSome
    · have hdeclared' : (g.find? (w.onLine n).text).isSome := hdeclared
      rw [if_pos hdeclared, if_pos hdeclared']
      exact .error (related_located _ hw)
    · have hdeclared' : ¬(g.find? (w.onLine n).text).isSome := hdeclared
      rw [if_neg hdeclared, if_neg hdeclared']
      exact .ok rfl
  | [] => exact .ok rfl
  | _ :: _ :: _ => exact .ok rfl

theorem alike_resolve {w : Word} (hw : P w.position (w.position.onLine n)) :
    Alike Eq (Error.Related P) (resolve g w) (resolve g (w.onLine n)) := by
  rw [resolve, resolve, Word.text_onLine]
  split
  · exact .ok rfl
  · exact .error (related_located _ hw)

theorem alike_readLabel {w : Word} (hw : P w.position (w.position.onLine n)) :
    Alike Eq (Error.Related P) (readLabel h w) (readLabel h (w.onLine n)) := by
  rw [readLabel, readLabel, Word.letters_onLine, Word.text_onLine]
  split
  · split
    · exact .ok rfl
    · exact .error (related_located _ hw)
  · split
    · split
      · exact .ok rfl
      · exact .error (related_located _ hw)
    · exact .error (related_located _ hw)

theorem alike_checkNew {q : Nat} {name label : Word} {l : Label}
    (hw : P label.position (label.position.onLine n)) :
    Alike Eq (Error.Related P) (checkNew h g q name label l)
      (checkNew h g q (name.onLine n) (label.onLine n) l) := by
  rw [checkNew, checkNew]
  split
  · exact .error (related_located _ hw)
  · exact .ok rfl

theorem alike_addTransition (hws : ∀ w ∈ ws, P w.position (w.position.onLine n)) :
    Alike Eq (Error.Related P) (addTransition h g ws)
      (addTransition h g (ws.map (·.onLine n))) := by
  refine (alike_arguments hws).bind ?_
  rintro as _ ⟨rfl, has⟩
  match as with
  | [source, target, label] =>
    have hsource := hws source (has source (by simp))
    have htarget := hws target (has target (by simp))
    have hlabel := hws label (has label (by simp))
    refine (alike_resolve hsource).bind ?_
    rintro p _ rfl
    refine (alike_resolve htarget).bind ?_
    rintro q _ rfl
    refine (alike_readLabel hlabel).bind ?_
    rintro l _ rfl
    refine (alike_checkNew hlabel).bind ?_
    rintro ⟨⟩ _ -
    exact .ok rfl
  | [] => exact .ok rfl
  | [_] => exact .ok rfl
  | [_, _] => exact .ok rfl
  | _ :: _ :: _ :: _ :: _ => exact .ok rfl

end Words

/-! ### Lines -/

/-- **Lines are read alike,** whatever is due. -/
theorem Beside.step (h : Beside P row n b []) (hblank : ¬Blank row.letters) (due : Due) :
    Alike Eq (Error.Related P) (step due row) (step due ⟨n, row.letters ++ b⟩) := by
  have hwords : Row.words ⟨n, row.letters ++ b⟩ = row.words.map (·.onLine n) :=
    words_onLine ⟨row.number, 0⟩ n h.no_break h.blank
  have hpositions : ∀ w ∈ row.words, P w.position (w.position.onLine n) := fun w hw =>
    h.position (line_of_mem_words h.no_break w hw)
  match due with
  | .header =>
    have hheader := h.readHeader hblank
    rw [List.append_nil] at hheader
    exact hheader.map fun x y hy => by rw [hy]
  | .lines hd (s + 1) t g =>
    rw [Description.step, Description.step, hwords]
    exact (alike_addState hpositions).map fun _ _ hg => by rw [hg]
  | .lines hd 0 (t + 1) g =>
    rw [Description.step, Description.step, hwords]
    exact (alike_addTransition hpositions).map fun _ _ hg => by rw [hg]
  | .lines hd 0 0 g => exact .error (related_located _ (h.column 1))

/-- A line and the line beside it. -/
def RowsAlike (P : Position → Position → Prop) (row row' : Row) : Prop :=
  ¬Blank row.letters ∧ ∃ b, row'.letters = row.letters ++ b ∧ Beside P row row'.number b []

theorem alike_checkSaturated {k : Kind} {m : Machine} :
    Alike Eq (Error.Related P) (checkSaturated k m) (checkSaturated k m) := by
  rw [checkSaturated]
  split
  · exact .error ⟨rfl, .none⟩
  · exact .ok rfl

theorem alike_finish (hp : P p p') (due : Due) :
    Alike Eq (Error.Related P) (finish p due) (finish p' due) := by
  match due with
  | .header => exact .error (related_located _ hp)
  | .lines _ (_ + 1) _ _ => exact .error (related_located _ hp)
  | .lines _ 0 (_ + 1) _ => exact .error (related_located _ hp)
  | .lines hd 0 0 g =>
    refine alike_checkSaturated.bind ?_
    rintro ⟨⟩ _ -
    exact .ok rfl

/-- **Runs over lines that are alike** end alike. -/
theorem alike_readRows {rows rows' : List Row} (hrows : List.Forall₂ (RowsAlike P) rows rows')
    (hp : P p p') : Alike Eq (Error.Related P) (readRows p rows) (readRows p' rows') := by
  have hrun (due : Due) :
      Alike Eq (Error.Related P) (rows.foldlM Description.step due)
        (rows'.foldlM Description.step due) := by
    induction hrows generalizing due with
    | nil => exact .ok rfl
    | @cons row row' rows rows' hrow _ ih =>
      obtain ⟨n, letters⟩ := row'
      obtain ⟨hblank, b, rfl, hbeside⟩ := hrow
      rw [List.foldlM_cons, List.foldlM_cons]
      refine (hbeside.step hblank due).bind ?_
      rintro due' _ rfl
      exact ih due'
  refine (hrun .header).bind ?_
  rintro due _ rfl
  exact alike_finish hp due

end Description

end Acceptor
