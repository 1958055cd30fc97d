import Acceptor.Description.Culprit
import Acceptor.Proofs.LineByLine
import Acceptor.Report

/-!
# Errors point to their culprits

The position of an error is on the line that is being read, and the column is that of the culprit.
A reader knows where it stands: a cursor on a line has read the front of it. A word begins behind
what has been read and the blanks that follow, and it is a word of the line if the cursor stands
between words. This is lost behind a list and won back behind the next word. If the text ends too
early, the position is the one behind its last line.

## Main definitions

* `Cursor.Between`: the cursor stands between words of a line.
* `Description.Exact`, `Description.ExactAtEnd`: an error points to a place of a line, or behind the
  last line, that shows its cause.

## Main results

* `Description.Cause.Shows.bounds`: a place that shows a cause is on the line.
* `Description.ends_readHeader`, `Description.ends_step`: errors of a line are exact.
* `Description.read_eq_error_exact`: errors of a text are exact, and the caret of the report stands
  under the place.
-/

namespace Acceptor

namespace Text

/-- The lines of a text are its pieces between line breaks, but for the ends of lines. -/
theorem getD_linesOf {pieces : List (List Char)} {n : Nat} {line : List Char}
    (h : pieces[n]? = some line) :
    ((linesOf pieces)[n]?).getD [] = if n + 1 < pieces.length then chomp line else line := by
  induction pieces generalizing n with
  | nil => simp at h
  | cons piece pieces ih =>
    cases pieces with
    | nil =>
      cases n with
      | zero =>
        obtain rfl : piece = line := by simpa using h
        by_cases hnil : piece = [] <;> simp [linesOf, hnil]
      | succ n => simp at h
    | cons piece' pieces =>
      cases n with
      | zero =>
        obtain rfl : piece = line := by simpa using h
        simp [linesOf]
      | succ n =>
        rw [List.getElem?_cons_succ] at h
        rw [linesOf, List.getElem?_cons_succ, ih h]
        simp
        simp

end Text

namespace Description

variable {line word back : List Char} {column : Nat} {row : Row} {p : Position} {cause : Cause}
  {e : Error}

/-! ### Places of a line -/

theorem GoesOnAt.bounds (h : GoesOnAt line column back) :
    1 ≤ column ∧ column ≤ line.length + 1 := by
  obtain ⟨front, rfl, rfl⟩ := h
  rw [List.length_append]
  omega

theorem StandsAt.bounds (h : StandsAt line column word) :
    1 ≤ column ∧ column ≤ line.length + 1 := by
  obtain ⟨front, back, rfl, rfl, -⟩ := h
  rw [List.length_append]
  omega

/-- A place that shows a cause is on the line, or right behind it. -/
theorem Cause.Shows.bounds (h : cause.Shows line column) :
    1 ≤ column ∧ column ≤ line.length + 1 := by
  have hend (h : column = line.length + 1) : 1 ≤ column ∧ column ≤ line.length + 1 := by omega
  cases cause with
  | missingHeader | missingField | missingStates | missingTransitions => exact hend h
  | unknownKind | trailingArguments | duplicateState | undefinedState | invalidLabel
  | foreignLetter | duplicateTransition | epsilonNotAllowed => exact StandsAt.bounds h
  | invalidNumber t =>
    obtain ⟨-, ⟨-, h⟩ | ⟨-, inside, back, h, -⟩⟩ := h
    · exact h.bounds
    · exact h.bounds
  | malformedList lacks =>
    cases lacks with
    | opening =>
      obtain ⟨x, back, h, -⟩ := h
      exact h.bounds
    | closing => exact hend h
  | noInitial | outOfRange =>
    obtain ⟨back, h⟩ := h
    exact h.bounds
  | expectedState | expectedTransition =>
    obtain ⟨x, ⟨h, -⟩, -⟩ := h
    exact h.bounds
  | argumentCount =>
    obtain ⟨⟨x, h, -⟩, -⟩ := h
    exact h.bounds
  | trailingContent =>
    obtain ⟨rfl, -⟩ := h
    omega
  | notSaturated => exact absurd h id

/-- An error points to a place of a line that shows its cause. -/
def Exact (row : Row) (e : Error) : Prop :=
  ∃ column, e.position = some ⟨row.number, column⟩ ∧ e.cause.Shows row.letters column

/-- An error points behind the last line of a text, where the end of any line shows its cause. -/
def ExactAtEnd (p : Position) (e : Error) : Prop :=
  e.position = some p ∧ ∀ line, e.cause.Shows line (line.length + 1)

theorem exact_located (hp : p.line = row.number) (h : cause.Shows row.letters p.column) :
    Exact row (.located p cause) :=
  ⟨p.column, by rw [← hp]; rfl, h⟩

theorem exact_stop (h : cause.Shows row.letters (row.letters.length + 1)) :
    Exact row (.located row.stop.next cause) :=
  exact_located rfl h

end Description

namespace Cursor

open Description

variable {c d : Cursor} {row : Row} {b x r : List Char} {w : Word}

/-! ### Between words -/

/-- The cursor stands on a line, at its start or where no word goes on. -/
structure Between (c : Cursor) (row : Row) : Prop where
  /-- The cursor stands on the line. -/
  onLine : c.OnLine row
  /-- No word goes on. -/
  start_or_blank : c.position.column = 0 ∨ ∀ x ∈ c.rest.head?, isBlank x

theorem between_start (row : Row) : row.start.Between row := ⟨onLine_start row, .inl rfl⟩

/-- The word behind the blanks is a word of the line. -/
theorem Between.standsAt (hc : c.Between row) (hrest : c.rest = b ++ (x ++ r)) (hb : Blank b)
    (hne : x ≠ []) (hx : ∀ y ∈ x, ¬isBlank y) (hr : ∀ y ∈ r.head?, isBlank y) :
    StandsAt row.letters (c.position.after b).next.column x := by
  obtain ⟨⟨seen, hseen, hpos⟩, hfresh⟩ := hc
  refine ⟨seen ++ b, r, by rw [hseen, hrest, List.append_assoc], ?_, ?_, hr, hne, hx⟩
  · rw [after_of_blank _ hb, hpos, List.length_append]
    rfl
  · intro y hy
    rw [List.getLast?_append] at hy
    cases hlast : b.getLast? with
    | some z =>
      rw [hlast] at hy
      obtain rfl : z = y := by simpa using hy
      exact hb z (List.mem_of_getLast? hlast)
    | none =>
      rw [hlast] at hy
      obtain rfl := List.getLast?_eq_none_iff.mp hlast
      obtain ⟨z, x, rfl⟩ := List.exists_cons_of_ne_nil hne
      rcases hfresh with hzero | hblank
      · obtain rfl : seen = [] := List.length_eq_zero_iff.mp (by rw [hpos] at hzero; exact hzero)
        simp at hy
      · exact absurd (hblank z (by rw [hrest]; rfl)) (hx z (List.mem_cons_self ..))

/-- The next word of a line, and where it stands. -/
theorem OnLine.nextWord_standsAt (hc : c.OnLine row) (hline : '\n' ∉ row.letters) :
    c.nextWord = (none, ⟨row.stop, []⟩) ∨
      ∃ w d, c.nextWord = (some w, d) ∧ d.Between row ∧ w.position.line = row.number ∧
        wordsOf c.rest = w.letters :: wordsOf d.rest ∧
        (c.Between row → StandsAt row.letters w.position.column w.letters) := by
  by_cases hblank : Blank c.rest
  · have hnone := nextWord_of_blank_text c.position hblank
    rw [hc.after_rest hline] at hnone
    exact .inl hnone
  · obtain ⟨x, r, hword⟩ := exists_wordAt hblank
    obtain ⟨b, hrest, hb, hnext, -⟩ := hc.nextWord_of_wordAt hline hword
    obtain ⟨-, -, -, hne, hx, hr⟩ := id hword
    refine .inr ⟨_, _, hnext, ⟨hc.forward hline ?_, .inr hr⟩, ?_, hword.wordsOf_eq, fun hc => ?_⟩
    · rw [hrest, List.append_assoc]
    · rw [after_of_blank _ hb, ← hc.onLine_number]
      rfl
    · exact hc.standsAt hrest hb hne hx hr

/-- The words of the rest of a line are words of the line. -/
theorem standsAt_of_mem_words {pos : Position} {rest : List Char} (hline : '\n' ∉ row.letters)
    (hc : Between ⟨pos, rest⟩ row) :
    ∀ w ∈ words pos rest, StandsAt row.letters w.position.column w.letters := by
  induction rest using words_induction generalizing pos with
  | blank b hb => simp [words_of_blank pos hb]
  | word b x r hb hne hx hr ih =>
    rw [words_append pos (hc.onLine.no_break hline) hb hne hx hr, List.forall_mem_cons]
    refine ⟨hc.standsAt rfl hb hne hx hr, ih ⟨?_, .inr hr⟩⟩
    exact hc.onLine.forward hline (List.append_assoc ..).symm

end Cursor

namespace Description

open Cursor

variable {α : Type} {row : Row} {c : Cursor} {p : Position} {f : Field} {k : Kind} {h : Header}
  {g : Graph} {is : List Nat} {w : Word} {keyword : Char} {count : Nat} {cause : Cause}

/-! ### The header -/

section Header

variable (hline : '\n' ∉ row.letters)

include hline

/-- A reader of a word comes to the next gap between words. The word it complains of is a word of
the line if it started at such a gap. -/
theorem ends_readsWord {read : Cursor → Except Error (α × Cursor)} {cause : Cause}
    {meaning : Word → Except Error α} {Q : List Char → Prop} (hread : ReadsWord read cause meaning)
    (hnone : cause.Shows row.letters (row.letters.length + 1)) (hc : c.OnLine row)
    (hmeaning : ∀ w r, w.position.line = row.number → wordsOf c.rest = w.letters :: wordsOf r →
      (c.Between row → StandsAt row.letters w.position.column w.letters) →
        Ends (fun _ => Q w.letters) (Exact row) (meaning w)) :
    Ends (fun x => x.2.Between row ∧ ∃ t, wordsOf c.rest = t :: wordsOf x.2.rest ∧ Q t)
      (Exact row) (read c) := by
  rcases hc.nextWord_standsAt hline with hnext | ⟨w, d, hnext, hd, hw, hwords, hstands⟩
  · rw [hread.none hnext]
    exact .error (exact_stop hnone)
  · rw [hread.some hnext]
    exact (hmeaning w d.rest hw hwords hstands).map fun a hQ => ⟨hd, w.letters, hwords, hQ⟩

theorem ends_readKind (hc : c.Between row) :
    Ends (fun x => x.2.Between row ∧ ∃ t, wordsOf c.rest = t :: wordsOf x.2.rest ∧ True)
      (Exact row) (readKind c) := by
  refine ends_readsWord hline readsWord_readKind rfl hc.onLine fun w r hw _ hstands => ?_
  rw [kindOf]
  cases Kind.ofText w.text with
  | ok k => exact .ok trivial
  | error _ =>
    refine .error (exact_located hw ?_)
    rw [Cause.Shows, Word.text, String.toList_ofList]
    exact hstands hc

theorem ends_readCount (hc : c.Between row)
    (hcount : ∀ t r, wordsOf c.rest = t :: wordsOf r → t ∈ countWords row.letters) :
    Ends (fun x => x.2.Between row ∧
        ∃ t, wordsOf c.rest = t :: wordsOf x.2.rest ∧ Text.numeral? t ≠ none)
      (Exact row) (readCount f c) := by
  refine ends_readsWord hline readsWord_readCount rfl hc.onLine fun w r hw hwords hstands => ?_
  rw [countOf]
  cases hnumeral : Text.numeral? w.letters with
  | some n => exact .ok (by simp)
  | none =>
    refine .error (exact_located hw ?_)
    rw [Cause.Shows, Word.text, String.toList_ofList]
    exact ⟨hnumeral, .inl ⟨hcount _ _ hwords, hstands hc⟩⟩

theorem ends_readWord (hc : c.OnLine row) :
    Ends (fun x => x.2.Between row ∧ ∃ t, wordsOf c.rest = t :: wordsOf x.2.rest ∧ True)
      (Exact row) (readWord f c) :=
  ends_readsWord hline readsWord_readWord rfl hc fun _ _ _ _ _ => .ok trivial

theorem ends_readLineEnd (hc : c.Between row) :
    Ends (fun _ => True) (Exact row) (readLineEnd c) := by
  rw [readLineEnd]
  rcases hc.onLine.nextWord_standsAt hline with hnext | ⟨w, d, hnext, -, hw, -, hstands⟩
  · rw [hnext]
    exact .ok trivial
  · rw [hnext]
    refine .error (exact_located hw ?_)
    rw [Cause.Shows, Word.text, String.toList_ofList]
    exact hstands hc

theorem ends_readOpening (hc : c.OnLine row) :
    Ends (fun x => x.2.OnLine row ∧ x.1.line = row.number ∧
        GoesOnAt row.letters x.1.column ('(' :: x.2.rest))
      (Exact row) (readOpening f c) := by
  have hbreak := hc.no_break hline
  obtain ⟨pos, rest⟩ := c
  rcases blank_or_exists_cons rest with hb | ⟨b, y, r, rfl, hb, hy⟩
  · rw [readOpening_of_blank_text pos hb, hc.after_rest hline]
    exact .error (exact_stop rfl)
  · have hy' : y ≠ '\n' := fun hy => hbreak (hy ▸ by simp)
    have hd : OnLine ⟨pos.after (b ++ [y]), r⟩ row := hc.forward hline (by simp)
    obtain ⟨seen, hseen, rfl⟩ := hc
    have hnumber : (Position.after ⟨row.number, seen.length⟩ b).next.line = row.number := by
      rw [after_of_blank _ hb]
      rfl
    have hgoes : GoesOnAt row.letters
        (Position.after ⟨row.number, seen.length⟩ b).next.column (y :: r) := by
      refine ⟨seen ++ b, by rw [hseen, List.append_assoc], ?_⟩
      rw [after_of_blank _ hb, List.length_append]
      rfl
    rw [readOpening_of_cons _ hb hy hy']
    split
    · next hopen =>
      subst hopen
      exact .ok ⟨hd, hnumber, hgoes⟩
    · next hopen => exact .error (exact_located hnumber ⟨y, r, hgoes, hopen, hy⟩)

omit hline in
theorem ends_indices {inside r : List Char}
    (hcounts : ∀ t ∈ countWords row.letters, Text.numeral? t ≠ none) (hp : p.line = row.number)
    (hgoes : GoesOnAt row.letters p.column ('(' :: (inside ++ ')' :: r))) (hclose : ')' ∉ inside) :
    Ends (fun _ => True) (Exact row) (indices p inside) := by
  rw [indices]
  split
  · exact .ok trivial
  · refine Ends.mapM fun piece hpiece => ?_
    cases hnumeral : Text.numeral? (Text.trim piece) with
    | some i => exact .ok trivial
    | none =>
      refine .error (exact_located hp ?_)
      rw [Cause.Shows, String.toList_ofList]
      exact ⟨hnumeral, .inr ⟨hcounts, inside, r, hgoes, hclose, List.mem_map_of_mem hpiece⟩⟩

theorem ends_readInside (hcounts : ∀ t ∈ countWords row.letters, Text.numeral? t ≠ none)
    (hc : c.OnLine row) (hp : p.line = row.number)
    (hgoes : GoesOnAt row.letters p.column ('(' :: c.rest)) :
    Ends (fun x => x.2.OnLine row ∧ x.1.1 = p) (Exact row) (readInside p c) := by
  have hbreak := hc.no_break hline
  obtain ⟨pos, rest⟩ := c
  rw [readInside]
  by_cases hmem : ')' ∈ rest
  · obtain ⟨inside, r, rfl, hclose⟩ := List.eq_append_cons_of_mem hmem
    have hinside : '\n' ∉ inside := fun h => hbreak (List.mem_append_left _ h)
    have hd : OnLine ⟨pos.after (inside ++ [')']), r⟩ row := hc.forward hline (by simp)
    rw [nextUntil_of_mem pos (by decide) hinside hclose]
    exact (ends_indices hcounts hp hgoes hclose).bind fun is _ => .ok ⟨hd, rfl⟩
  · rw [nextUntil_of_not_mem_text pos hbreak hmem, hc.after_rest hline]
    exact .error (exact_stop rfl)

theorem ends_readList (hcounts : ∀ t ∈ countWords row.letters, Text.numeral? t ≠ none)
    (hc : c.OnLine row) :
    Ends (fun x => x.2.OnLine row ∧ x.1.1.line = row.number ∧
        ∃ back, GoesOnAt row.letters x.1.1.column ('(' :: back))
      (Exact row) (readList f c) := by
  rw [readList_eq]
  refine (ends_readOpening hline hc).bind ?_
  rintro ⟨p, d⟩ ⟨hd, hp, hgoes⟩
  refine (ends_readInside hline hcounts hd hp hgoes).mono ?_
  rintro ⟨⟨_, is⟩, d'⟩ ⟨hd', rfl⟩
  exact ⟨hd', hp, _, hgoes⟩

omit hline in
theorem ends_checkRange (hp : p.line = row.number)
    (hgoes : ∃ back, GoesOnAt row.letters p.column ('(' :: back)) :
    Ends (fun _ => True) (Exact row) (checkRange count p is) := by
  rw [checkRange]
  split
  · exact .error (exact_located hp hgoes)
  · exact .ok trivial

/-- **Errors of a header line are exact.** -/
theorem ends_readHeader (hblank : ¬Blank row.letters) :
    Ends (fun _ => True) (Exact row) (readHeader row.start) := by
  rw [readHeader, skipBlankLines_start hline hblank]
  -- the words read so far tell that the counts are the second and the third of the line
  refine (ends_readKind hline (between_start row)).bind ?_
  rintro ⟨k, c₁⟩ ⟨hc₁, t, hkind, -⟩
  have hkind : wordsOf row.letters = t :: wordsOf c₁.rest := hkind
  refine (ends_readCount hline hc₁ fun t r ht => ?_).bind ?_
  · simp [countWords, hkind, ht]
  rintro ⟨s, c₂⟩ ⟨hc₂, t₁, hstates, hnumeral₁⟩
  refine (ends_readCount hline hc₂ fun t r ht => ?_).bind ?_
  · simp [countWords, hkind, hstates, ht]
  rintro ⟨t, c₃⟩ ⟨hc₃, t₂, htransitions, hnumeral₂⟩
  have hcounts : ∀ t ∈ countWords row.letters, Text.numeral? t ≠ none := by
    simp [countWords, hkind, hstates, htransitions, hnumeral₁, hnumeral₂]
  refine (ends_readList hline hcounts hc₃.onLine).bind ?_
  rintro ⟨⟨p, is⟩, c₄⟩ ⟨hc₄, hp, hinitial⟩
  dsimp only
  split
  · exact .error (exact_located hp hinitial)
  refine (ends_readList hline hcounts hc₄).bind ?_
  rintro ⟨⟨q, fs⟩, c₅⟩ ⟨hc₅, hq, hfinals⟩
  refine (ends_checkRange hp hinitial).bind ?_
  rintro ⟨⟩ -
  refine (ends_checkRange hq hfinals).bind ?_
  rintro ⟨⟩ -
  -- the lists have left the cursor anywhere, but behind a word it is between words again
  refine (ends_readWord hline hc₅).bind ?_
  rintro ⟨w, c₆⟩ ⟨hc₆, -⟩
  refine (ends_readLineEnd hline hc₆).bind ?_
  rintro d -
  exact .ok trivial

end Header

/-! ### The other lines -/

section Lines

variable (hline : '\n' ∉ row.letters) (hblank : ¬Blank row.letters)

theorem length_words (hline : '\n' ∉ row.letters) :
    row.words.length = (wordsOf row.letters).length := by
  rw [← (words_spec ⟨row.number, 0⟩ hline).1, List.length_map]
  rfl

include hline

/-- An error about a word of the line is exact. -/
theorem exact_of_mem_words {cause : Cause} (hw : w ∈ row.words)
    (h : StandsAt row.letters w.position.column w.letters →
      cause.Shows row.letters w.position.column) : Exact row (.located w.position cause) :=
  exact_located (line_of_mem_words hline w hw)
    (h (standsAt_of_mem_words hline (between_start row) w hw))

theorem ends_resolve (hw : w ∈ row.words) :
    Ends (fun _ => True) (Exact row) (resolve g w) := by
  rw [resolve]
  split
  · exact .ok trivial
  · refine .error (exact_of_mem_words hline hw fun h => ?_)
    rwa [Cause.Shows, Word.text, String.toList_ofList]

/-- The label of a word is its letter, unless empty moves are allowed. -/
theorem ends_readLabel (hw : w ∈ row.words) :
    Ends (fun l => h.kind = .enfa ∨ ∃ x, l = .letter x ∧ w.letters = [x]) (Exact row)
      (readLabel h w) := by
  rw [readLabel]
  split
  · next hquotes =>
    split
    · next hkind => exact .ok (.inl hkind)
    · refine .error (exact_of_mem_words hline hw fun h => ?_)
      rwa [hquotes] at h
  · split
    · next x hletters =>
      split
      · exact .ok (.inr ⟨x, rfl, hletters⟩)
      · refine .error (exact_of_mem_words hline hw fun h => ?_)
        rwa [hletters] at h
    · refine .error (exact_of_mem_words hline hw fun h => ?_)
      rwa [Cause.Shows, Word.text, String.toList_ofList]

theorem ends_checkNew {q : Nat} {name : Word} {l : Label} (hw : w ∈ row.words)
    (hl : h.kind = .enfa ∨ ∃ x, l = .letter x ∧ w.letters = [x]) :
    Ends (fun _ => True) (Exact row) (checkNew h g q name w l) := by
  rw [checkNew]
  split
  · next hnew =>
    rcases hl with hkind | ⟨x, rfl, hletters⟩
    · -- a deterministic automaton has no empty moves
      rw [hkind] at hnew
      exact absurd hnew.1 (by decide)
    · refine .error (exact_of_mem_words hline hw fun h => ?_)
      rwa [hletters] at h
  · exact .ok trivial

include hblank

/-- The first of the words is the first word of the line. -/
theorem exists_words_eq_cons :
    ∃ w ws, row.words = w :: ws ∧ FirstAt row.letters w.position.column w.letters := by
  obtain ⟨x, r, b, hrest, hb, hne, hx, hr⟩ := exists_wordAt hblank
  have hwords : row.words = ⟨(Position.after ⟨row.number, 0⟩ b).next, x⟩ ::
      words (Position.after ⟨row.number, 0⟩ (b ++ x)) r := by
    rw [Row.words, hrest]
    exact words_append _ (hrest ▸ hline) hb hne hx hr
  refine ⟨_, _, hwords, (between_start row).standsAt hrest hb hne hx hr, ?_⟩
  rw [after_of_blank _ hb, hrest]
  simpa [Position.next] using hb

theorem ends_arguments (hunexpected : ∀ column x, FirstAt row.letters column x → x ≠ [keyword] →
      cause.Shows row.letters column) :
    Ends (fun as => ∀ w ∈ as, w ∈ row.words) (Exact row)
      (arguments keyword count cause row.words) := by
  obtain ⟨w, ws, hwords, hfirst⟩ := exists_words_eq_cons hline hblank
  have hlength := length_words hline
  have hw := line_of_mem_words hline w (hwords ▸ List.mem_cons_self ..)
  rw [hwords, List.length_cons] at hlength
  rw [hwords, arguments]
  split
  · next hkeyword => exact .error (exact_located hw (hunexpected _ _ hfirst hkeyword))
  · split
    · next hcount => exact .error (exact_located hw ⟨⟨_, hfirst⟩, hlength.symm, hcount⟩)
    · exact .ok fun v hv => List.mem_cons_of_mem w hv

theorem ends_addState : Ends (fun _ => True) (Exact row) (addState g row.words) := by
  refine (ends_arguments hline hblank ?_).bind ?_
  · exact fun _ x hfirst hkeyword => ⟨x, hfirst, hkeyword⟩
  rintro as has
  match as with
  | [w] =>
    dsimp only
    split
    · refine .error (exact_of_mem_words hline (has w (List.mem_singleton_self w)) fun h => ?_)
      rwa [Cause.Shows, Word.text, String.toList_ofList]
    · exact .ok trivial
  | [] => exact .ok trivial
  | _ :: _ :: _ => exact .ok trivial

theorem ends_addTransition :
    Ends (fun _ => True) (Exact row) (addTransition h g row.words) := by
  refine (ends_arguments hline hblank ?_).bind ?_
  · exact fun _ x hfirst hkeyword => ⟨x, hfirst, hkeyword⟩
  rintro as has
  match as with
  | [source, target, label] =>
    have hlabel := has label (by simp)
    refine (ends_resolve hline (has source (by simp))).bind fun p _ => ?_
    refine (ends_resolve hline (has target (by simp))).bind fun q _ => ?_
    refine (ends_readLabel hline hlabel).bind fun l hl => ?_
    exact (ends_checkNew hline hlabel hl).bind fun _ _ => .ok trivial
  | [] => exact .ok trivial
  | [_] => exact .ok trivial
  | [_, _] => exact .ok trivial
  | _ :: _ :: _ :: _ :: _ => exact .ok trivial

/-- **Errors of a line are exact,** whatever is due. -/
theorem ends_step (due : Due) : Ends (fun _ => True) (Exact row) (step due row) := by
  match due with
  | .header => exact (ends_readHeader hline hblank).map fun _ _ => trivial
  | .lines _ (_ + 1) _ _ => exact (ends_addState hline hblank).map fun _ _ => trivial
  | .lines _ 0 (_ + 1) _ => exact (ends_addTransition hline hblank).map fun _ _ => trivial
  | .lines _ 0 0 _ => exact .error (exact_located rfl ⟨rfl, hblank⟩)

end Lines

/-! ### Texts -/

/-- An error of the end of a text has the position behind the text, if it has one. -/
theorem ends_finish (p : Position) (due : Due) :
    Ends (fun _ => True) (fun e => e.position = none ∨ ExactAtEnd p e) (finish p due) := by
  match due with
  | .header => exact .error (.inr ⟨rfl, fun _ => rfl⟩)
  | .lines _ (_ + 1) _ _ => exact .error (.inr ⟨rfl, fun _ => rfl⟩)
  | .lines _ 0 (_ + 1) _ => exact .error (.inr ⟨rfl, fun _ => rfl⟩)
  | .lines h 0 0 g =>
    have hcheck {m : Machine} : Ends (fun _ => True)
        (fun e => e.position = none ∨ ExactAtEnd p e) (checkSaturated h.kind m) := by
      rw [checkSaturated]
      split
      · exact .error (.inl rfl)
      · exact .ok trivial
    exact hcheck.bind fun _ _ => .ok trivial

/-- Errors of a run over lines are errors of one of them or of the end. -/
theorem ends_run {rows : List Row} (hrows : ∀ row ∈ rows, '\n' ∉ row.letters ∧ ¬Blank row.letters)
    (p : Position) (due : Due) :
    Ends (fun _ => True)
      (fun e => e.position = none ∨ (∃ row ∈ rows, Exact row e) ∨ ExactAtEnd p e)
      (rows.foldlM step due >>= finish p) := by
  have hlines : Ends (fun _ => True) (fun e => ∃ row ∈ rows, Exact row e)
      (rows.foldlM step due) := by
    induction rows generalizing due with
    | nil => exact .ok trivial
    | cons row rows ih =>
      obtain ⟨⟨hline, hblank⟩, hrows⟩ := List.forall_mem_cons.mp hrows
      rw [List.foldlM_cons]
      refine Ends.bind ((ends_step hline hblank due).mono_error fun e he => ?_) fun due' _ => ?_
      · exact ⟨row, List.mem_cons_self .., he⟩
      · refine (ih hrows due').mono_error ?_
        rintro e ⟨row', hmem, he⟩
        exact ⟨row', List.mem_cons_of_mem row hmem, he⟩
  refine (hlines.mono_error fun e he => .inr (.inl he)).bind fun due _ => ?_
  refine (ends_finish p due).mono_error ?_
  rintro e (hnone | hstop)
  · exact .inl hnone
  · exact .inr (.inr hstop)

theorem ends_rowsFrom (n : Nat) (text : List Char) (p : Position) (due : Due) :
    Ends (fun _ => True)
      (fun e => e.position = none ∨ (∃ row ∈ rowsFrom n text, Exact row e) ∨ ExactAtEnd p e)
      ((rowsFrom n text).foldlM step due >>= finish p) :=
  ends_run (fun _ hrow => ⟨(mem_rowsFrom hrow).1, (mem_rowsFrom hrow).2.1⟩) p due

/-- An error with a position points to a place of a line of the text that shows its cause. -/
theorem exists_line_of_read {text : String} {e : Error} {p : Position} (h : read text = .error e)
    (hp : e.position = some p) : 1 ≤ p.line ∧ ∃ line,
      (Text.cut '\n' text.toList)[p.line - 1]? = some line ∧ e.cause.Shows line p.column := by
  have hends := ends_rowsFrom 1 text.toList (Position.start.after text.toList).next .header
  rw [← readRows, ← read_eq_readRows, h] at hends
  rcases hends.of_error with hnone | ⟨row, hrow, column, hposition, hshows⟩ | ⟨hposition, hshows⟩
  · rw [hp] at hnone
    cases hnone
  · obtain rfl : p = ⟨row.number, column⟩ := Option.some.inj (hp.symm.trans hposition)
    obtain ⟨-, -, hnumber, hline⟩ := mem_rowsFrom hrow
    exact ⟨hnumber, row.letters, hline, hshows⟩
  · obtain ⟨line, hline, hafter⟩ := after_eq 1 text.toList
    rw [Position.start, hafter] at hposition
    obtain rfl := Option.some.inj (hp.symm.trans hposition)
    refine ⟨Nat.le_add_right _ _, line, ?_, hshows line⟩
    rw [Position.next, Nat.add_sub_cancel_left]
    exact hline

theorem report_of_position {text origin : String} {e : Error} {p : Position} {line : List Char}
    (hp : e.position = some p) (hpos : 1 ≤ p.line)
    (hline : (Text.cut '\n' text.toList)[p.line - 1]? = some line) :
    (LoadError.description e).report text origin =
      s!"{origin}:{p.line}:{p.column}: {e.cause.message}\n" ++
        String.ofList (if p.line ≤ text.toList.count '\n' then Text.chomp line else line) ++ "\n" ++
          String.ofList (List.replicate (p.column - 1) ' ') ++ "^\n" := by
  have hexcerpt : ((Text.lines text.toList)[p.line - 1]?).getD [] =
      if p.line ≤ text.toList.count '\n' then Text.chomp line else line := by
    rw [Text.lines, Text.getD_linesOf hline, Text.length_cut, Nat.sub_add_cancel hpos]
    simp only [Nat.lt_succ_iff]
  have hposition : (LoadError.description e).position = some p := hp
  simp only [LoadError.report, LoadError.heading, hposition, LoadError.message?, Option.elim,
    LoadError.excerpt, hexcerpt, Position.text]
  simp [toString, String.append_assoc]

/-- **Errors of a text are exact.** An error with a position points to a line of the text, or to the
place behind its last line, and to a column of the line that shows the cause. The report is the
origin, the position and the message, then the line without its end, and then a caret under the
column. -/
theorem read_eq_error_exact {text : String} {e : Error} {p : Position} (h : read text = .error e)
    (hp : e.position = some p) :
    (1 ≤ p.line ∧ p.line ≤ text.toList.count '\n' + 1) ∧
    ∃ line, (Text.cut '\n' text.toList)[p.line - 1]? = some line ∧
      (1 ≤ p.column ∧ p.column ≤ line.length + 1) ∧ e.cause.Shows line p.column ∧
      ∀ origin, (LoadError.description e).report text origin =
        s!"{origin}:{p.line}:{p.column}: {e.cause.message}\n" ++
          String.ofList (if p.line ≤ text.toList.count '\n' then Text.chomp line else line) ++
          "\n" ++ String.ofList (List.replicate (p.column - 1) ' ') ++ "^\n" ∧
        (text.length < LoadError.lengthBound → (LoadError.description e).report? text origin =
          some ((LoadError.description e).report text origin)) := by
  obtain ⟨hpos, line, hline, hshows⟩ := exists_line_of_read h hp
  obtain ⟨hindex, hmem⟩ := List.getElem?_eq_some_iff.mp hline
  have hlast : p.line ≤ text.toList.count '\n' + 1 := by
    rw [Text.length_cut] at hindex
    omega
  refine ⟨⟨hpos, hlast⟩, line, hline, hshows.bounds, hshows, fun origin => ⟨?_, fun hlt => ?_⟩⟩
  · exact report_of_position hp hpos hline
  · have hlength : line.length ≤ text.length := by
      rw [← String.length_toList]
      exact Text.length_le_of_mem_cut (List.mem_of_getElem? hline)
    have hcolumn := hshows.bounds.2
    have hposition : (LoadError.description e).position = some p := hp
    rw [LoadError.report?, hposition, if_pos]
    refine ⟨rfl, ?_⟩
    simp only [Option.all_some, decide_eq_true_eq]
    omega

/-- A description whose transition line names a state that is not declared. The line has blanks at
its start, and there are a blank line and a carriage return before it. -/
def undeclaredText : String := "nfa 1 1 (0) () a\r\n\ns p\n  t p q a"

/-- The error that is found there. -/
def undeclaredError : Error := ⟨.undefinedState "q", some ⟨4, 7⟩⟩

theorem read_eq_error_exact_undeclared :
    read undeclaredText = .error undeclaredError ∧
    (1 ≤ 4 ∧ 4 ≤ undeclaredText.toList.count '\n' + 1) ∧
    ∃ line, (Text.cut '\n' undeclaredText.toList)[3]? = some line ∧
      (1 ≤ 7 ∧ 7 ≤ line.length + 1) ∧ Cause.Shows line 7 (.undefinedState "q") ∧
      ∀ origin, (LoadError.description undeclaredError).report undeclaredText origin =
        s!"{origin}:{4}:{7}: {undeclaredError.cause.message}\n" ++
          String.ofList (if 4 ≤ undeclaredText.toList.count '\n' then Text.chomp line else line) ++
          "\n" ++ String.ofList (List.replicate 6 ' ') ++ "^\n" ∧
        (undeclaredText.length < LoadError.lengthBound →
          (LoadError.description undeclaredError).report? undeclaredText origin =
            some ((LoadError.description undeclaredError).report undeclaredText origin)) :=
  have hread : read undeclaredText = .error undeclaredError := by decide +kernel
  ⟨hread, read_eq_error_exact hread rfl⟩

end Description

end Acceptor
