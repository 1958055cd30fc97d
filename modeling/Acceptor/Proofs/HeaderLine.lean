import Acceptor.Outcome
import Acceptor.Proofs.Lines

/-!
# Header lines

The header is read field by field, each from where the one before it ended. A reader of one field
follows a relation between the line, the value and what is left of the line, and the relations in a
row describe the header lines of the format.

## Main definitions

* `Description.Reads`: a reader follows a relation, and does not leave the line.

## Main results

* `Description.reads_of_nextWord`, `Description.reads_readList`: the readers of the fields.
* `Description.headerLine_iff`: header lines, field by field.
* `Description.readHeader_iff`: the header that is read is the one on the first line.
-/

namespace Acceptor

namespace Cursor

open Description

variable {c d : Cursor} {line tail : List Char} {x : Char}

/-- **The text up to a character** is read if that character is on the line, and the cursor stands
behind its first occurrence then. -/
theorem Before.nextUntil (h : c.Before line tail) (hx : x ≠ '\n') :
    (x ∉ line ∧ ∃ d, c.nextUntil x = (none, d)) ∨
      ∃ inside r d, c.nextUntil x = (some inside, d) ∧ line = inside ++ x :: r ∧ x ∉ inside ∧
        d.Before r tail := by
  obtain ⟨p, hp⟩ : ∃ p : Char → Bool, p = fun y => y != '\n' && y != x := ⟨_, rfl⟩
  obtain ⟨hahead, hskip⟩ := h.skipWhile (p := p) (by simp [hp])
  have hsplit := List.takeWhile_append_dropWhile (p := p) (l := line)
  have hinside : x ∉ line.takeWhile p := fun hmem => by
    have hpx : p x := List.all_eq_true.mp List.all_takeWhile x hmem
    simp [hp] at hpx
  simp only [Cursor.nextUntil, ← hp, Cursor.peek, hskip.rest_eq, hahead]
  cases hrest : line.dropWhile p with
  | nil =>
    rw [hrest, List.append_nil] at hsplit
    refine .inl ⟨hsplit ▸ hinside, c.skipWhile p, ?_⟩
    cases tail with
    | nil => rfl
    | cons y tail =>
      obtain rfl : y = '\n' := h.tail_break y rfl
      exact if_neg fun hy => hy.2 rfl
  | cons y r =>
    rw [hrest] at hsplit hskip
    have hy : ¬p y := head?_dropWhile p line y (by rw [hrest]; rfl)
    have hbreak : y ≠ '\n' := fun hy => hskip.no_break (hy ▸ List.mem_cons_self ..)
    obtain rfl : y = x := by simpa [hp, hbreak] using hy
    exact .inr ⟨_, r, _, if_pos ⟨rfl, hx⟩, hsplit.symm, hinside, hskip.next⟩

end Cursor

namespace Description

variable {α β : Type} {c d : Cursor} {line tail r x b inside l : List Char} {y : Char}
  {p : Position} {is : List Nat} {h : Header} {count : Nat} {f : Field}

/-! ### Readers of fields -/

/-- On any line, a reader gives exactly the values that stand in the relation to the line and what
is left of it, where it stops. Of what is read, `view` is what the relation is about. -/
structure Reads (read : Cursor → Except Error (α × Cursor)) (view : α → β)
    (P : List Char → β → List Char → Prop) : Prop where
  /-- What is read stands in the relation. -/
  sound {c d : Cursor} {line tail : List Char} {a : α} :
    c.Before line tail → read c = .ok (a, d) → ∃ r, P line (view a) r ∧ d.Before r tail
  /-- What stands in the relation is read. -/
  complete {c : Cursor} {line tail r : List Char} {v : β} :
    c.Before line tail → P line v r → ∃ a d, read c = .ok (a, d) ∧ view a = v ∧ d.Before r tail

/-- The first word of the line means `v`, and the line goes on with `r`. -/
def FieldAt (means : List Char → β → Prop) (line : List Char) (v : β) (r : List Char) : Prop :=
  ∃ x, WordAt line x r ∧ means x v

/-- After blanks the line has a list of numbers in parentheses, and goes on with `r`. -/
def ListAt (line : List Char) (is : List Nat) (r : List Char) : Prop :=
  ∃ b inside, line = b ++ '(' :: (inside ++ ')' :: r) ∧ Blank b ∧ ')' ∉ inside ∧ ListText inside is

/-- A reader that interprets the next word of the line, and needs one. -/
theorem reads_of_nextWord {read : Cursor → Except Error (α × Cursor)} {view : α → β}
    {means : List Char → β → Prop}
    (hnone : ∀ {c d : Cursor} {a : α × Cursor}, c.nextWord = (none, d) → read c ≠ .ok a)
    (hsome : ∀ {c d d' : Cursor} {w : Word} {v : β}, c.nextWord = (some w, d) →
      ((∃ a, read c = .ok (a, d') ∧ view a = v) ↔ means w.letters v ∧ d' = d)) :
    Reads read view (FieldAt means) where
  sound hc hread := by
    rcases hc.nextWord with ⟨-, d, hnext, -⟩ | ⟨w, r, d, hnext, hword, hd⟩
    · exact absurd hread (hnone hnext)
    · obtain ⟨hmeans, rfl⟩ := (hsome hnext).mp ⟨_, hread, rfl⟩
      exact ⟨r, ⟨_, hword, hmeans⟩, hd⟩
  complete hc hfield := by
    obtain ⟨x, hx, hmeans⟩ := hfield
    rcases hc.nextWord with ⟨hblank, -⟩ | ⟨w, r, d, hnext, hword, hd⟩
    · exact absurd hblank hx.not_blank
    · obtain ⟨rfl, rfl⟩ := hx.unique hword
      obtain ⟨a, hread, hview⟩ := (hsome hnext).mpr ⟨hmeans, rfl⟩
      exact ⟨a, d, hread, hview, hd⟩

theorem reads_readKind :
    Reads readKind id (FieldAt fun x k => x = k.text.toList) := by
  refine reads_of_nextWord (fun hnext => ?_) fun {c d d' w k} hnext => ?_
  · simp [readKind, hnext]
  · have hkind : w.letters = k.text.toList ↔ Kind.ofText w.text = .ok k := by
      rw [Kind.ofText_eq_ok, Word.letters_eq]
    simp only [hkind, readKind, hnext]
    cases Kind.ofText w.text <;> simp [and_comm, eq_comm]

theorem reads_readWord :
    Reads (readWord f) (fun w => Alphabet.ofList w.letters) (FieldAt fun x a => a = .ofList x) := by
  refine reads_of_nextWord (fun hnext => ?_) fun hnext => ?_
  · simp [readWord, hnext]
  · simp [readWord, hnext, and_comm, eq_comm]

theorem reads_readCount :
    Reads (readCount f) id (FieldAt fun x n => Text.numeral? x = some n) := by
  refine reads_of_nextWord (fun hnext => ?_) fun {c d d' w n} hnext => ?_
  · simp [readCount, readWord, hnext, bind, Except.bind]
  · simp only [readCount, readWord, hnext, bind, Except.bind]
    cases Text.numeral? w.letters <;> simp [pure, Except.pure, throw, throwThe, MonadExceptOf.throw,
      and_comm, eq_comm]

/-! ### Lists of numbers -/

theorem mapM_eq_ok {ε : Type} {f : α → Except ε β} {xs : List α} {ys : List β} :
    xs.mapM f = .ok ys ↔ List.Forall₂ (fun x y => f x = .ok y) xs ys := by
  induction xs generalizing ys with
  | nil => cases ys <;> simp [pure, Except.pure]
  | cons x xs ih =>
    simp only [List.mapM_cons, bind_eq_ok, ih, pure, Except.pure]
    cases ys with
    | nil => simp
    | cons y ys => simp [and_left_comm]

theorem indices_eq_ok : indices p inside = .ok is ↔ ListText inside is := by
  rw [indices]
  split
  · next hblank =>
    rw [Text.trim_eq_nil] at hblank
    constructor
    · intro h
      cases h
      exact .blank hblank
    · intro h
      cases h with
      | blank => rfl
      | numbers hnumbers =>
        -- the only piece is white space, and no numeral
        have hcomma : ',' ∉ inside := fun hmem => absurd (hblank _ hmem) (by decide)
        rw [Text.cut_of_not_mem hcomma] at hnumbers
        cases hnumbers with
        | cons hpiece =>
          rw [Text.trim_eq_nil.mpr hblank] at hpiece
          cases hpiece
  · next hblank =>
    rw [mapM_eq_ok]
    constructor
    · intro h
      refine .numbers (h.imp fun piece i hpiece => ?_)
      cases hn : Text.numeral? (Text.trim piece) with
      | none => simp [hn] at hpiece
      | some n => simpa [hn] using hpiece
    · intro h
      cases h with
      | blank h => exact absurd (Text.trim_eq_nil.mpr h) hblank
      | numbers h => exact h.imp fun piece i hpiece => by simp only [hpiece]

theorem checkRange_eq_ok : checkRange count p is = .ok () ↔ ∀ i ∈ is, i < count := by
  rw [checkRange]
  split
  · next i hi =>
    refine iff_of_false (by simp) fun h => ?_
    have hle : count ≤ i := by simpa using List.find?_some hi
    exact absurd (h i (List.mem_of_find?_eq_some hi)) (Nat.not_lt.mpr hle)
  · next h => simpa using h

theorem dropWhile_opening (hb : Blank b) :
    (b ++ '(' :: r).dropWhile Cursor.isBlank = '(' :: r :=
  dropWhile_append_stop hb (by simp [Cursor.isBlank])

/-- The parenthesis that opens a list is the next character that is no blank. -/
theorem readOpening_spec (hc : c.Before line tail) :
    (∃ e, readOpening f c = .error e ∧ ∀ b r, Blank b → line ≠ b ++ '(' :: r) ∨
      ∃ b r d, readOpening f c = .ok (d.position, d) ∧ Blank b ∧ line = b ++ '(' :: r ∧
        d.Before r tail := by
  obtain ⟨-, hskip⟩ := hc.skipWhile (p := Cursor.isBlank) (by decide)
  have hsplit := List.takeWhile_append_dropWhile (p := Cursor.isBlank) (l := line)
  simp only [readOpening, Cursor.skipBlanks, Cursor.peek, hskip.rest_eq]
  cases hrest : line.dropWhile Cursor.isBlank with
  | nil =>
    have hne (b r : List Char) (hb : Blank b) : line ≠ b ++ '(' :: r := fun hline => by
      simp [hline, dropWhile_opening hb] at hrest
    cases tail with
    | nil => exact .inl ⟨_, rfl, hne⟩
    | cons y tail =>
      obtain rfl : y = '\n' := hc.tail_break y rfl
      exact .inl ⟨_, rfl, hne⟩
  | cons y r =>
    by_cases hy : y = '('
    · subst hy
      rw [hrest] at hsplit hskip
      exact .inr ⟨_, r, _, rfl, List.all_eq_true.mp List.all_takeWhile, hsplit.symm, hskip.next⟩
    · have hne (b r' : List Char) (hb : Blank b) : line ≠ b ++ '(' :: r' := fun hline => by
        rw [hline, dropWhile_opening hb] at hrest
        exact hy (List.cons.inj hrest).1.symm
      by_cases hbreak : y = '\n' <;> exact .inl ⟨_, by simp [hy, hbreak]; rfl, hne⟩

theorem reads_readList : Reads (readList f) Prod.snd ListAt where
  sound {c d line tail a} hc hread := by
    simp only [readList, bind_eq_ok] at hread
    obtain ⟨⟨p, c₁⟩, hopen, hread⟩ := hread
    rcases readOpening_spec (f := f) hc with ⟨e, he, -⟩ | ⟨b, r, c₂, hok, hb, rfl, hc₂⟩
    · rw [he] at hopen
      cases hopen
    · obtain ⟨rfl, rfl⟩ := Prod.mk.inj (Except.ok.inj (hok.symm.trans hopen))
      rcases hc₂.nextUntil (x := ')') (by decide) with
        ⟨-, e, hnone⟩ | ⟨inside, r, d', hsome, rfl, hclose, hd'⟩
      · rw [hnone] at hread
        cases hread
      · simp only [hsome, bind_eq_ok] at hread
        obtain ⟨is, his, hread⟩ := hread
        cases hread
        exact ⟨r, ⟨b, inside, rfl, hb, hclose, indices_eq_ok.mp his⟩, hd'⟩
  complete {c line tail r is} hc hlist := by
    obtain ⟨b, inside, rfl, hb, hclose, his⟩ := hlist
    rcases readOpening_spec (f := f) hc with ⟨e, -, hne⟩ | ⟨b', r', c₂, hok, hb', hline, hc₂⟩
    · exact absurd rfl (hne b _ hb)
    · have hdrop := dropWhile_opening (r := inside ++ ')' :: r) hb
      rw [hline, dropWhile_opening hb'] at hdrop
      obtain rfl := (List.cons.inj hdrop).2
      rcases hc₂.nextUntil (x := ')') (by decide) with
        ⟨hnone, -⟩ | ⟨inside', r', d, hsome, hinside, hclose', hd⟩
      · exact absurd (by simp) hnone
      · obtain ⟨rfl, rfl⟩ := append_cons_unique hclose hclose' hinside
        refine ⟨(c₂.position, is), d, ?_, rfl, hd⟩
        refine bind_eq_ok.mpr ⟨_, hok, ?_⟩
        simp only [hsome]
        exact bind_eq_ok.mpr ⟨is, indices_eq_ok.mpr his, rfl⟩

/-! ### The whole line -/

theorem WordAt.append_blank (hy : Cursor.isBlank y) (h : WordAt l x r) (rest : List Char) :
    WordAt (l ++ y :: rest) x (r ++ y :: rest) := by
  obtain ⟨b, rfl, hb, hne, hx, hr⟩ := h
  refine ⟨b, by simp, hb, hne, hx, ?_⟩
  cases r with
  | nil => simpa using hy
  | cons z r => exact hr

theorem WordAt.of_append_blank {rest : List Char} (h : WordAt line x (r ++ y :: rest)) :
    ∃ l, line = l ++ y :: rest ∧ WordAt l x r := by
  obtain ⟨b, rfl, hb, hne, hx, hr⟩ := h
  refine ⟨b ++ (x ++ r), by simp, b, rfl, hb, hne, hx, ?_⟩
  cases r with
  | nil => simp
  | cons z r => exact hr

theorem readLineEnd_spec (hc : c.Before line tail) :
    (¬Blank line ∧ ∃ e, readLineEnd c = .error e) ∨
      (Blank line ∧ ∃ d, readLineEnd c = .ok d ∧ d.rest = tail.drop 1) := by
  rw [readLineEnd]
  rcases hc.nextWord with ⟨hblank, d, hnext, hd⟩ | ⟨w, r, d, hnext, hword, -⟩
  · rw [hnext]
    exact .inr ⟨hblank, d.next, rfl, hd.next_rest⟩
  · rw [hnext]
    exact .inl ⟨hword.not_blank, _, rfl⟩

/-- A header line is what the readers of the fields follow, one after the other. -/
theorem headerLine_iff : HeaderLine line h ↔ ∃ r₁ r₂ r₃ r₄ r₅ r₆,
    FieldAt (fun x k => x = k.text.toList) line h.kind r₁ ∧
      FieldAt (fun x n => Text.numeral? x = some n) r₁ h.stateCount r₂ ∧
      FieldAt (fun x n => Text.numeral? x = some n) r₂ h.transitionCount r₃ ∧
      ListAt r₃ h.initial r₄ ∧ h.initial ≠ [] ∧ ListAt r₄ h.finals r₅ ∧
      (∀ i ∈ h.initial ++ h.finals, i < h.stateCount) ∧
      FieldAt (fun x a => a = .ofList x) r₅ h.alphabet r₆ ∧ Blank r₆ := by
  constructor
  · rintro @⟨_, _, _, _, _, _, _, _, _, gap, hfront, hgap, hstates, htransitions, hi, his, hne, hb,
      hf, hfs, hrange, hback, halphabet⟩
    obtain ⟨f₁, hkind, hfront⟩ := wordsOf_eq_cons.mp hfront
    obtain ⟨f₂, hs, hfront⟩ := wordsOf_eq_cons.mp hfront
    obtain ⟨f₃, ht, hblank⟩ := wordsOf_singleton.mp hfront
    obtain ⟨r₆, hletters, hend⟩ := wordsOf_singleton.mp hback
    refine ⟨_, _, _, _, _, r₆, ⟨_, hkind.append_blank hgap _, rfl⟩,
      ⟨_, hs.append_blank hgap _, hstates⟩, ⟨_, ht.append_blank hgap _, htransitions⟩,
      ⟨f₃ ++ [gap], _, ?_, ?_, hi, his⟩, hne, ⟨_, _, rfl, hb, hf, hfs⟩, hrange,
      ⟨_, hletters, halphabet⟩, hend⟩
    · simp
    · exact blank_append.mpr ⟨hblank, by simpa using hgap⟩
  · rintro ⟨r₁, r₂, r₃, r₄, r₅, r₆, ⟨_, hkind, rfl⟩, ⟨s, hs, hstates⟩, ⟨t, ht, htransitions⟩,
      ⟨b, initial, rfl, hb, hi, his⟩, hne, ⟨between, finals, rfl, hbetween, hf, hfs⟩, hrange,
      ⟨letters, hletters, halphabet⟩, hend⟩
    -- the third word ends at a blank, so there is one before the parenthesis
    obtain rfl | ⟨b, gap, rfl⟩ := List.eq_nil_or_concat' b
    · obtain ⟨-, -, -, -, -, hhead⟩ := ht
      exact absurd (hhead '(' rfl) (by decide)
    obtain ⟨hb, hgap⟩ := blank_append.mp hb
    rw [List.append_assoc, List.singleton_append] at ht
    obtain ⟨f₂, rfl, htrans⟩ := ht.of_append_blank
    obtain ⟨f₁, rfl, hstate⟩ := hs.of_append_blank
    obtain ⟨front, rfl, hword⟩ := hkind.of_append_blank
    have hfront : wordsOf front = [h.kind.text.toList, s, t] :=
      wordsOf_eq_cons.mpr ⟨f₁, hword, wordsOf_eq_cons.mpr
        ⟨f₂, hstate, wordsOf_singleton.mpr ⟨b, htrans, hb⟩⟩⟩
    exact .intro hfront (hgap gap (List.mem_singleton_self gap)) hstates htransitions hi his hne
      hbetween hf hfs hrange (wordsOf_singleton.mpr ⟨r₆, hletters, hend⟩) halphabet

theorem readHeader_eq_ok : readHeader c = .ok (h, d) ↔ ∃ c₁ c₂ c₃ p c₄ q c₅ w c₆,
    readKind c.skipBlankLines = .ok (h.kind, c₁) ∧
      readCount .stateCount c₁ = .ok (h.stateCount, c₂) ∧
      readCount .transitionCount c₂ = .ok (h.transitionCount, c₃) ∧
      readList .initialStates c₃ = .ok ((p, h.initial), c₄) ∧ h.initial ≠ [] ∧
      readList .finalStates c₄ = .ok ((q, h.finals), c₅) ∧
      (∀ i ∈ h.initial ++ h.finals, i < h.stateCount) ∧
      readWord .alphabet c₅ = .ok (w, c₆) ∧ h.alphabet = .ofList w.letters ∧
      readLineEnd c₆ = .ok d := by
  simp only [readHeader, bind_eq_ok, Prod.exists, List.forall_mem_append]
  constructor
  · rintro ⟨k, c₁, hk, n, c₂, hn, m, c₃, hm, p, is, c₄, hi, hread⟩
    split at hread
    · cases hread
    · next hne =>
      simp only [bind_eq_ok, Prod.exists] at hread
      obtain ⟨q, fs, c₅, hf, _, hri, _, hrf, w, c₆, hw, d', hd, hread⟩ := hread
      obtain ⟨rfl, rfl⟩ := Prod.mk.inj (Except.ok.inj hread)
      exact ⟨c₁, c₂, c₃, p, c₄, q, c₅, w, c₆, hk, hn, hm, hi, hne, hf,
        ⟨checkRange_eq_ok.mp hri, checkRange_eq_ok.mp hrf⟩, hw, rfl, hd⟩
  · rintro ⟨c₁, c₂, c₃, p, c₄, q, c₅, w, c₆, hk, hn, hm, hi, hne, hf, ⟨hri, hrf⟩, hw, ha, hd⟩
    refine ⟨_, c₁, hk, _, c₂, hn, _, c₃, hm, p, _, c₄, hi, ?_⟩
    rw [if_neg hne]
    simp only [bind_eq_ok, Prod.exists]
    refine ⟨q, _, c₅, hf, (), checkRange_eq_ok.mpr hri, (), checkRange_eq_ok.mpr hrf,
      w, c₆, hw, d, hd, ?_⟩
    rw [← ha]
    rfl

/-- **The header.** What is read is the header on the first line that is not blank, and the lines
behind it are left. -/
theorem readHeader_iff {rest : List (List Char)} :
    (∃ d, readHeader c = .ok (h, d) ∧ contentLines d.rest = rest) ↔
      ∃ line, contentLines c.rest = line :: rest ∧ HeaderLine line h := by
  simp only [readHeader_eq_ok, headerLine_iff]
  rcases c.skipBlankLines_spec with ⟨hend, hnil⟩ | ⟨line, tail, hbefore, -, hlines⟩
  · rw [hnil]
    refine iff_of_false ?_ (by simp)
    rintro ⟨d, ⟨c₁, -, -, -, -, -, -, -, -, hkind, -⟩, -⟩
    have hc : c.skipBlankLines.Before [] [] := ⟨hend, by simp, by simp⟩
    obtain ⟨r, ⟨x, hword, -⟩, -⟩ := reads_readKind.sound hc hkind
    exact hword.not_blank blank_nil
  · rw [hlines]
    constructor
    · rintro ⟨d, ⟨c₁, c₂, c₃, p, c₄, q, c₅, w, c₆, hk, hn, hm, hi, hne, hf, hrange, hw, ha, hd⟩,
        rfl⟩
      obtain ⟨r₁, hk, hc₁⟩ := reads_readKind.sound hbefore hk
      obtain ⟨r₂, hn, hc₂⟩ := reads_readCount.sound hc₁ hn
      obtain ⟨r₃, hm, hc₃⟩ := reads_readCount.sound hc₂ hm
      obtain ⟨r₄, hi, hc₄⟩ := reads_readList.sound hc₃ hi
      obtain ⟨r₅, hf, hc₅⟩ := reads_readList.sound hc₄ hf
      obtain ⟨r₆, hw, hc₆⟩ := reads_readWord.sound hc₅ hw
      rcases readLineEnd_spec hc₆ with ⟨-, e, he⟩ | ⟨hblank, d', hd', hrest⟩
      · rw [he] at hd
        cases hd
      · obtain rfl := Except.ok.inj (hd'.symm.trans hd)
        exact ⟨line, by rw [hrest],
          r₁, r₂, r₃, r₄, r₅, r₆, hk, hn, hm, hi, hne, hf, hrange, ha ▸ hw, hblank⟩
    · rintro ⟨line', hl, r₁, r₂, r₃, r₄, r₅, r₆, hk, hn, hm, hi, hne, hf, hrange, hw, hblank⟩
      obtain ⟨rfl, hleft⟩ := List.cons.inj hl
      obtain ⟨_, c₁, hk, rfl, hc₁⟩ := reads_readKind.complete hbefore hk
      obtain ⟨_, c₂, hn, rfl, hc₂⟩ := (reads_readCount (f := .stateCount)).complete hc₁ hn
      obtain ⟨_, c₃, hm, rfl, hc₃⟩ := (reads_readCount (f := .transitionCount)).complete hc₂ hm
      obtain ⟨⟨p, _⟩, c₄, hi, rfl, hc₄⟩ := (reads_readList (f := .initialStates)).complete hc₃ hi
      obtain ⟨⟨q, _⟩, c₅, hf, rfl, hc₅⟩ := (reads_readList (f := .finalStates)).complete hc₄ hf
      obtain ⟨w, c₆, hw, ha, hc₆⟩ := (reads_readWord (f := .alphabet)).complete hc₅ hw
      rcases readLineEnd_spec hc₆ with ⟨hnot, -⟩ | ⟨-, d, hd, hrest⟩
      · exact absurd hblank hnot
      · exact ⟨d, ⟨c₁, c₂, c₃, p, c₄, q, c₅, w, c₆, hk, hn, hm, hi, hne, hf, hrange, hw, ha.symm,
          hd⟩, hrest ▸ hleft⟩

end Description

end Acceptor
