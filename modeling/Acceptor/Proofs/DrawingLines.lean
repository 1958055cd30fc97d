import Acceptor.Drawing.Lines
import Std.Data.String.ToNat

/-!
# Drawings are read in one way

Two sequences of lines with the same text are the same. It is enough that the text of one line can be
told from what follows it: numbers are followed by no digit, and in quotes a quote always has a
backslash before it, so the quote that ends a text is the first one without.

A quoted text may hold line breaks, so the pieces of a drawing between line breaks are more than its
lines. A piece that begins inside quotes is never taken for an arrow: an arrow begins with text that
has a quote between two blanks, which inside quotes no text has.

## Main results

* `Drawing.textOf_inj`: sequences of lines with the same text are the same.
* `Drawing.arrowCount_textOf`: what begins as an arrow between two ids is an arrow between them.
-/

namespace Acceptor

namespace Drawing

variable {a b q r : Nat} {s t : String} {cs ds us vs : List Char}

/-! ### Numbers -/

theorem isDigit_of_mem_toDigits {c : Char} (h : c ∈ Nat.toDigits 10 a) : c.isDigit = true :=
  Nat.isDigit_of_mem_toDigits (by decide) (Nat.le_refl 10) h

theorem takeWhile_toDigits {c : Char} (hc : c.isDigit = false) :
    (Nat.toDigits 10 a ++ c :: cs).takeWhile Char.isDigit = Nat.toDigits 10 a := by
  rw [List.takeWhile_append_of_pos fun _ => isDigit_of_mem_toDigits,
    List.takeWhile_cons_of_neg (by simp [hc]), List.append_nil]

theorem toDigits_append_inj {c d : Char} (hc : c.isDigit = false) (hd : d.isDigit = false) :
    Nat.toDigits 10 a ++ c :: cs = Nat.toDigits 10 b ++ d :: ds ↔ a = b ∧ c = d ∧ cs = ds := by
  constructor
  · intro h
    have hdigits := congrArg (List.takeWhile Char.isDigit) h
    rw [takeWhile_toDigits hc, takeWhile_toDigits hd] at hdigits
    rw [← Nat.toList_repr, ← Nat.toList_repr, String.toList_inj, Nat.repr_inj] at hdigits
    subst hdigits
    exact ⟨rfl, List.cons.inj (List.append_cancel_left h)⟩
  · rintro ⟨rfl, rfl, rfl⟩
    rfl

/-! ### Quoted texts -/

/-- How one character is written inside quotes. -/
def escapeChar (c : Char) : List Char :=
  if c = '\\' then ['\\', '\\'] else if c = '"' then ['\\', '"'] else [c]

theorem toList_escape : (escape s).toList = s.toList.flatMap escapeChar := by
  rw [escape, String.toList_join, List.flatMap_map]
  refine congrArg (List.flatMap · s.toList) (funext fun c => ?_)
  rw [escapeChar]
  split
  · rfl
  · split
    · rfl
    · exact String.toList_singleton c

theorem escapeChar_append_inj {c d : Char} :
    escapeChar c ++ cs = escapeChar d ++ ds ↔ c = d ∧ cs = ds := by
  grind [escapeChar]

theorem escapeChar_append_ne {c : Char} : escapeChar c ++ cs ≠ '"' :: ds := by
  grind [escapeChar]

theorem flatMap_escapeChar_append_inj :
    us.flatMap escapeChar ++ '"' :: cs = vs.flatMap escapeChar ++ '"' :: ds ↔
      us = vs ∧ cs = ds := by
  induction us generalizing vs with
  | nil =>
    cases vs with
    | nil => simp
    | cons v vs => simpa using escapeChar_append_ne.symm
  | cons u us ih =>
    cases vs with
    | nil => simpa using escapeChar_append_ne
    | cons v vs => simp [escapeChar_append_inj, ih, and_assoc]

theorem escape_append_inj :
    (escape s).toList ++ '"' :: cs = (escape t).toList ++ '"' :: ds ↔ s = t ∧ cs = ds := by
  rw [toList_escape, toList_escape, flatMap_escapeChar_append_inj, String.toList_inj]

/-! ### Lines -/

theorem toList_start (i : Nat) :
    (start i).toList = "__start".toList ++ (Nat.toDigits 10 i ++ "__".toList) := by
  rw [← Nat.toList_repr, ← String.toList_append, ← String.toList_append, ← String.append_assoc]
  rfl

theorem toList_node (q : Nat) : (node q).toList = 'q' :: Nat.toDigits 10 q := by
  have h : node q = "q" ++ q.repr := rfl
  rw [h, String.toList_append, Nat.toList_repr]
  rfl

theorem shape_append_inj {e f : Bool} :
    (if e = true then "doublecircle" else "circle").toList ++ ']' :: cs =
      (if f = true then "doublecircle" else "circle").toList ++ ']' :: ds ↔ e = f ∧ cs = ds := by
  cases e <;> cases f <;> simp

/-- The text of a line tells where the line ends and which line it is. -/
theorem Line.text_append_inj {l k : Line} :
    l.text.toList ++ '\n' :: cs = k.text.toList ++ '\n' :: ds ↔ l = k ∧ cs = ds := by
  -- Lines of different forms differ before any quoted text, at the latest between their first number
  -- and what follows it. In lines of one form the data are read off from the front.
  cases l <;> cases k <;>
    simp [Line.text, toList_start, toList_node, toDigits_append_inj, escape_append_inj,
      shape_append_inj, and_assoc]

theorem toList_textOf_cons (l : Line) (ls : List Line) :
    (textOf (l :: ls)).toList = l.text.toList ++ '\n' :: (textOf ls).toList := by
  rw [textOf_cons, String.toList_append, String.toList_append, List.append_assoc]
  rfl

/-- **Lines are read in one way.** Sequences of lines with the same text are the same. -/
theorem textOf_inj {ls ks : List Line} : textOf ls = textOf ks ↔ ls = ks := by
  refine ⟨fun h => ?_, congrArg textOf⟩
  induction ls generalizing ks with
  | nil =>
    cases ks with
    | nil => rfl
    | cons k ks => simpa [toList_textOf_cons, textOf] using congrArg String.toList h
  | cons l ls ih =>
    cases ks with
    | nil => simpa [toList_textOf_cons, textOf] using congrArg String.toList h
    | cons k ks =>
      have htext := congrArg String.toList h
      rw [toList_textOf_cons, toList_textOf_cons, Line.text_append_inj, String.toList_inj] at htext
      rw [htext.1, ih htext.2]

/-! ### Arrows -/

theorem not_prefix_quoted {c : Char} (hc : c ≠ ' ') :
    ¬['"', ' '] <+: us.flatMap escapeChar ++ '"' :: c :: cs := by
  cases us with
  | nil => simpa using hc.symm
  | cons u us =>
    rintro ⟨ds, hds⟩
    rw [List.flatMap_cons, List.append_assoc] at hds
    exact escapeChar_append_ne hds.symm

/-- No quote stands between two blanks in the rest of a line, from a place inside quotes. -/
theorem not_infix_quoted {c : Char} (hc : c ≠ ' ') (hquote : '"' ∉ c :: cs) :
    ¬[' ', '"', ' '] <:+: us.flatMap escapeChar ++ '"' :: c :: cs := by
  induction us with
  | nil =>
    intro h
    rcases List.infix_cons_iff.mp h with h | h
    · simp at h
    · exact hquote (h.subset (by simp))
  | cons u us ih =>
    have hblank : ¬[' ', '"', ' '] <:+: u :: (us.flatMap escapeChar ++ '"' :: c :: cs) := by
      simp [List.infix_cons_iff, ih, not_prefix_quoted hc]
    rw [List.flatMap_cons, List.append_assoc, escapeChar]
    split
    · simp [List.infix_cons_iff, ih]
    · split
      · simp [List.infix_cons_iff, ih]
      · exact hblank

theorem toList_arrowStart (q r : Nat) : (arrowStart q r).toList =
    '\t' :: 'q' :: (Nat.toDigits 10 q ++ " -> q".toList ++
      (Nat.toDigits 10 r ++ " [label = \" ".toList)) := by
  simp [arrowStart, toList_node]

theorem arrowStart_prefix_iff : (arrowStart a b).toList <+: (arrowStart q r).toList ++ cs ↔
    a = q ∧ b = r := by
  constructor
  · rintro ⟨ds, h⟩
    have h : a = q ∧ b = r ∧ ds = cs := by
      simpa [toList_arrowStart, toDigits_append_inj] using h
    exact ⟨h.1, h.2.1⟩
  · rintro ⟨rfl, rfl⟩
    exact List.prefix_append _ cs

theorem not_arrowStart_prefix {c : Char} (hc : c ≠ ' ') (hquote : '"' ∉ c :: cs)
    (h : ds <:+: us.flatMap escapeChar ++ '"' :: c :: cs) : ¬(arrowStart q r).toList <+: ds := by
  intro hstart
  have hblank : [' ', '"', ' '] <:+ (arrowStart q r).toList := by
    refine ⟨'\t' :: 'q' :: (Nat.toDigits 10 q ++ " -> q".toList ++
      (Nat.toDigits 10 r ++ " [label =".toList)), ?_⟩
    simp [toList_arrowStart]
  exact not_infix_quoted hc hquote (hblank.isInfix.trans (hstart.isInfix.trans h))

/-- Of the pieces of a line with a quoted text, only the first one can begin as an arrow. -/
theorem exists_arrowCount_eq {c : Char} (hbreak : '\n' ∉ ds)
    (htext : s.toList = ds ++ (us.flatMap escapeChar ++ '"' :: c :: cs)) (hc : c ≠ ' ')
    (hquote : '"' ∉ c :: cs) :
    ∃ p, arrowCount s q r = if (arrowStart q r).toList <+: ds ++ p then 1 else 0 := by
  obtain ⟨p, ps, hp, hcut⟩ := Text.cut_front hbreak (us.flatMap escapeChar ++ '"' :: c :: cs)
  have hrest : ps.countP ((arrowStart q r).toList.isPrefixOf ·) = 0 := by
    refine List.countP_eq_zero.mpr fun piece hpiece => ?_
    have hmem : piece ∈ Text.cut '\n' (us.flatMap escapeChar ++ '"' :: c :: cs) := by
      rw [hp]
      exact List.mem_cons_of_mem p hpiece
    rw [List.isPrefixOf_iff_prefix]
    exact not_arrowStart_prefix hc hquote (Text.infix_of_mem_cut hmem)
  refine ⟨p, ?_⟩
  rw [arrowCount, htext, hcut, List.countP_cons, hrest]
  simp only [List.isPrefixOf_iff_prefix, Nat.zero_add]

theorem arrowCount_of_not_mem (hbreak : '\n' ∉ s.toList)
    (hstart : ¬(arrowStart q r).toList <+: s.toList) : arrowCount s q r = 0 := by
  rw [arrowCount, Text.cut_of_not_mem hbreak]
  simpa using hstart

theorem break_not_mem_toDigits : '\n' ∉ Nat.toDigits 10 a := by
  intro h
  simpa using isDigit_of_mem_toDigits h

theorem arrowCount_node {name : String} {final : Bool} :
    arrowCount (Line.node a name final).text q r = 0 := by
  have htext : (Line.node a name final).text.toList =
      '\t' :: 'q' :: (Nat.toDigits 10 a ++ " [label = \"".toList) ++
        (name.toList.flatMap escapeChar ++ '"' :: ',' ::
          (" shape = " ++ (if final then "doublecircle" else "circle") ++ "];").toList) := by
    simp [Line.text, toList_node, toList_escape]
  obtain ⟨p, hp⟩ := exists_arrowCount_eq (q := q) (r := r) (by simp [break_not_mem_toDigits]) htext
    (by decide) (by cases final <;> simp)
  rw [hp, if_neg]
  rintro ⟨ds, h⟩
  simp [toList_arrowStart, toDigits_append_inj] at h

theorem arrowCount_arrow {label : String} :
    arrowCount (Line.arrow a b label).text q r = if a = q ∧ b = r then 1 else 0 := by
  have htext : (Line.arrow a b label).text.toList =
      (arrowStart a b).toList ++ (label.toList.flatMap escapeChar ++ '"' :: ']' :: []) := by
    simp [Line.text, toList_node, toList_escape, toList_arrowStart]
  obtain ⟨p, hp⟩ := exists_arrowCount_eq (q := q) (r := r)
    (by simp [toList_arrowStart, break_not_mem_toDigits]) htext (by decide) (by decide)
  simp only [hp, arrowStart_prefix_iff, eq_comm (a := q), eq_comm (a := r)]

theorem arrowCount_text (l : Line) :
    arrowCount l.text q r = if l.ends? = some (q, r) then 1 else 0 := by
  cases l with
  | node a name final => exact arrowCount_node
  | arrow a b label => simp [arrowCount_arrow, Line.ends?]
  | _ =>
    refine arrowCount_of_not_mem ?_ ?_ <;>
      simp [Line.text, toList_start, toList_node, toList_arrowStart, break_not_mem_toDigits]

/-- **Arrows can be counted in the text.** What begins there as an arrow between two ids is the line
of an arrow between them, whatever the names and labels are. -/
theorem arrowCount_textOf (ls : List Line) :
    arrowCount (textOf ls) q r = (ls.filterMap Line.ends?).count (q, r) := by
  induction ls with
  | nil => simp [arrowCount, textOf, toList_arrowStart]
  | cons l ls ih =>
    have hcons : arrowCount (textOf (l :: ls)) q r =
        arrowCount l.text q r + arrowCount (textOf ls) q r := by
      simp only [arrowCount, toList_textOf_cons, Text.cut_append_sep, List.countP_append]
    rw [hcons, arrowCount_text, ih, List.count_filterMap, List.count_filterMap, List.countP_cons]
    simp [Nat.add_comm]

end Drawing

end Acceptor
