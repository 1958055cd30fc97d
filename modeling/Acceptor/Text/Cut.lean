/-!
# Cutting texts

A text cut at a character falls into the pieces between its occurrences, one more than there are
occurrences. The lines of a text are its pieces at line breaks, where a line break may be preceded
by a carriage return and a text need not end in one.

## Main results

* `Text.cut_cons_self`, `Text.cut_cons_of_ne`: how the pieces go on with one more character.
* `Text.intercalate_cut`, `Text.cut_intercalate`: the pieces with the separator between them are
  the text.
* `Text.not_mem_of_mem_cut`: no piece holds the separator.
* `Text.cut_of_not_mem`, `Text.cut_front`, `Text.cut_append_sep`, `Text.cut_append`: the pieces of a
  text, from its front.
* `Text.infix_of_mem_cut`: a piece is a part of the text.
* `Text.length_cut`, `Text.length_le_of_mem_cut`: how many pieces there are, and how long they are.
-/

namespace Acceptor

namespace Text

/-- The pieces of a text between the occurrences of `sep`. -/
def cut (sep : Char) : List Char → List (List Char)
  | [] => [[]]
  | c :: cs =>
    if c = sep then [] :: cut sep cs
    else
      match cut sep cs with
      | [] => [[c]]
      | p :: ps => (c :: p) :: ps

@[simp] theorem cut_nil (sep : Char) : cut sep [] = [[]] := rfl

@[simp] theorem cut_cons_self (sep : Char) (cs : List Char) :
    cut sep (sep :: cs) = [] :: cut sep cs :=
  if_pos rfl

theorem cut_ne_nil (sep : Char) (cs : List Char) : cut sep cs ≠ [] := by
  cases cs with
  | nil => simp
  | cons c cs =>
    rw [cut]
    split
    · simp
    · split <;> simp

theorem cut_cons_of_ne {sep c : Char} (h : c ≠ sep) (cs : List Char) :
    ∃ p ps, cut sep cs = p :: ps ∧ cut sep (c :: cs) = (c :: p) :: ps := by
  obtain ⟨p, ps, hp⟩ := List.exists_cons_of_ne_nil (cut_ne_nil sep cs)
  refine ⟨p, ps, hp, ?_⟩
  rw [cut, if_neg h, hp]

theorem intercalate_cut (sep : Char) (cs : List Char) : [sep].intercalate (cut sep cs) = cs := by
  induction cs with
  | nil => rfl
  | cons c cs ih =>
    by_cases h : c = sep
    · subst h
      obtain ⟨p, ps, hp⟩ := List.exists_cons_of_ne_nil (cut_ne_nil c cs)
      rw [hp] at ih
      rw [cut_cons_self, hp, ← ih]
      simp [List.intercalate]
    · obtain ⟨p, ps, hp, hcut⟩ := cut_cons_of_ne h cs
      rw [hp] at ih
      rw [hcut, ← ih]
      cases ps <;> simp [List.intercalate]

theorem not_mem_of_mem_cut {sep : Char} {cs p : List Char} (h : p ∈ cut sep cs) : sep ∉ p := by
  induction cs generalizing p with
  | nil => simp_all
  | cons c cs ih =>
    by_cases hc : c = sep
    · subst hc
      rw [cut_cons_self, List.mem_cons] at h
      rcases h with rfl | h
      · simp
      · exact ih h
    · obtain ⟨q, qs, hq, hcut⟩ := cut_cons_of_ne hc cs
      rw [hcut, List.mem_cons] at h
      rw [hq] at ih
      rcases h with rfl | h
      · have hrest := ih (List.mem_cons_self ..)
        simp [hrest, Ne.symm hc]
      · exact ih (List.mem_cons_of_mem q h)

theorem cut_of_not_mem {sep : Char} {cs : List Char} (h : sep ∉ cs) : cut sep cs = [cs] := by
  induction cs with
  | nil => rfl
  | cons c cs ih =>
    rw [List.mem_cons, not_or] at h
    obtain ⟨hc, hcs⟩ := h
    obtain ⟨p, ps, hp, hcut⟩ := cut_cons_of_ne (Ne.symm hc) cs
    obtain ⟨rfl, rfl⟩ := List.cons.inj (hp.symm.trans (ih hcs))
    exact hcut

/-- A front without the separator goes to the first piece. -/
theorem cut_front {sep : Char} {front : List Char} (h : sep ∉ front) (cs : List Char) :
    ∃ p ps, cut sep cs = p :: ps ∧ cut sep (front ++ cs) = (front ++ p) :: ps := by
  induction front with
  | nil =>
    obtain ⟨p, ps, hp⟩ := List.exists_cons_of_ne_nil (cut_ne_nil sep cs)
    exact ⟨p, ps, hp, hp⟩
  | cons c front ih =>
    rw [List.mem_cons, not_or] at h
    obtain ⟨p, ps, hp, hfront⟩ := ih h.2
    obtain ⟨q, qs, hq, hcut⟩ := cut_cons_of_ne (Ne.symm h.1) (front ++ cs)
    obtain ⟨rfl, rfl⟩ := List.cons.inj (hfront.symm.trans hq)
    exact ⟨p, ps, hp, hcut⟩

theorem cut_append_sep (sep : Char) (cs rest : List Char) :
    cut sep (cs ++ sep :: rest) = cut sep cs ++ cut sep rest := by
  induction cs with
  | nil => simp
  | cons c cs ih =>
    rw [List.cons_append]
    by_cases h : c = sep
    · subst h
      rw [cut_cons_self, cut_cons_self, ih, List.cons_append]
    · obtain ⟨p, ps, hp, hcut⟩ := cut_cons_of_ne h cs
      obtain ⟨q, qs, hq, hcut'⟩ := cut_cons_of_ne h (cs ++ sep :: rest)
      rw [ih, hp, List.cons_append] at hq
      obtain ⟨rfl, rfl⟩ := List.cons.inj hq
      rw [hcut, hcut', List.cons_append]

theorem cut_append {sep : Char} {cs : List Char} (h : sep ∉ cs) (rest : List Char) :
    cut sep (cs ++ sep :: rest) = cs :: cut sep rest := by
  rw [cut_append_sep, cut_of_not_mem h, List.singleton_append]

/-- Pieces without the separator are the pieces of the text that they make up. -/
theorem cut_intercalate {sep : Char} {pieces : List (List Char)} (hne : pieces ≠ [])
    (h : ∀ p ∈ pieces, sep ∉ p) : cut sep ([sep].intercalate pieces) = pieces := by
  induction pieces with
  | nil => exact absurd rfl hne
  | cons p ps ih =>
    obtain ⟨hp, hps⟩ := List.forall_mem_cons.mp h
    cases ps with
    | nil => simpa [List.intercalate] using cut_of_not_mem hp
    | cons q qs =>
      have hsplit : [sep].intercalate (p :: q :: qs) = p ++ sep :: [sep].intercalate (q :: qs) := by
        simp [List.intercalate]
      rw [hsplit, cut_append hp, ih (List.cons_ne_nil q qs) hps]

theorem length_cut (sep : Char) (cs : List Char) : (cut sep cs).length = cs.count sep + 1 := by
  induction cs with
  | nil => rfl
  | cons c cs ih =>
    by_cases h : c = sep
    · subst h
      rw [cut_cons_self, List.length_cons, ih, List.count_cons_self]
    · obtain ⟨p, ps, hp, hcut⟩ := cut_cons_of_ne h cs
      rw [hp, List.length_cons] at ih
      rw [hcut, List.length_cons, ih, List.count_cons_of_ne h]

theorem infix_intercalate {sep p : List Char} {pieces : List (List Char)} (h : p ∈ pieces) :
    p <:+: sep.intercalate pieces := by
  induction pieces with
  | nil => simp at h
  | cons q qs ih =>
    cases qs with
    | nil => simp_all
    | cons r rs =>
      rw [List.intercalate_cons_cons, List.append_assoc]
      rcases List.mem_cons.mp h with rfl | h
      · exact (List.prefix_append p _).isInfix
      · exact (ih h).trans ((List.suffix_append sep _).isInfix.trans (List.suffix_append q _).isInfix)

theorem infix_of_mem_cut {sep : Char} {cs p : List Char} (h : p ∈ cut sep cs) : p <:+: cs := by
  have hp : p <:+: [sep].intercalate (cut sep cs) := infix_intercalate h
  rwa [intercalate_cut] at hp

theorem length_le_of_mem_cut {sep : Char} {cs p : List Char} (h : p ∈ cut sep cs) :
    p.length ≤ cs.length :=
  (infix_of_mem_cut h).length_le

/-- A line without the carriage return before its line break. -/
def chomp (line : List Char) : List Char :=
  if line.getLast? = some '\r' then line.dropLast else line

/-- The lines among the pieces of a text: the last piece has no line break after it, and is no line
if it is empty. -/
def linesOf : List (List Char) → List (List Char)
  | [] => []
  | [last] => if last = [] then [] else [last]
  | line :: rest => chomp line :: linesOf rest

/-- The lines of a text, without their ends. -/
def lines (cs : List Char) : List (List Char) := linesOf (cut '\n' cs)

end Text

end Acceptor
