import Acceptor.Loading
import Acceptor.Proofs.Conversions

/-!
# Quantifiers after quantifiers

A quantifier changes the last item read. After another `*` or `?` it changes the same item once
more, so that only the last of several quantifiers counts. After `+` it does not: `+` has left a
mandatory copy of the item below the one that is changed, and the copy stays. What comes later never
reaches below the last item, so all of this is independent of what stands before and after.

Words tell the two cases apart. The shortest word of a pattern has one character for each mandatory
item, and a mandatory copy makes it longer by one.

## Main results

* `Pattern.exists_pushAll`: reading on never looks below the last item.
* `Pattern.exists_parse_stacked`: what is read of two quantifiers in a row.
* `Pattern.shortest_le_length`, `Pattern.exists_shortest`: the length of the shortest words.
* `Automaton.stacked_agree_iff`: when a quantifier makes no difference before another.
-/

namespace Acceptor

namespace Label

theorem exists_reads {l : Label} (h : l ≠ .epsilon) : ∃ c, l.reads c := by
  cases l with
  | letter c => exact ⟨c, by simp⟩
  | any => exact ⟨'.', rfl⟩
  | epsilon => exact absurd rfl h

end Label

namespace Pattern

variable {stack next : List Item} {cs ds : List Char} {c q₁ q₂ : Char} {index : Nat} {x : Item}
  {xs : List Item} {w : List Char} {r : Pattern}

/-! ### Reading on -/

theorem push_atom (hc : isQuantifier c = false) :
    push stack index c = .ok (⟨atom c, .one⟩ :: stack) := by
  simp [push, hc]

theorem push_quantifier (hc : isQuantifier c) :
    push (x :: stack) index c = .ok (repeated c x ++ stack) := by
  simp [push, hc]

theorem pushAll_cons (h : push stack index c = .ok next) :
    pushAll stack index (c :: cs) = pushAll next (index + 1) cs := by
  simp [pushAll, h, Except.bind]

theorem pushAll_append (h : pushAll stack index cs = .ok next) :
    pushAll stack index (cs ++ ds) = pushAll next (index + cs.length) ds := by
  induction cs generalizing stack index with
  | nil =>
    cases h
    rfl
  | cons c cs ih =>
    rw [pushAll] at h
    cases hpush : push stack index c with
    | error e => simp [hpush, Except.bind] at h
    | ok top =>
      rw [List.cons_append, pushAll_cons hpush, ih (by simpa [hpush, Except.bind] using h),
        List.length_cons, Nat.add_assoc, Nat.add_comm 1]

theorem repeated_ne_nil (c : Char) (x : Item) : repeated c x ≠ [] := by
  rw [repeated]
  split
  · simp
  · split <;> simp

/-- One more character changes the last item or comes on top of it. -/
theorem exists_push (hstack : stack ≠ []) (c : Char) :
    ∃ next ≠ [], ∀ below index, push (stack ++ below) index c = .ok (next ++ below) := by
  obtain ⟨x, xs, rfl⟩ := List.exists_cons_of_ne_nil hstack
  cases hc : isQuantifier c with
  | false => exact ⟨⟨atom c, .one⟩ :: x :: xs, by simp, fun _ _ => push_atom hc⟩
  | true =>
    refine ⟨repeated c x ++ xs, by simp [repeated_ne_nil], fun below index => ?_⟩
    rw [List.cons_append, push_quantifier hc, List.append_assoc]

/-- Once there is an item, reading on succeeds whatever lies below it, and leaves that alone. -/
theorem exists_pushAll (hstack : stack ≠ []) (cs : List Char) :
    ∃ next ≠ [], ∀ below index, pushAll (stack ++ below) index cs = .ok (next ++ below) := by
  induction cs generalizing stack with
  | nil => exact ⟨stack, hstack, fun _ _ => rfl⟩
  | cons c cs ih =>
    obtain ⟨top, htop, hpush⟩ := exists_push hstack c
    obtain ⟨next, hnext, hrest⟩ := ih htop
    exact ⟨next, hnext, fun below index =>
      (pushAll_cons (hpush below index)).trans (hrest below (index + 1))⟩

/-! ### Two quantifiers in a row -/

/-- A quantifier looks at the label of an item only. -/
theorem repeated_count (c : Char) (x : Item) (n : Count) :
    repeated c { x with count := n } = repeated c x := rfl

theorem repeated_plus (x : Item) :
    repeated '+' x = [{ x with count := .many }, { x with count := .one }] := rfl

/-- All other quantifiers leave one item. -/
theorem exists_repeated (hc : isQuantifier c) (hplus : c ≠ '+') (x : Item) :
    ∃ n, repeated c x = [{ x with count := n }] := by
  have hcases : c = '*' ∨ c = '?' := by simpa [isQuantifier, hplus] using hc
  rcases hcases with rfl | rfl
  · exact ⟨.many, rfl⟩
  · exact ⟨.optional, rfl⟩

theorem parse_eq_ok {s : String} :
    parse s = .ok r ↔ pushAll [] 0 s.toList = .ok r.items.reverse := by
  rw [parse]
  obtain ⟨items⟩ := r
  cases pushAll [] 0 s.toList with
  | error e => simp [Except.map]
  | ok stack => simp [Except.map, List.reverse_eq_iff]

theorem parse_ofList_eq_ok :
    parse (.ofList cs) = .ok r ↔ pushAll [] 0 cs = .ok r.items.reverse := by
  rw [parse_eq_ok, String.toList_ofList]

/-- **What is read of an atom and two quantifiers,** between anything that can be read and anything
at all: the first quantifier counts only if it is `+`, and then as another atom before. -/
theorem exists_parse_stacked {p s : List Char} {x : Char} (hp : parse (.ofList p) = .ok r)
    (hx : isQuantifier x = false) (hq₁ : isQuantifier q₁) (hq₂ : isQuantifier q₂) :
    ∃ after : List Item,
      parse (.ofList (p ++ x :: q₂ :: s)) = .ok ⟨r.items ++ after⟩ ∧
      parse (.ofList (p ++ x :: x :: q₂ :: s)) = .ok ⟨r.items ++ ⟨atom x, .one⟩ :: after⟩ ∧
      parse (.ofList (p ++ x :: q₁ :: q₂ :: s)) =
        .ok ⟨r.items ++ if q₁ = '+' then ⟨atom x, .one⟩ :: after else after⟩ := by
  -- the three texts leave the same items on top, over what `p` leaves or over one more atom
  obtain ⟨next, -, hnext⟩ := exists_pushAll (repeated_ne_nil q₂ ⟨atom x, .one⟩) s
  have hpush := parse_ofList_eq_ok.mp hp
  refine ⟨next.reverse, ?_, ?_, ?_⟩
  all_goals rw [parse_ofList_eq_ok, pushAll_append hpush, pushAll_cons (push_atom hx)]
  · rw [pushAll_cons (push_quantifier hq₂), hnext]
    simp
  · rw [pushAll_cons (push_atom hx), pushAll_cons (push_quantifier hq₂), hnext]
    simp
  · rw [pushAll_cons (push_quantifier hq₁)]
    by_cases hplus : q₁ = '+'
    · subst hplus
      rw [repeated_plus, List.cons_append, pushAll_cons (push_quantifier hq₂), repeated_count,
        hnext]
      simp
    · obtain ⟨n, hn⟩ := exists_repeated hq₁ hplus ⟨atom x, .one⟩
      rw [hn, List.cons_append, List.nil_append, pushAll_cons (push_quantifier hq₂),
        repeated_count, hnext]
      simp [hplus]

/-! ### Shortest words -/

/-- The number of items that have to be read. -/
def shortest (xs : List Item) : Nat := xs.countP (·.count == .one)

theorem shortest_cons (x : Item) (xs : List Item) :
    shortest (x :: xs) = shortest xs + if x.count = .one then 1 else 0 := by
  simp [shortest, List.countP_cons]

theorem shortest_append (xs ys : List Item) :
    shortest (xs ++ ys) = shortest xs + shortest ys := List.countP_append

/-- Every word has a character for each item that has to be read. -/
theorem shortest_le_length (h : ItemsMatch xs w) : shortest xs ≤ w.length := by
  induction xs generalizing w with
  | nil => exact Nat.zero_le _
  | cons x xs ih =>
    obtain ⟨u, v, rfl, hu, hv⟩ := h
    have hrest := ih hv
    rw [shortest_cons, List.length_append]
    split
    · next hcount =>
      obtain ⟨c, rfl, -⟩ : ∃ c, u = [c] ∧ x.label.reads c := by
        simpa only [Item.Matches, hcount] using hu
      rw [List.length_singleton]
      omega
    · omega

/-- Some word has no other characters. -/
theorem exists_shortest (hlabels : ∀ x ∈ xs, x.label ≠ .epsilon) :
    ∃ w, ItemsMatch xs w ∧ w.length = shortest xs := by
  induction xs with
  | nil => exact ⟨[], rfl, rfl⟩
  | cons x xs ih =>
    obtain ⟨hx, hxs⟩ := List.forall_mem_cons.mp hlabels
    obtain ⟨v, hv, hlen⟩ := ih hxs
    rw [shortest_cons, ← hlen]
    cases hcount : x.count with
    | one =>
      obtain ⟨c, hc⟩ := Label.exists_reads hx
      exact ⟨c :: v, (itemsMatch_one hcount).mpr ⟨c, v, hc, rfl, hv⟩, rfl⟩
    | optional => exact ⟨v, (itemsMatch_optional hcount).mpr (.inl hv), rfl⟩
    | many => exact ⟨v, (itemsMatch_many hcount).mpr ⟨[], v, rfl, by simp, hv⟩, rfl⟩

/-- An item that has to be read cannot be left out. -/
theorem not_matches_iff {before after : List Item} (hcount : x.count = .one)
    (hlabels : ∀ y ∈ before ++ after, y.label ≠ .epsilon) :
    ¬ ∀ w, Matches ⟨before ++ x :: after⟩ w ↔ Matches ⟨before ++ after⟩ w := by
  intro h
  obtain ⟨w, hw, hlen⟩ := exists_shortest hlabels
  have hle := shortest_le_length ((h w).mpr hw)
  rw [hlen, shortest_append, shortest_append, shortest_cons, if_pos hcount] at hle
  omega

end Pattern

namespace Automaton

open Pattern

variable {k : Kind}

/-! ### Automata of patterns -/

/-- Every pattern in text compiles to an automaton that accepts its words. -/
theorem exists_ofPatternText {text : String} {p : Pattern} (hparse : parse text = .ok p) :
    ∃ a, ofPatternText text (some k) = .ok a ∧
      ∀ w, ∃ b, a.accepts? w = some b ∧ (b = true ↔ p.Matches w.toList) := by
  obtain ⟨a, ha, hvalid, hexact, hreads⟩ := exists_ofPattern hparse k
  refine ⟨a, by simp [ofPatternText, hparse, ha, Except.mapError], fun w => ?_⟩
  obtain ⟨b, hb, hiff⟩ := hvalid.accepts? hexact w
  exact ⟨b, hb, hiff.trans (hreads _)⟩

/-- **A quantifier before another makes no difference, unless it is `+`.** Of two quantifiers after
an atom, the first can be left out exactly if it is not `+`. In place of `+` there can be another
atom. -/
theorem stacked_agree_iff {p s : List Char} {x q₁ q₂ : Char}
    (hp : ∃ r, parse (.ofList p) = .ok r) (hx : isQuantifier x = false)
    (hq₁ : isQuantifier q₁) (hq₂ : isQuantifier q₂) :
    ∃ d e, ofPatternText (.ofList (p ++ x :: q₁ :: q₂ :: s)) (some .dfa) = .ok d ∧
      ofPatternText (.ofList (p ++ x :: q₂ :: s)) (some .dfa) = .ok e ∧
      ((∀ w, ∃ b, d.accepts? w = some b ∧ e.accepts? w = some b) ↔ q₁ ≠ '+') ∧
      (q₁ = '+' → ofPatternText (.ofList (p ++ x :: x :: q₂ :: s)) (some .dfa) = .ok d) := by
  obtain ⟨r, hr⟩ := hp
  obtain ⟨after, hone, htwice, hboth⟩ := exists_parse_stacked (s := s) hr hx hq₁ hq₂
  obtain ⟨d, hd, hdwords⟩ := exists_ofPatternText (k := .dfa) hboth
  obtain ⟨e, he, hewords⟩ := exists_ofPatternText (k := .dfa) hone
  refine ⟨d, e, hd, he, ⟨fun h hplus => ?_, fun hplus w => ?_⟩, fun hplus => ?_⟩
  · rw [if_pos hplus] at hboth hdwords
    refine not_matches_iff (x := ⟨atom x, .one⟩) rfl (label_ne_epsilon_of_parse hone) fun w => ?_
    obtain ⟨b, hb, hb'⟩ := h (.ofList w)
    obtain ⟨y, hy, hiff⟩ := hdwords (.ofList w)
    obtain ⟨z, hz, hiff'⟩ := hewords (.ofList w)
    obtain rfl : b = y := Option.some.inj (hb.symm.trans hy)
    obtain rfl : b = z := Option.some.inj (hb'.symm.trans hz)
    rw [String.toList_ofList] at hiff hiff'
    exact hiff.symm.trans hiff'
  · rw [if_neg hplus] at hdwords
    obtain ⟨y, hy, hiff⟩ := hdwords w
    obtain ⟨z, hz, hiff'⟩ := hewords w
    obtain rfl : y = z := Bool.eq_iff_iff.mpr (hiff.trans hiff'.symm)
    exact ⟨y, hy, hz⟩
  · rw [if_pos hplus] at hboth
    rw [← hd]
    simp only [ofPatternText, htwice, hboth]

theorem stacked_agree_iff_between :
    (∃ r, parse (.ofList ['b', '.', '?']) = .ok r) ∧ isQuantifier 'a' = false ∧
    isQuantifier '+' ∧ isQuantifier '*' ∧
    ∃ d e, ofPatternText "b.?a+*+c" (some .dfa) = .ok d ∧
      ofPatternText "b.?a*+c" (some .dfa) = .ok e ∧
      (¬ ∀ w, ∃ b, d.accepts? w = some b ∧ e.accepts? w = some b) ∧
      ofPatternText "b.?aa*+c" (some .dfa) = .ok d := by
  have hp : ∃ r, parse (.ofList ['b', '.', '?']) = .ok r := ⟨_, rfl⟩
  obtain ⟨d, e, hd, he, hiff, htwice⟩ :=
    @stacked_agree_iff ['b', '.', '?'] ['+', 'c'] 'a' '+' '*' hp (by decide) (by decide)
      (by decide)
  exact ⟨hp, by decide, by decide, by decide, d, e, hd, he, fun h => hiff.mp h rfl, htwice rfl⟩

/-- The last quantifier does not always decide: `a?` accepts the empty word, `a+?` does not. -/
theorem not_forall_stacked_agree :
    ¬ ∀ (p : List Char) (x q₁ q₂ : Char) (s : List Char) (w : String),
      (∃ r, parse (.ofList p) = .ok r) → isQuantifier x = false → isQuantifier q₁ →
      isQuantifier q₂ → ∃ d e b,
        ofPatternText (.ofList (p ++ x :: q₁ :: q₂ :: s)) (some .dfa) = .ok d ∧
        ofPatternText (.ofList (p ++ x :: q₂ :: s)) (some .dfa) = .ok e ∧
        d.accepts? w = some b ∧ e.accepts? w = some b := by
  intro h
  obtain ⟨d, e, b, hd, he, hb, hb'⟩ :=
    h [] 'a' '+' '?' [] "" ⟨_, rfl⟩ (by decide) (by decide) (by decide)
  have hrejects : (ofPatternText (.ofList ['a', '+', '?']) (some .dfa)).toOption.bind
      (·.accepts? "") = some false := by decide +kernel
  have haccepts : (ofPatternText (.ofList ['a', '?']) (some .dfa)).toOption.bind
      (·.accepts? "") = some true := by decide +kernel
  rw [List.nil_append] at hd he
  rw [hd] at hrejects
  rw [he] at haccepts
  have hfalse : b = false := Option.some.inj (hb.symm.trans hrejects)
  have htrue : b = true := Option.some.inj (hb'.symm.trans haccepts)
  cases hfalse.symm.trans htrue

end Automaton

end Acceptor
