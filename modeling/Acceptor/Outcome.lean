/-!
# Outcomes of steps that can fail

Two steps in a row succeed exactly if both do. Proofs about readers and checks take them apart by
`bind_eq_ok`. What holds of the results and of the errors of a step alike is said by `Ends`, and
what relates the outcomes of two runs by `Alike`; both go through steps in a row.

## Main results

* `bind_eq_ok`, `mapError_eq_ok`: when two steps in a row succeed, and a step with other errors.
* `Ends.bind`, `Alike.bind`: how two steps in a row end.
* `Ends.mapM`, `Alike.mapM`: how the same step ends on each item of a list.
-/

namespace Acceptor

variable {ε ε' α α' β β' : Type}

theorem bind_eq_ok {x : Except ε α} {f : α → Except ε β} {b : β} :
    x >>= f = .ok b ↔ ∃ a, x = .ok a ∧ f a = .ok b := by
  cases x <;> simp [bind, Except.bind]

theorem mapError_eq_ok {x : Except ε α} {f : ε → ε'} {a : α} :
    x.mapError f = .ok a ↔ x = .ok a := by
  cases x with
  | error e =>
    show Except.error (f e) = .ok a ↔ _
    simp
  | ok b =>
    show Except.ok b = .ok a ↔ _
    simp

/-! ### One run -/

/-- A step ends with a result that satisfies `Q` or with an error that satisfies `E`. -/
inductive Ends (Q : α → Prop) (E : ε → Prop) : Except ε α → Prop where
  /-- There is a result. -/
  | ok {a : α} : Q a → Ends Q E (.ok a)
  /-- There is an error. -/
  | error {e : ε} : E e → Ends Q E (.error e)

theorem Ends.bind {Q : α → Prop} {Q' : β → Prop} {E : ε → Prop} {x : Except ε α}
    {f : α → Except ε β} (hx : Ends Q E x) (hf : ∀ a, Q a → Ends Q' E (f a)) :
    Ends Q' E (x >>= f) := by
  cases hx with
  | ok h => exact hf _ h
  | error h => exact .error h

theorem Ends.mono {Q Q' : α → Prop} {E : ε → Prop} {x : Except ε α} (hx : Ends Q E x)
    (h : ∀ a, Q a → Q' a) : Ends Q' E x := by
  cases hx with
  | ok ha => exact .ok (h _ ha)
  | error he => exact .error he

theorem Ends.mono_error {Q : α → Prop} {E E' : ε → Prop} {x : Except ε α} (hx : Ends Q E x)
    (h : ∀ e, E e → E' e) : Ends Q E' x := by
  cases hx with
  | ok ha => exact .ok ha
  | error he => exact .error (h _ he)

theorem Ends.map {Q : α → Prop} {Q' : β → Prop} {E : ε → Prop} {x : Except ε α} {f : α → β}
    (hx : Ends Q E x) (hf : ∀ a, Q a → Q' (f a)) : Ends Q' E (x.map f) := by
  cases hx with
  | ok ha => exact .ok (hf _ ha)
  | error he => exact .error he

theorem Ends.of_error {Q : α → Prop} {E : ε → Prop} {e : ε} (h : Ends Q E (.error e)) : E e := by
  cases h with
  | error he => exact he

theorem Ends.mapM {E : ε → Prop} {f : α → Except ε β} {as : List α}
    (h : ∀ a ∈ as, Ends (fun _ => True) E (f a)) : Ends (fun _ => True) E (as.mapM f) := by
  induction as with
  | nil => exact .ok trivial
  | cons a as ih =>
    obtain ⟨ha, has⟩ := List.forall_mem_cons.mp h
    rw [List.mapM_cons]
    exact ha.bind fun b _ => (ih has).bind fun bs _ => .ok trivial

/-! ### Two runs -/

/-- Two steps end alike, with results that `S` relates or with errors that `R` relates. -/
inductive Alike (S : α → α' → Prop) (R : ε → ε' → Prop) : Except ε α → Except ε' α' → Prop where
  /-- Both have a result. -/
  | ok {a : α} {a' : α'} : S a a' → Alike S R (.ok a) (.ok a')
  /-- Both have an error. -/
  | error {e : ε} {e' : ε'} : R e e' → Alike S R (.error e) (.error e')

theorem Alike.bind {S : α → α' → Prop} {S' : β → β' → Prop} {R : ε → ε' → Prop} {x : Except ε α}
    {x' : Except ε' α'} {f : α → Except ε β} {f' : α' → Except ε' β'} (hx : Alike S R x x')
    (hf : ∀ a a', S a a' → Alike S' R (f a) (f' a')) : Alike S' R (x >>= f) (x' >>= f') := by
  cases hx with
  | ok h => exact hf _ _ h
  | error h => exact .error h

theorem Alike.map {S : α → α' → Prop} {S' : β → β' → Prop} {R : ε → ε' → Prop} {x : Except ε α}
    {x' : Except ε' α'} {f : α → β} {f' : α' → β'} (hx : Alike S R x x')
    (hf : ∀ a a', S a a' → S' (f a) (f' a')) : Alike S' R (x.map f) (x'.map f') := by
  cases hx with
  | ok h => exact .ok (hf _ _ h)
  | error h => exact .error h

theorem Alike.mono {S S' : α → α' → Prop} {R R' : ε → ε' → Prop} {x : Except ε α}
    {x' : Except ε' α'} (hx : Alike S R x x') (hS : ∀ a a', S a a' → S' a a')
    (hR : ∀ e e', R e e' → R' e e') : Alike S' R' x x' := by
  cases hx with
  | ok h => exact .ok (hS _ _ h)
  | error h => exact .error (hR _ _ h)

theorem Alike.mapM {R : ε → ε' → Prop} {f : α → Except ε β} {f' : α → Except ε' β}
    (h : ∀ a, Alike Eq R (f a) (f' a)) (as : List α) : Alike Eq R (as.mapM f) (as.mapM f') := by
  induction as with
  | nil => exact .ok rfl
  | cons a as ih =>
    rw [List.mapM_cons, List.mapM_cons]
    refine (h a).bind ?_
    rintro b _ rfl
    refine ih.bind ?_
    rintro bs _ rfl
    exact .ok rfl

end Acceptor
