import Acceptor.Proofs.ErrorPositions

/-!
# Reading fails fast

An error of a line is found before the lines behind it are looked at. In the machine that reads line
by line this is plain: it has made its steps on the lines up to the error, and these are the same
whatever follows. It remains to see that a position on a line comes from a step on that line, and
neither from a later one nor from the end of the text.

## Main results

* `Description.read_fails_fast`: what follows the line of an error makes no difference.
-/

namespace Acceptor

namespace Description

variable {u v : String} {e : Error} {p : Position} {due : Due}

/-- The lines of a text up to a line break come first. -/
theorem rowsFrom_line_break (u v : String) : rowsFrom 1 (u ++ "\n" ++ v).toList =
    rowsFrom 1 u.toList ++ rowsFrom (u.toList.count '\n' + 2) v.toList := by
  have htext : (u ++ "\n" ++ v).toList = u.toList ++ '\n' :: v.toList := by
    simp [String.toList_append]
  rw [htext, rowsFrom_append, Nat.add_comm 1]

/-- An error of a run over the lines of a text from line `n` on, or of the end behind these lines,
is on line `n` or below it. -/
theorem le_line_of_run {n : Nat} {text : List Char} {stop : Position}
    (h : (rowsFrom n text).foldlM step due >>= finish stop = .error e) (hp : e.position = some p)
    (hstop : n ≤ stop.line) : n ≤ p.line := by
  have hends := ends_rowsFrom n text stop due
  rw [h] at hends
  rcases hends.of_error with hnone | ⟨row, hrow, column, hposition, -⟩ | ⟨hposition, -⟩
  · rw [hp] at hnone
    cases hnone
  · obtain rfl : p = ⟨row.number, column⟩ := Option.some.inj (hp.symm.trans hposition)
    exact (mem_rowsFrom hrow).2.2.1
  · obtain rfl : p = stop := Option.some.inj (hp.symm.trans hposition)
    exact hstop

/-- **Reading fails fast.** If the error is on a line that ends in a line break, the text behind
this line break can be replaced by any other, and the error is the same. -/
theorem read_fails_fast (h : read (u ++ "\n" ++ v) = .error e) (hp : e.position = some p)
    (hline : p.line ≤ u.toList.count '\n' + 1) (t : String) :
    read (u ++ "\n" ++ t) = .error e := by
  rw [read_eq_readRows, readRows, rowsFrom_line_break, List.foldlM_append] at h ⊢
  cases hfront : (rowsFrom 1 u.toList).foldlM step .header with
  | error e' =>
    -- the steps on the front fail, so the lines behind it are not looked at
    rw [hfront] at h
    exact h
  | ok due =>
    rw [hfront] at h
    have hcount : (u ++ "\n" ++ v).toList.count '\n' =
        u.toList.count '\n' + 1 + v.toList.count '\n' := by
      rw [String.toList_append, String.toList_append, List.count_append, List.count_append]
      rfl
    have hstop : u.toList.count '\n' + 2 ≤
        (Position.start.after (u ++ "\n" ++ v).toList).next.line := by
      show _ ≤ (Position.start.after (u ++ "\n" ++ v).toList).line
      have hone : Position.start.line = 1 := rfl
      rw [Position.line_after, hcount]
      omega
    have hbelow := le_line_of_run h hp hstop
    omega

/-- The second line is no state line. The text behind it, which goes on with a state line, can be
replaced by a text that would be wrong as well. -/
theorem read_fails_fast_unexpected :
    read ("nfa 2 0 (0) () a\nt p p a" ++ "\n" ++ "s p") = .error ⟨.expectedState, some ⟨2, 1⟩⟩ ∧
    2 ≤ "nfa 2 0 (0) () a\nt p p a".toList.count '\n' + 1 ∧
    read ("nfa 2 0 (0) () a\nt p p a" ++ "\n" ++ "t p p a\n) 7") =
      .error ⟨.expectedState, some ⟨2, 1⟩⟩ :=
  have hread : read ("nfa 2 0 (0) () a\nt p p a" ++ "\n" ++ "s p") =
      .error ⟨.expectedState, some ⟨2, 1⟩⟩ := by decide +kernel
  have hline : 2 ≤ "nfa 2 0 (0) () a\nt p p a".toList.count '\n' + 1 := by decide +kernel
  ⟨hread, hline, read_fails_fast hread rfl hline "t p p a\n) 7"⟩

end Description

end Acceptor
