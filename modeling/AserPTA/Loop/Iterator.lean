import Mathlib.Data.List.Basic

/-!
# Loops over iterators

`visit isEnd next n it` runs `for (; !isEnd(it); it = next(it))` and gives up, with `none`, after `n`
tests of the condition.

* `Visits`         the loop ends, and these are the iterators it meets;
* `Visits.visit`   then every fuel above their number is enough, and no other is;
* `Visits.map`     a loop over other iterators that goes in step.
-/

namespace Loop

variable {I J : Type*}

/-- the iterators where the body runs -/
def visit (isEnd : I → Bool) (next : I → I) : Nat → I → Option (List I)
  | 0, _ => none
  | n + 1, it => if isEnd it then some [] else (visit isEnd next n (next it)).map (it :: ·)

inductive Visits (isEnd : I → Bool) (next : I → I) : I → List I → Prop
  | done {it : I} : isEnd it = true → Visits isEnd next it []
  | turn {it : I} {l : List I} : isEnd it = false → Visits isEnd next (next it) l →
      Visits isEnd next it (it :: l)

variable {isEnd : I → Bool} {next : I → I} {it : I} {l : List I}

theorem Visits.visit (h : Visits isEnd next it l) (n : Nat) :
    visit isEnd next n it = if l.length < n then some l else none := by
  induction h generalizing n with
  | done he =>
    cases n with
    | zero => rfl
    | succ n =>
      rw [Loop.visit, if_pos he]
      exact (if_pos (Nat.succ_pos n)).symm
  | turn he _ ih =>
    cases n with
    | zero => rfl
    | succ n =>
      rw [Loop.visit, if_neg (by rw [he]; exact Bool.false_ne_true), ih]
      simp only [List.length_cons, Nat.add_lt_add_iff_right]
      split <;> rfl

/-- the body does not run at the end -/
theorem Visits.not_end (h : Visits isEnd next it l) : ∀ it' ∈ l, isEnd it' = false := by
  induction h with
  | done _ => exact fun it' h => absurd h List.not_mem_nil
  | turn he _ ih =>
    intro it' h'
    rcases List.mem_cons.mp h' with rfl | h'
    · exact he
    · exact ih it' h'

/-- The iterator `f it` stands where `it` does until the loop over `it` is over, and then the loop
goes on from there. -/
theorem Visits.map {isEnd' : J → Bool} {next' : J → J} {f : I → J} {rest : List J}
    (h : Visits isEnd next it l) (hend : ∀ it, isEnd it = false → isEnd' (f it) = false)
    (hnext : ∀ it, isEnd it = false → next' (f it) = f (next it))
    (hrest : ∀ it, isEnd it = true → Visits isEnd' next' (f it) rest) :
    Visits isEnd' next' (f it) (l.map f ++ rest) := by
  induction h with
  | done he => exact hrest _ he
  | turn he _ ih =>
    refine .turn (hend _ he) ?_
    rw [hnext _ he]
    exact ih

end Loop
