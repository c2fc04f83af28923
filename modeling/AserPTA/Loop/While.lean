import Mathlib.Order.WellFounded

/-!
# Loops with fuel

`loop c b n s` runs `while (c) b` from `s` and gives up, with `none`, after `n` tests of
the condition; the body may give up too.

* `loop_inv`     what the body keeps holds at the exit, together with the negated condition;
* `loop_total`   a body that keeps an invariant and lowers a number below the fuel reaches the exit;
* `loop_wf`      with a well-founded relation instead, some fuel reaches the exit.
-/

namespace Loop

variable {σ : Type*} {c : σ → Bool} {b : σ → Option σ}

/-- `while (c) b`, for at most `n` tests of the condition -/
def loop (c : σ → Bool) (b : σ → Option σ) : Nat → σ → Option σ
  | 0, _ => none
  | n + 1, s => if c s then (b s).bind (loop c b n) else some s

/-- `do b while (c)` -/
def doWhile (c : σ → Bool) (b : σ → Option σ) (n : Nat) (s : σ) : Option σ :=
  (b s).bind (loop c b n)

theorem loop_of_cond {n : Nat} {s : σ} (h : c s = true) :
    loop c b (n + 1) s = (b s).bind (loop c b n) := by
  rw [loop, if_pos h]

theorem loop_of_not_cond {n : Nat} {s : σ} (h : c s = false) :
    loop c b (n + 1) s = some s := by
  rw [loop, if_neg (by rw [h]; exact Bool.false_ne_true)]

theorem loop_inv {I : σ → Prop} (hstep : ∀ s t, I s → c s = true → b s = some t → I t)
    (n : Nat) {s t : σ} (hs : I s) (h : loop c b n s = some t) : I t ∧ c t = false := by
  induction n generalizing s with
  | zero => cases h
  | succ n ih =>
    cases hc : c s with
    | false =>
      rw [loop_of_not_cond hc] at h
      cases h
      exact ⟨hs, hc⟩
    | true =>
      rw [loop_of_cond hc] at h
      obtain ⟨u, hu, hrest⟩ := Option.bind_eq_some_iff.mp h
      exact ih (hstep s u hs hc hu) hrest

/-- `I` holds where the b starts and `J` where it ends -/
theorem doWhile_inv {I J : σ → Prop} (hstep : ∀ s t, I s → b s = some t → J t)
    (hback : ∀ t, J t → c t = true → I t) {n : Nat} {s t : σ} (hs : I s)
    (h : doWhile c b n s = some t) : J t ∧ c t = false := by
  obtain ⟨u, hu, hrest⟩ := Option.bind_eq_some_iff.mp h
  exact loop_inv (fun s t hJ hc hb => hstep s t (hback s hJ hc) hb) n (hstep s u hs hu) hrest

/-- the number `μ` goes down with every run of the body, so the fuel is not used up -/
theorem loop_total {I : σ → Prop} (μ : σ → Nat)
    (hstep : ∀ s, I s → c s = true → ∃ t, b s = some t ∧ I t ∧ μ t < μ s)
    (n : Nat) {s : σ} (hs : I s) (hn : μ s < n) :
    ∃ t, loop c b n s = some t ∧ I t ∧ c t = false := by
  induction n generalizing s with
  | zero => exact absurd hn (Nat.not_lt_zero _)
  | succ n ih =>
    cases hc : c s with
    | false => exact ⟨s, loop_of_not_cond hc, hs, hc⟩
    | true =>
      obtain ⟨u, hu, hI, hlt⟩ := hstep s hs hc
      obtain ⟨t, ht, hI', hc'⟩ := ih hI (by omega)
      exact ⟨t, by rw [loop_of_cond hc, hu]; exact ht, hI', hc'⟩

/-- an invariant is kept and a well-founded relation goes down with every run of the body after which
the loop goes on -/
theorem loop_wf {I : σ → Prop} {r : σ → σ → Prop} (hr : WellFounded r)
    (hstep : ∀ s, I s → ∃ t, b s = some t ∧ (c t = true → I t ∧ r t s)) {s : σ}
    (hs : I s) : ∃ n t, loop c b n s = some t := by
  induction s using hr.induction with
  | _ s ih =>
    cases hc : c s with
    | false => exact ⟨1, s, loop_of_not_cond hc⟩
    | true =>
      obtain ⟨u, hu, hnext⟩ := hstep s hs
      cases hcu : c u with
      | false =>
        refine ⟨2, u, ?_⟩
        rw [loop_of_cond hc, hu]
        exact loop_of_not_cond hcu
      | true =>
        obtain ⟨hI, hlt⟩ := hnext hcu
        obtain ⟨n, t, ht⟩ := ih u hlt hI
        refine ⟨n + 1, t, ?_⟩
        rw [loop_of_cond hc, hu]
        exact ht

/-- so does `do b while (c)` -/
theorem doWhile_wf {I : σ → Prop} {r : σ → σ → Prop} (hr : WellFounded r)
    (hstep : ∀ s, I s → ∃ t, b s = some t ∧ (c t = true → I t ∧ r t s)) {s : σ}
    (hs : I s) : ∃ n t, doWhile c b n s = some t := by
  obtain ⟨u, hu, hnext⟩ := hstep s hs
  cases hc : c u with
  | false =>
    refine ⟨1, u, ?_⟩
    rw [doWhile, hu]
    exact loop_of_not_cond hc
  | true =>
    obtain ⟨n, t, ht⟩ := loop_wf hr hstep (hnext hc).1
    refine ⟨n, t, ?_⟩
    rw [doWhile, hu]
    exact ht

end Loop
