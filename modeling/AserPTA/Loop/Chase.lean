import Mathlib.Computability.StateTransition
import Mathlib.Data.Finset.Card

/-!
# Following a chain

`do x = step(x) while (visited.insert(x).second)`: a chain is followed until it ends, or until it comes
back to where it was.

* `chase`         the loop;
* `chase_total`   it ends if the chain stays in a finite set;
* `chase_spec`    at the end of the chain, or on a cycle;
* `chase_eval`    at its end if it has one (`StateTransition.eval`).
-/

namespace Loop

open StateTransition Relation

variable {σ : Type*} [DecidableEq σ] {step : σ → Option σ}

/-- the list has what was visited, with `x` -/
def chase (step : σ → Option σ) : Nat → List σ → σ → Option σ
  | 0, _, _ => none
  | n + 1, visited, x =>
    match step x with
    | none => some x
    | some y => if y ∈ visited then some y else chase step n (y :: visited) y

theorem chase_total {D : Finset σ} (hD : ∀ x ∈ D, ∀ y, step x = some y → y ∈ D) {n : Nat}
    {visited : List σ} {x : σ} (hx : x ∈ D) (hn : (D \ visited.toFinset).card < n) :
    ∃ y, chase step n visited x = some y := by
  induction n generalizing visited x with
  | zero => exact absurd hn (Nat.not_lt_zero _)
  | succ n ih =>
    unfold chase
    cases hs : step x with
    | none => exact ⟨x, rfl⟩
    | some y =>
      by_cases hy : y ∈ visited
      · exact ⟨y, if_pos hy⟩
      · have hmem : y ∈ D := hD x hx y hs
        have hlt : (D \ (y :: visited).toFinset).card < (D \ visited.toFinset).card := by
          apply Finset.card_lt_card
          refine Finset.ssubset_iff_subset_ne.mpr ⟨?_, fun heq => ?_⟩
          · apply Finset.sdiff_subset_sdiff (Finset.Subset.refl D)
            intro a ha
            simp only [List.mem_toFinset, List.mem_cons] at ha ⊢
            exact .inr ha
          · have hin : y ∈ D \ visited.toFinset := by simp [hmem, hy]
            rw [← heq] at hin
            simp at hin
        obtain ⟨z, hz⟩ : ∃ z, chase step n (y :: visited) y = some z := ih hmem (by omega)
        exact ⟨z, (if_neg hy).trans hz⟩

theorem chase_spec {n : Nat} {visited : List σ} {x y : σ} (hvisited : ∀ z ∈ visited, Reaches step z x)
    (h : chase step n visited x = some y) :
    Reaches step x y ∧ (step y = none ∨ Reaches₁ step y y) := by
  induction n generalizing visited x with
  | zero => cases h
  | succ n ih =>
    unfold chase at h
    split at h
    · rename_i hs
      cases h
      exact ⟨.refl, .inl hs⟩
    · rename_i z hs
      split at h
      · rename_i hz
        cases h
        have hstep : Reaches step x y := .single hs
        exact ⟨hstep, .inr (TransGen.tail' (hvisited y hz) hs)⟩
      · have hvisited' : ∀ a ∈ z :: visited, Reaches step a z := by
          intro a ha
          rcases List.mem_cons.mp ha with rfl | ha
          · exact .refl
          · exact (hvisited a ha).tail hs
        obtain ⟨hreach, hend⟩ := ih hvisited' h
        exact ⟨.head hs hreach, hend⟩

omit [DecidableEq σ] in
/-- a chain that ends has no cycle -/
theorem not_cycle {x y : σ} (h : y ∈ eval step x) : ¬ Reaches₁ step x x := by
  refine evalInduction h fun a _ ih hcycle => ?_
  obtain ⟨b, hb, -⟩ := TransGen.head'_iff.mp hcycle
  exact ih b hb (TransGen.tail' (reaches₁_fwd hcycle hb) hb)

theorem chase_eval {n : Nat} {x y z : σ} (h : y ∈ eval step x) (hz : chase step n [x] x = some z) :
    z = y := by
  obtain ⟨hreach, hend⟩ := chase_spec (fun a ha => by
    rw [List.mem_singleton] at ha
    subst ha
    exact .refl) hz
  have hy : y ∈ eval step z := reaches_eval hreach ▸ h
  rcases hend with hend | hcycle
  · exact Part.mem_unique (mem_eval.mpr ⟨.refl, hend⟩) hy
  · exact absurd hcycle (not_cycle hy)

end Loop
