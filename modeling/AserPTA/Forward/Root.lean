import Mathlib.Logic.Relation
import Mathlib.Data.Finset.Card

/-!
# Forwarding pointers

Nodes that were merged away point to the node that took their place.  `root sup n a` follows the
pointers from `a` for at most `n` steps.

* `Root sup a r`     the pointers lead from `a` to `r`, and `r` points nowhere;
* `root_of_acyclic`  without a cycle, as many steps as there are pointers reach the root;
* `link sup m r`     the root `m` is made to point to the root `r`;
* `Root.link`        after that, what led to `m` leads to `r`, and everything else is as before.
-/

namespace Forward

variable {α : Type*}

/-- follow the forwarding pointers, at most `n` of them -/
def root (sup : α → Option α) : Nat → α → α
  | 0, a => a
  | n + 1, a => match sup a with
    | none => a
    | some b => root sup n b

/-- `a` points to `b` -/
def Fwd (sup : α → Option α) (a b : α) : Prop := sup a = some b

def Acyclic (sup : α → Option α) : Prop := ∀ a, ¬ Relation.TransGen (Fwd sup) a a

/-- the pointers lead from `a` to `r`, which points nowhere -/
def Root (sup : α → Option α) (a r : α) : Prop :=
  Relation.ReflTransGen (Fwd sup) a r ∧ sup r = none

variable {sup : α → Option α}

theorem root_reaches (n : Nat) (a : α) : Relation.ReflTransGen (Fwd sup) a (root sup n a) := by
  induction n generalizing a with
  | zero => exact .refl
  | succ n ih =>
    rw [root]
    cases h : sup a with
    | none => exact .refl
    | some b => exact .head h (ih b)

theorem root_of_none {a : α} (h : sup a = none) (n : Nat) : root sup n a = a := by
  cases n with
  | zero => rfl
  | succ n => rw [root, h]

theorem Root.of_step {a b r : α} (h : sup a = some b) (hr : Root sup a r) : Root sup b r := by
  obtain ⟨hp, hn⟩ := hr
  rcases Relation.ReflTransGen.cases_head hp with rfl | ⟨c, hc, hcr⟩
  · rw [hn] at h; cases h
  · have hbc : b = c := Option.some.inj (h.symm.trans hc)
    exact ⟨hbc ▸ hcr, hn⟩

theorem Root.unique {a r r' : α} (h : Root sup a r) (h' : Root sup a r') : r = r' := by
  obtain ⟨hp, hn⟩ := h
  induction hp using Relation.ReflTransGen.head_induction_on with
  | refl =>
    rcases Relation.ReflTransGen.cases_head h'.1 with h1 | ⟨c, hc, _⟩
    · exact h1
    · exact absurd (hn.symm.trans hc) (by simp)
  | head hab _ ih => exact ih (h'.of_step hab)

/-- As many steps as there are pointers reach the root: the nodes passed so far (`t`) are distinct
members of `s`, so each step uses one of them up. -/
theorem root_none_aux (hac : Acyclic sup) (s : Finset α) (hs : ∀ a b, sup a = some b → a ∈ s)
    (n : Nat) : ∀ (t : Finset α) (a : α), t ⊆ s → (∀ b ∈ t, Relation.TransGen (Fwd sup) b a) →
      s.card ≤ t.card + n → sup (root sup n a) = none := by
  classical
  induction n with
  | zero =>
    intro t a hts hta hc
    have hst : t = s := Finset.eq_of_subset_of_card_le hts hc
    cases h : sup a with
    | none => simpa [root] using h
    | some b => exact absurd (hta a (hst ▸ hs a b h)) (hac a)
  | succ n ih =>
    intro t a hts hta hc
    cases h : sup a with
    | none => rw [root_of_none h]; exact h
    | some b =>
      have ha : a ∉ t := fun hat => hac a (hta a hat)
      have hb : ∀ c ∈ insert a t, Relation.TransGen (Fwd sup) c b := by
        intro c hc'
        rcases Finset.mem_insert.mp hc' with rfl | hct
        · exact .single h
        · exact (hta c hct).tail h
      have := ih (insert a t) b (Finset.insert_subset (hs a b h) hts) hb (by
        rw [Finset.card_insert_of_notMem ha]; omega)
      rwa [root, h]

/-- without a cycle, as many steps as there are pointers reach the root -/
theorem root_of_acyclic (hac : Acyclic sup) {s : Finset α} (hs : ∀ a b, sup a = some b → a ∈ s)
    {n : Nat} (hn : s.card ≤ n) (a : α) : Root sup a (root sup n a) :=
  ⟨root_reaches n a, root_none_aux hac s hs n ∅ a (by simp) (by simp) (by simpa using hn)⟩

section link
variable [DecidableEq α]

/-- make `m` point to `r` -/
def link (sup : α → Option α) (m r : α) : α → Option α := fun a => if a = m then some r else sup a

theorem link_self (m r : α) : link sup m r m = some r := if_pos rfl

theorem link_of_ne {a m : α} (h : a ≠ m) (r : α) : link sup m r a = sup a := if_neg h

variable {m r : α} (hm : sup m = none) (hr : sup r = none) (hne : m ≠ r)
include hm

theorem Fwd.link {a b : α} (h : Fwd sup a b) : Fwd (link sup m r) a b := by
  have ha : a ≠ m := by
    rintro rfl
    rw [Fwd, hm] at h
    cases h
  exact (link_of_ne ha r).trans h

include hr hne

/-- what led to `m` leads to `r`, and everything else leads where it did -/
theorem Root.link {a b : α} (h : Root sup a b) : Root (link sup m r) a (if b = m then r else b) := by
  have hp : Relation.ReflTransGen (Fwd (Forward.link sup m r)) a b :=
    h.1.lift id fun _ _ hab => Fwd.link hm hab
  by_cases hb : b = m
  · rw [if_pos hb]
    exact ⟨hp.tail (hb ▸ link_self m r), (link_of_ne hne.symm r).trans hr⟩
  · rw [if_neg hb]
    exact ⟨hp, (link_of_ne hb r).trans h.2⟩

omit hm in
/-- a new pointer to a root closes no cycle -/
theorem Acyclic.link (hac : Acyclic sup) : Acyclic (link sup m r) := by
  have hrr : ∀ b, ¬ Fwd (Forward.link sup m r) r b := by
    intro b hb
    rw [Fwd, link_of_ne hne.symm, hr] at hb
    cases hb
  -- a path of the new pointers is a path of the old ones, or ends in `r`
  have hold : ∀ a b, Relation.TransGen (Fwd (Forward.link sup m r)) a b →
      Relation.TransGen (Fwd sup) a b ∨ b = r := by
    intro a b h
    induction h with
    | single hab =>
      by_cases ha : a = m
      · rw [Fwd, ha, link_self] at hab
        exact .inr (Option.some.inj hab).symm
      · rw [Fwd, link_of_ne ha] at hab
        exact .inl (.single hab)
    | @tail b c _ hbc ih =>
      rcases ih with ih | rfl
      · by_cases hb : b = m
        · rw [Fwd, hb, link_self] at hbc
          exact .inr (Option.some.inj hbc).symm
        · rw [Fwd, link_of_ne hb] at hbc
          exact .inl (ih.tail hbc)
      · exact absurd hbc (hrr c)
  intro a h
  rcases hold a a h with h' | rfl
  · exact hac a h'
  · obtain ⟨b, hab, _⟩ := Relation.TransGen.head'_iff.mp h
    exact hrr b hab

end link

end Forward
