import Mathlib.Data.List.Basic

/-!
# Folds

Rules for `for (x : l) s = f(s, x)`.

* `foldl_inv`    what every turn keeps holds at the end;
* `foldl_rest`   an invariant over the part of the list that is left;
* `foldl_all`    what the turn of an element establishes, and the later turns keep, holds at the end;
* `foldl_ok`     the same for folds whose turns all start where a condition holds (`FoldOk`);
* `foldOk_congr`  two conditions that are the same where an invariant holds;
* `foldlM_all`, `foldlM_ok_rest`   the same rules for folds that may give up;
* `prefix_iff`   a property holds all the way iff every turn meets the condition under which it is
                 kept.
-/

namespace Loop

variable {σ α : Type*} {f : σ → α → σ}

theorem foldl_inv {I : σ → Prop} {l : List α} (hI : ∀ s, ∀ a ∈ l, I s → I (f s a)) {s : σ}
    (hs : I s) : I (l.foldl f s) := by
  induction l generalizing s with
  | nil => exact hs
  | cons a l ih =>
    exact ih (fun s b hb => hI s b (List.mem_cons_of_mem _ hb))
      (hI s a (List.mem_cons_self ..) hs)

/-- the invariant speaks of the elements still to come -/
theorem foldl_rest {I : σ → List α → Prop} {l : List α}
    (hI : ∀ s, ∀ a ∈ l, ∀ rest, I s (a :: rest) → I (f s a) rest) {s : σ} (hs : I s l) :
    I (l.foldl f s) [] := by
  induction l generalizing s with
  | nil => exact hs
  | cons a l ih =>
    exact ih (fun s b hb => hI s b (List.mem_cons_of_mem _ hb))
      (hI s a (List.mem_cons_self ..) l hs)

/-- `P` holds where each turn starts -/
def FoldOk (P : σ → α → Prop) (f : σ → α → σ) : List α → σ → Prop
  | [], _ => True
  | a :: l, s => P s a ∧ FoldOk P f l (f s a)

instance FoldOk.decidable {P : σ → α → Prop} [∀ s a, Decidable (P s a)] :
    (l : List α) → (s : σ) → Decidable (FoldOk P f l s)
  | [], _ => isTrue trivial
  | a :: l, s => @instDecidableAnd _ _ _ (FoldOk.decidable l (f s a))

theorem foldOk_of_forall {P : σ → α → Prop} (h : ∀ s a, P s a) (l : List α) (s : σ) :
    FoldOk P f l s := by
  induction l generalizing s with
  | nil => trivial
  | cons a l ih => exact ⟨h s a, ih _⟩

/-- two conditions that are the same where the invariant holds, which the turns that meet them keep -/
theorem foldOk_congr {I : σ → Prop} {P Q : σ → α → Prop} {l : List α}
    (hPQ : ∀ s, ∀ a ∈ l, I s → (P s a ↔ Q s a)) (hI : ∀ s, ∀ a ∈ l, I s → Q s a → I (f s a)) {s : σ}
    (hs : I s) : (FoldOk P f l s ↔ FoldOk Q f l s) ∧ (FoldOk Q f l s → I (l.foldl f s)) := by
  induction l generalizing s with
  | nil => exact ⟨Iff.rfl, fun _ => hs⟩
  | cons a l ih =>
    have ha := List.mem_cons_self (a := a) (l := l)
    have hnext := fun hQ : Q s a => ih (fun s b hb => hPQ s b (List.mem_cons_of_mem _ hb))
      (fun s b hb => hI s b (List.mem_cons_of_mem _ hb)) (hI s a ha hs hQ)
    constructor
    · refine (and_congr_left' (hPQ s a ha hs)).trans (and_congr_right fun hQ => (hnext hQ).1)
    · exact fun hok => (hnext hok.1).2 hok.2

theorem foldOk_append {P : σ → α → Prop} (l l' : List α) (s : σ) :
    FoldOk P f (l ++ l') s ↔ FoldOk P f l s ∧ FoldOk P f l' (l.foldl f s) := by
  induction l generalizing s with
  | nil => exact iff_of_eq (true_and _).symm
  | cons a l ih => exact (and_congr_right fun _ => ih _).trans and_assoc.symm

/-- what holds of the turns that start where `P` holds -/
theorem foldl_ok {P : σ → α → Prop} {I : σ → Prop} {Q : α → σ → Prop} {l : List α}
    (hI : ∀ s, ∀ a ∈ l, P s a → I s → I (f s a))
    (hQ : ∀ s, ∀ a ∈ l, P s a → I s → Q a (f s a))
    (hmono : ∀ s, ∀ a ∈ l, ∀ b, P s a → I s → Q b s → Q b (f s a)) {s : σ}
    (hok : FoldOk P f l s) (hs : I s) : I (l.foldl f s) ∧ ∀ a ∈ l, Q a (l.foldl f s) := by
  have hkeep : ∀ (l' : List α) (b : α) (s : σ), (∀ a ∈ l', a ∈ l) → FoldOk P f l' s → I s →
      Q b s → Q b (l'.foldl f s) := by
    intro l' b
    induction l' with
    | nil => exact fun s _ _ _ h => h
    | cons a l' ih =>
      intro s hsub hok hs hb
      have ha := hsub a (List.mem_cons_self ..)
      exact ih _ (fun c hc => hsub c (List.mem_cons_of_mem _ hc)) hok.2 (hI s a ha hok.1 hs)
        (hmono s a ha b hok.1 hs hb)
  suffices h : ∀ (l' : List α) (s : σ), (∀ a ∈ l', a ∈ l) → FoldOk P f l' s → I s →
      I (l'.foldl f s) ∧ ∀ a ∈ l', Q a (l'.foldl f s) from h l s (fun _ h => h) hok hs
  intro l'
  induction l' with
  | nil => exact fun s _ _ hs => ⟨hs, fun a ha => by cases ha⟩
  | cons a l' ih =>
    intro s hsub hok hs
    have ha := hsub a (List.mem_cons_self ..)
    have hsub' : ∀ c ∈ l', c ∈ l := fun c hc => hsub c (List.mem_cons_of_mem _ hc)
    have hs' := hI s a ha hok.1 hs
    obtain ⟨h1, h2⟩ := ih _ hsub' hok.2 hs'
    refine ⟨h1, fun b hb => ?_⟩
    rcases List.mem_cons.mp hb with rfl | hb
    · exact hkeep l' b _ hsub' hok.2 hs' (hQ s b ha hok.1 hs)
    · exact h2 b hb

theorem foldl_all {I : σ → Prop} {Q : α → σ → Prop} {l : List α}
    (hI : ∀ s, ∀ a ∈ l, I s → I (f s a)) (hQ : ∀ s, ∀ a ∈ l, I s → Q a (f s a))
    (hmono : ∀ s, ∀ a ∈ l, ∀ b, I s → Q b s → Q b (f s a)) {s : σ} (hs : I s) :
    I (l.foldl f s) ∧ ∀ a ∈ l, Q a (l.foldl f s) :=
  foldl_ok (P := fun _ _ => True) (fun s a ha _ => hI s a ha) (fun s a ha _ => hQ s a ha)
    (fun s a ha b _ => hmono s a ha b) (foldOk_of_forall (fun _ _ => trivial) l s) hs

/-- the states on the way are the first one and those on the way from the second one -/
theorem forall_prefix_cons {P : σ → Prop} (a : α) (l : List α) (s : σ) :
    (∀ pre, pre <+: a :: l → P (pre.foldl f s)) ↔
      P s ∧ ∀ pre, pre <+: l → P (pre.foldl f (f s a)) := by
  constructor
  · intro h
    refine ⟨h [] List.nil_prefix, fun pre hpre => ?_⟩
    exact h (a :: pre) (List.prefix_cons_iff.mpr (.inr ⟨pre, rfl, hpre⟩))
  · rintro ⟨h0, h⟩ pre hpre
    rcases List.prefix_cons_iff.mp hpre with rfl | ⟨pre', rfl, hpre'⟩
    · exact h0
    · exact h pre' hpre'

/-- If, where the invariant `I` holds, a turn keeps `P` iff it meets the condition `C`, then `P` holds
all the way iff every turn meets `C`. -/
theorem prefix_iff {I P : σ → Prop} {L C : σ → α → Prop}
    (hI : ∀ s a, I s → L s a → I (f s a)) (hP : ∀ s a, I s → P s → L s a → (P (f s a) ↔ C s a))
    (l : List α) {s : σ} (hl : FoldOk L f l s) (hs : I s) (h0 : P s) :
    (∀ pre, pre <+: l → P (pre.foldl f s)) ↔ FoldOk C f l s := by
  induction l generalizing s with
  | nil =>
    refine iff_of_true (fun pre hpre => ?_) trivial
    rw [List.prefix_nil.mp hpre]
    exact h0
  | cons a l ih =>
    rw [forall_prefix_cons]
    constructor
    · rintro ⟨-, h⟩
      have h1 : P (f s a) := h [] List.nil_prefix
      exact ⟨(hP s a hs h0 hl.1).mp h1, (ih hl.2 (hI s a hs hl.1) h1).mp h⟩
    · rintro ⟨hc, hr⟩
      have h1 : P (f s a) := (hP s a hs h0 hl.1).mpr hc
      exact ⟨h0, (ih hl.2 (hI s a hs hl.1) h1).mpr hr⟩

/-! ## folds that may give up -/

section
variable {g : σ → α → Option σ}

theorem foldlM_cons_some {a : α} {l : List α} {s t : σ} (h : (a :: l).foldlM g s = some t) :
    ∃ u, g s a = some u ∧ l.foldlM g u = some t := by
  rw [List.foldlM_cons] at h
  exact Option.bind_eq_some_iff.mp h

theorem foldlM_all {I : σ → Prop} {Q : α → σ → Prop} {l : List α}
    (hI : ∀ s, ∀ a ∈ l, ∀ t, I s → g s a = some t → I t ∧ Q a t)
    (hmono : ∀ s, ∀ a ∈ l, ∀ t b, I s → g s a = some t → Q b s → Q b t) {s t : σ} (hs : I s)
    (h : l.foldlM g s = some t) : I t ∧ ∀ a ∈ l, Q a t := by
  suffices hall : ∀ (l' done : List α) (s : σ), (∀ a ∈ l', a ∈ l) → I s → (∀ a ∈ done, Q a s) →
      l'.foldlM g s = some t → I t ∧ (∀ a ∈ done, Q a t) ∧ ∀ a ∈ l', Q a t by
    obtain ⟨h1, -, h2⟩ := hall l [] s (fun _ h => h) hs (fun a ha => by cases ha) h
    exact ⟨h1, h2⟩
  intro l'
  induction l' with
  | nil =>
    intro done s _ hs hdone h
    cases h
    exact ⟨hs, hdone, fun a ha => by cases ha⟩
  | cons a l' ih =>
    intro done s hsub hs hdone h
    have ha := hsub a (List.mem_cons_self ..)
    obtain ⟨u, hu, hrest⟩ := foldlM_cons_some h
    obtain ⟨hIu, hQ⟩ := hI s a ha u hs hu
    have hdone' : ∀ b ∈ a :: done, Q b u := by
      intro b hb
      rcases List.mem_cons.mp hb with rfl | hb
      · exact hQ
      · exact hmono s a ha u b hs hu (hdone b hb)
    obtain ⟨h1, h2, h3⟩ := ih (a :: done) u (fun c hc => hsub c (List.mem_cons_of_mem _ hc)) hIu hdone'
      hrest
    refine ⟨h1, fun b hb => h2 b (List.mem_cons_of_mem _ hb), fun b hb => ?_⟩
    rcases List.mem_cons.mp hb with rfl | hb
    · exact h2 b (List.mem_cons_self ..)
    · exact h3 b hb

/-- every turn that ends meets `C`, which may speak of the elements still to come -/
def FoldMOk (C : σ → α → List α → σ → Prop) (g : σ → α → Option σ) : List α → σ → Prop
  | [], _ => True
  | a :: l, s => ∀ t, g s a = some t → C s a l t ∧ FoldMOk C g l t

instance FoldMOk.decidable {C : σ → α → List α → σ → Prop} [∀ s a l t, Decidable (C s a l t)] :
    (l : List α) → (s : σ) → Decidable (FoldMOk C g l s)
  | [], _ => isTrue trivial
  | a :: l, s =>
    match h : g s a with
    | none => isTrue fun t ht => by rw [h] at ht; cases ht
    | some t =>
      have := FoldMOk.decidable (C := C) l t
      decidable_of_iff (C s a l t ∧ FoldMOk C g l t)
        ⟨fun hc u hu => by rw [h] at hu; cases hu; exact hc, fun hc => hc t h⟩

theorem FoldMOk.mono {C C' : σ → α → List α → σ → Prop} (hC : ∀ s a l t, C s a l t → C' s a l t)
    {l : List α} {s : σ} (h : FoldMOk C g l s) : FoldMOk C' g l s := by
  induction l generalizing s with
  | nil => trivial
  | cons a l ih => exact fun t ht => ⟨hC s a l t (h t ht).1, ih (h t ht).2⟩

/-- the invariant speaks of the elements still to come -/
theorem foldlM_ok_rest {C : σ → α → List α → σ → Prop} {I : σ → List α → Prop} {l : List α}
    (hI : ∀ s a rest t, I s (a :: rest) → g s a = some t → C s a rest t → I t rest) {s t : σ}
    (hok : FoldMOk C g l s) (hs : I s l) (h : l.foldlM g s = some t) : I t [] := by
  induction l generalizing s with
  | nil =>
    cases h
    exact hs
  | cons a l ih =>
    obtain ⟨u, hu, hrest⟩ := foldlM_cons_some h
    obtain ⟨hc, hok⟩ := hok u hu
    exact ih hok (hI s a l u hs hu hc) hrest

end

end Loop
