import AserPTA.Loop.Chase

/-!
# The canonicalizers

A pointer is known by its canonical value.  `FICanonicalizer` looks through casts, aliases and all
`getelementptr`s, and `FSCanonicalizer` leaves the ones that move the pointer.

* `Form`, `PointerValues`                      what the canonicalizers see of values;
* `stripNullOrUnDef`, `stripPointerCastsAndOffsets`, `FI.canonicalize`, `FS.canonicalize`;
* `canonicalize_returns`                       the loop ends, also where code cannot be reached;
* `canonicalize_gep`                           no `getelementptr` is left, as the builder asserts;
* `canonicalize_canonicalize`                  one canonicalizer goes on where the other one stops.
-/

namespace AserPTA

open Loop StateTransition Relation

/-- An `invariantGroup` call is one of `llvm.launder.invariant.group` or `llvm.strip.invariant.group`. -/
inductive Form (Val : Type) where
  | gep (base : Val)
  | cast (operand : Val)
  | globalAlias (aliasee : Val)
  | call (returnedArg invariantGroup : Option Val)
  | intToPtr
  | null
  | undef
  | other
  deriving DecidableEq

/-- The values of a module, of which `nullValue` and `uniValue` are the constants of type `i8*`. -/
structure PointerValues (Val : Type) where
  form : Val → Form Val
  isPointer : Val → Bool
  nullValue : Val
  uniValue : Val
  form_null : form nullValue = .null
  form_uni : form uniValue = .undef
  isPointer_null : isPointer nullValue = true
  isPointer_uni : isPointer uniValue = true

namespace PointerValues

variable {Val : Type} [DecidableEq Val] (W : PointerValues Val)

def stripNullOrUnDef (V : Val) : Val :=
  -- inttoptr creates universal ptr
  let V := if W.form V = .intToPtr then W.uniValue else V
  -- a null ptr
  let V := if W.form V = .null then W.nullValue else V
  -- a uni ptr
  if W.form V = .undef then W.uniValue else V

/-- what the body of the loop does to a value, `none` where it returns -/
def stripStep (V : Val) : Option Val :=
  match W.form V with
  -- skip even if GEP is not in_bound
  | .gep base => some base
  | .cast operand => some operand
  | .globalAlias aliasee => some aliasee
  | .call (some RV) _ => some RV
  | .call none arg => arg
  | _ => none

/-- `n` bounds the loop -/
def stripPointerCastsAndOffsets (n : Nat) (V : Val) : Option Val := chase W.stripStep n [V] V

end PointerValues

namespace FICanonicalizer

def canonicalize {Val : Type} [DecidableEq Val] (W : PointerValues Val) (n : Nat) (V : Val) :
    Option Val :=
  if W.isPointer V then (W.stripPointerCastsAndOffsets n V).map W.stripNullOrUnDef else some V

end FICanonicalizer

namespace FSCanonicalizer

/-- `strip` is `stripPointerCastsAndInvariantGroups` of the compiler -/
def canonicalize {Val : Type} [DecidableEq Val] (W : PointerValues Val) (strip : Val → Val)
    (V : Val) : Val :=
  if W.isPointer V then W.stripNullOrUnDef (strip V) else V

end FSCanonicalizer

/-! ## what they return -/

namespace PointerValues

variable {Val : Type} [DecidableEq Val] {W : PointerValues Val}

/-- the values that are replaced by one of the constants -/
def Special (W : PointerValues Val) (V : Val) : Prop :=
  W.form V = .intToPtr ∨ W.form V = .null ∨ W.form V = .undef

theorem stripNullOrUnDef_of_not_special {V : Val} (h : ¬ W.Special V) : W.stripNullOrUnDef V = V := by
  unfold Special at h
  unfold stripNullOrUnDef
  simp_all

theorem stripNullOrUnDef_special {V : Val} (h : W.Special V) :
    W.stripNullOrUnDef V = W.nullValue ∨ W.stripNullOrUnDef V = W.uniValue := by
  unfold stripNullOrUnDef
  rcases h with h | h | h <;> simp [h, W.form_null, W.form_uni]

omit [DecidableEq Val] in
theorem stripStep_special {V : Val} (h : W.Special V) : W.stripStep V = none := by
  unfold stripStep
  rcases h with h | h | h <;> rw [h]

/-- what a special value is replaced by is left as it is -/
theorem stripNullOrUnDef_idem {V : Val} (h : W.Special V) :
    W.stripStep (W.stripNullOrUnDef V) = none ∧ W.isPointer (W.stripNullOrUnDef V) = true ∧
      W.stripNullOrUnDef (W.stripNullOrUnDef V) = W.stripNullOrUnDef V := by
  have hnull : W.Special W.nullValue := .inr (.inl W.form_null)
  have huni : W.Special W.uniValue := .inr (.inr W.form_uni)
  rcases stripNullOrUnDef_special h with h | h <;> rw [h]
  · exact ⟨stripStep_special hnull, W.isPointer_null, by simp [stripNullOrUnDef, W.form_null]⟩
  · exact ⟨stripStep_special huni, W.isPointer_uni, by simp [stripNullOrUnDef, W.form_uni]⟩

end PointerValues

namespace FICanonicalizer

open PointerValues

variable {Val : Type} [DecidableEq Val] {W : PointerValues Val} {V X : Val} {n n' : Nat}

/-- The loop ends within as many turns as there are values. -/
theorem canonicalize_returns {D : Finset Val} (hD : ∀ V ∈ D, ∀ V', W.stripStep V = some V' → V' ∈ D)
    (hV : V ∈ D) (hn : D.card ≤ n) : ∃ V', canonicalize W n V = some V' := by
  have hlt : (D \ [V].toFinset).card < n := by
    have hss : D \ [V].toFinset ⊂ D := by
      refine Finset.ssubset_iff_subset_ne.mpr ⟨Finset.sdiff_subset, fun heq => ?_⟩
      rw [← heq] at hV
      simp at hV
    exact Nat.lt_of_lt_of_le (Finset.card_lt_card hss) hn
  obtain ⟨X, hX⟩ := chase_total hD hV hlt
  unfold canonicalize stripPointerCastsAndOffsets
  rw [hX]
  split
  · exact ⟨_, rfl⟩
  · exact ⟨V, rfl⟩

/-- at the end of the chain -/
theorem canonicalize_eval (hX : X ∈ eval W.stripStep V) {V' : Val} (h : canonicalize W n V = some V') :
    V' = if W.isPointer V then W.stripNullOrUnDef X else V := by
  unfold canonicalize at h
  split at h
  · rename_i hptr
    obtain ⟨Y, hY, rfl⟩ := Option.map_eq_some_iff.mp h
    rw [if_pos hptr, chase_eval hX hY]
  · rename_i hptr
    rw [if_neg hptr]
    exact (Option.some.inj h).symm

/-- A `getelementptr` and its base are one pointer: the assertion of `visitGetElementPtrInst` holds. -/
theorem canonicalize_gep {I base a b : Val} (hform : W.form I = .gep base)
    (hptr : W.isPointer I = true) (hbase : W.isPointer base = true)
    (hX : X ∈ eval W.stripStep base) (ha : canonicalize W n I = some a)
    (hb : canonicalize W n' base = some b) : b = a := by
  have hstep : W.stripStep I = some base := by
    unfold stripStep
    rw [hform]
  have hX' : X ∈ eval W.stripStep I := by
    rw [reaches_eval (f := W.stripStep) (.single hstep)]
    exact hX
  rw [canonicalize_eval hX' ha, canonicalize_eval hX hb, if_pos hptr, if_pos hbase]

/-- It goes on where `FSCanonicalizer` stops, if the compiler strips along the same chain. -/
theorem canonicalize_canonicalize {strip : Val → Val} (hstrip : Reaches W.stripStep V (strip V))
    (hptr : W.isPointer V = true → W.isPointer (strip V) = true) (hX : X ∈ eval W.stripStep V) {a b : Val}
    (ha : canonicalize W n V = some a)
    (hb : canonicalize W n' (FSCanonicalizer.canonicalize W strip V) = some b) : b = a := by
  rw [canonicalize_eval hX ha]
  unfold FSCanonicalizer.canonicalize at hb
  split at hb
  · rename_i hV
    rw [if_pos hV]
    have hX' : X ∈ eval W.stripStep (strip V) := reaches_eval hstrip ▸ hX
    by_cases hspecial : W.Special (strip V)
    · -- both stop here
      have hend : X = strip V :=
        Part.mem_unique hX' (mem_eval.mpr ⟨.refl, stripStep_special hspecial⟩)
      obtain ⟨hstop, hptr', hidem⟩ := stripNullOrUnDef_idem hspecial
      rw [canonicalize_eval (mem_eval.mpr ⟨.refl, hstop⟩) hb, if_pos hptr', hidem, hend]
    · rw [stripNullOrUnDef_of_not_special hspecial] at hb
      rw [canonicalize_eval hX' hb, if_pos (hptr hV)]
  · rename_i hV
    rw [canonicalize_eval hX hb]

end FICanonicalizer

end AserPTA
