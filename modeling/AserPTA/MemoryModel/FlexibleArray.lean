import AserPTA.MemoryModel.ClearLayout

/-!
# Fields that are arrays without elements

Such fields are inserted into a structure, at any depth, and the leaves keep their offsets.  The
objects stay what they were, unless the map of arrays drops an array that shares its offset with one
of the new fields.

* `Inserts`              the new type, with the steps to the old leaves in it;
* `Apart`                no two arrays of one level share an offset;
* `inserted_sameObject`  then every leaf has an object, the same ones as before.
-/

namespace AserPTA
open IRType

namespace IRType

/-! ## the new type -/

/-- the steps into the elements of an array -/
def inElem (g : List Step → List Step) : List Step → List Step
  | .index i :: π => .index i :: g π
  | π => π

/-- the steps into the fields of a structure, where field `i` becomes field `k i` -/
def inField (k : Nat → Nat) (g : Nat → List Step → List Step) : List Step → List Step
  | .field i :: π => .field (k i) :: g i π
  | π => π

/-- the second type is the first one with fields inserted that are arrays without elements, and the
steps of the first one become those of the second; names, offsets and sizes are free -/
inductive Inserts : IRType → IRType → (List Step → List Step) → Prop
  | scalar {size} : Inserts (scalar size) (scalar size) id
  | pointer {size} : Inserts (pointer size) (pointer size) id
  | array {n e e' g} : 0 < e'.allocSize → Inserts e e' g → Inserts (array n e) (array n e') (inElem g)
  | struct {name name' fields fields' size size'} {k : Nat → Nat} {target : Nat → Nat × IRType}
      {g : Nat → List Step → List Step} : StrictMono k →
      (∀ i f, fields[i]? = some f → fields'[k i]? = some (target i)) →
      (∀ i f, fields[i]? = some f → Inserts f.2 (target i).2 (g i)) →
      (∀ j f', fields'[j]? = some f' → (∃ i f, fields[i]? = some f ∧ k i = j) ∨
        ∃ e, f'.2 = IRType.array 0 e ∧ 0 < e.allocSize) →
      Inserts (struct name fields size) (struct name' fields' size') (inField k g)

/-- on every level the arrays start at different offsets; the elements of an array without size are
not looked at -/
inductive Apart : IRType → Prop
  | mk {T} : (topArrays T).Pairwise (fun x y => x.1 < y.1) →
      (∀ x ∈ topArrays T, 0 < x.2.1 * x.2.2.allocSize → Apart x.2.2) → Apart T

namespace Inserts

variable {T T' : IRType} {g : List Step → List Step}

theorem zeroed (h : Inserts T T' g) {π : List Step} {p : Nat} (hπ : Leaf T π p) :
    IRType.zeroed (g π) = g (IRType.zeroed π) := by
  induction hπ generalizing T' g with
  | scalar => cases h; rfl
  | pointer => cases h; rfl
  | elem _ _ ih =>
    cases h with
    | array _ h => exact congrArg (Step.index 0 :: ·) (ih h)
  | field hk _ ih =>
    cases h with
    | @struct _ _ _ _ _ _ k _ _ _ _ h _ => exact congrArg (Step.field (k _) :: ·) (ih (h _ _ hk))

theorem injective (h : Inserts T T' g) {π ρ : List Step} {p q : Nat} (hπ : Leaf T π p)
    (hρ : Leaf T ρ q) (heq : g π = g ρ) : π = ρ := by
  induction hπ generalizing T' g ρ q with
  | scalar => cases hρ; rfl
  | pointer => cases hρ; rfl
  | elem _ _ ih =>
    cases h with
    | array _ h =>
      cases hρ with
      | elem _ hρ =>
        obtain ⟨hi, htail⟩ := List.cons.inj heq
        obtain rfl := Step.index.inj hi
        rw [ih h hρ htail]
  | field hk _ ih =>
    cases h with
    | @struct _ _ _ _ _ _ k _ _ hmono _ h _ =>
      cases hρ with
      | field hk' hρ =>
        obtain ⟨hi, htail⟩ := List.cons.inj heq
        obtain rfl := hmono.injective (Step.field.inj hi)
        obtain ⟨rfl, rfl⟩ := Prod.mk.inj (Option.some.inj (hk.symm.trans hk'))
        rw [ih (h _ _ hk) hρ htail]

/-- the outermost arrays of the new type are new, or those of the old one with fields inserted -/
theorem topArrays (h : Inserts T T' g) {x : Nat × Nat × IRType} (hx : x ∈ IRType.topArrays T') :
    0 < x.2.2.allocSize ∧ (x.2.1 = 0 ∨ ∃ e g', Inserts e x.2.2 g') := by
  induction h generalizing x with
  | scalar =>
    rw [IRType.topArrays] at hx
    exact absurd hx List.not_mem_nil
  | pointer =>
    rw [IRType.topArrays] at hx
    exact absurd hx List.not_mem_nil
  | array hpos h _ =>
    rw [IRType.topArrays] at hx
    obtain rfl := List.mem_singleton.mp hx
    exact ⟨hpos, .inr ⟨_, _, h⟩⟩
  | struct _ htarget _ hnew ih =>
    rw [IRType.topArrays] at hx
    obtain ⟨f', hf', y, hy, rfl⟩ := mem_topArraysOf.mp hx
    obtain ⟨j, hj⟩ := List.mem_iff_getElem?.mp hf'
    rcases hnew j f' hj with ⟨i, f, hf, rfl⟩ | ⟨e, harr, hpos⟩
    · obtain rfl := Option.some.inj ((htarget i f hf).symm.trans hj)
      exact ih i f hf (x := y) hy
    · rw [harr, IRType.topArrays] at hy
      obtain rfl := List.mem_singleton.mp hy
      exact ⟨hpos, .inl rfl⟩

end Inserts

/-- no array of the new type has elements without scalars -/
theorem Apart.clear (T' : IRType) : Apart T' → Sized T' → (∃ T g, Inserts T T' g) → Clear T' := by
  induction T' using nesting_induction with
  | h T' ih =>
    rintro h hT' ⟨T, g, hins⟩
    cases h with
    | mk hkeys hin =>
      refine .mk hkeys (fun x hx hleafless => ?_) fun x hx hpos => ?_
      · have hzero := hleafless.allocSize (hT'.mem_topArrays hx).1
        have := (hins.topArrays hx).1
        omega
      · have hn : x.2.1 ≠ 0 := fun h0 => by
          rw [h0, Nat.zero_mul] at hpos
          exact lt_irrefl 0 hpos
        exact ih x hx (hin x hx hpos) (hT'.mem_topArrays hx).1
          ((hins.topArrays hx).2.resolve_left hn)

/-- in the old type all arrays have bytes -/
theorem Wf.clear (T : IRType) : Wf T → Sized T → Clear T := by
  induction T using nesting_induction with
  | h T ih =>
    intro h hT
    have hlevel := h.level
    have hpair := List.pairwise_map.mp hlevel.fits.pairwise
    refine .mk (hpair.imp_of_mem fun hx _ hle => ?_) (fun x hx hleafless => ?_) fun x hx _ => ?_
    · have := (hlevel.fits.end_le (List.mem_map_of_mem hx)).1
      change _ ≤ (_ : Nat) at hle
      simp only [arrayOf] at hle this
      omega
    · have hzero := hleafless.allocSize (hT.mem_topArrays hx).1
      have := (hlevel.element x hx).2.1
      omega
    · exact ih x hx (hlevel.element x hx).1 (hT.mem_topArrays hx).1

end IRType

/-! ## the objects -/

/-- where no two arrays of one level share an offset, and the code can store the layouts, a block of the
new type has an object at every leaf of the old one, and one object for two of them exactly when a block
of the old type has -/
theorem inserted_sameObject {T T' : IRType} {g : List Step → List Step} (hins : Inserts T T' g)
    (hT : Wf T) (hsized : Sized T) (hT' : Sized T') (hapart : Apart T') (hnarrow : T.Narrow)
    (hnarrow' : T'.Narrow) (hoff : ∀ π p, Leaf T π p → Leaf T' (g π) p) (Ts : List IRType)
    (qs qs' rs rs' : List Query) {π ρ : List Step} {p q : Nat} (hπ : Leaf T π p) (hρ : Leaf T ρ q) :
    ∃ x y u v, objectAfter Ts T' qs p = some (some x) ∧ objectAfter Ts T' qs' q = some (some y) ∧
      objectAfter Ts T rs p = some (some u) ∧ objectAfter Ts T rs' q = some (some v) ∧
      (x = y ↔ u = v) := by
  have hclear : Clear T' := hapart.clear T' hT' ⟨T, g, hins⟩
  obtain ⟨b, hb, hbp⟩ := objectAfter_eq hnarrow' Ts qs
  obtain ⟨b', hb', hbq⟩ := objectAfter_eq hnarrow' Ts qs'
  obtain ⟨d, hd, hdp⟩ := objectAfter_eq hnarrow Ts rs
  obtain ⟨d', hd', hdq⟩ := objectAfter_eq hnarrow Ts rs'
  have hold := (hT.clear T hsized).sameObject_iff hsized hd hd' hπ hρ
  have hnew := hclear.sameObject_iff hT' hb hb' (hoff π p hπ) (hoff ρ q hρ)
  obtain ⟨x, hx⟩ := Option.isSome_iff_exists.mp ((hclear.clearAt _).lookup_isSome hT' hb (hoff π p hπ))
  obtain ⟨y, hy⟩ := Option.isSome_iff_exists.mp ((hclear.clearAt _).lookup_isSome hT' hb' (hoff ρ q hρ))
  obtain ⟨u, hu⟩ :=
    Option.isSome_iff_exists.mp (((hT.clear T hsized).clearAt _).lookup_isSome hsized hd hπ)
  obtain ⟨v, hv⟩ :=
    Option.isSome_iff_exists.mp (((hT.clear T hsized).clearAt _).lookup_isSome hsized hd' hρ)
  refine ⟨x, y, u, v, by rw [hbp, hx], by rw [hbq, hy], by rw [hdp, hu], by rw [hdq, hv], ?_⟩
  rw [hx, hy, Option.some.injEq] at hnew
  rw [hu, hv, Option.some.injEq] at hold
  rw [hnew, hold, hins.zeroed hπ, hins.zeroed hρ]
  constructor
  · intro heq
    obtain ⟨c, -, hc⟩ := hπ.zeroed
    obtain ⟨d, -, hd⟩ := hρ.zeroed
    exact hins.injective hc hd heq
  · exact fun heq => congrArg g heq

/-! ### a flexible array before another array -/

/-- `{ i64, i32, [3 x i32] }`, with `[0 x i32]` at 8 or without -/
def plainStruct : IRType := struct 0 [(0, scalar 8), (8, scalar 4), (12, array 3 (scalar 4))] 24

def flexibleStruct : IRType :=
  struct 1 [(0, scalar 8), (8, array 0 (scalar 4)), (8, scalar 4), (12, array 3 (scalar 4))] 24

/-- `{ i64, [3 x i32] }`, with `[0 x i32]` at 8 or without -/
def plainArrayStruct : IRType := struct 0 [(0, scalar 8), (8, array 3 (scalar 4))] 24

def flexibleArrayStruct : IRType :=
  struct 1 [(0, scalar 8), (8, array 0 (scalar 4)), (8, array 3 (scalar 4))] 24

/-- field 0 stays, the others move by one -/
def behindFirst (i : Nat) : Nat := if i = 0 then 0 else i + 1

theorem strictMono_behindFirst : StrictMono behindFirst := by
  intro i j hij
  rw [behindFirst, behindFirst]
  split <;> split <;> omega

theorem wf_i64 : Wf (scalar 8) := .scalar (by decide) (by decide)

theorem wf_i32 : Wf (scalar 4) := .scalar (by decide) (by decide)

theorem wf_i32s : Wf (array 3 (scalar 4)) := .array (by decide) (by decide) (by decide) wf_i32

theorem sized_i64 : Sized (scalar 8) := .scalar (by decide) (by decide)

theorem sized_i32 : Sized (scalar 4) := .scalar (by decide) (by decide)

theorem sized_i32s {n : Nat} (hn : n ≤ 3) : Sized (array n (scalar 4)) := by
  refine .array (by unfold sizeMax; omega) ?_ sized_i32
  show n * 4 < 2 ^ 64
  omega

theorem inserts_flexibleStruct : Inserts plainStruct flexibleStruct
    (inField behindFirst fun i => if i = 2 then inElem id else id) := by
  refine @Inserts.struct _ _ _ _ _ _ _ (fun i => if i = 0 then (0, scalar 8)
    else if i = 1 then (8, scalar 4) else (12, array 3 (scalar 4))) _ strictMono_behindFirst ?_ ?_ ?_
  · intro i f hi
    match i, hi with
    | 0, _ => rfl
    | 1, _ => rfl
    | 2, _ => rfl
    | i + 3, hi => cases hi
  · intro i f hi
    match i, hi with
    | 0, hi => cases hi; exact .scalar
    | 1, hi => cases hi; exact .scalar
    | 2, hi => cases hi; exact .array (by decide) .scalar
    | i + 3, hi => cases hi
  · intro j f' hj
    match j, hj with
    | 0, _ => exact .inl ⟨0, _, rfl, rfl⟩
    | 1, hj => cases hj; exact .inr ⟨_, rfl, by decide⟩
    | 2, _ => exact .inl ⟨1, _, rfl, rfl⟩
    | 3, _ => exact .inl ⟨2, _, rfl, rfl⟩
    | j + 4, hj => cases hj

theorem leaf_flexibleStruct (π : List Step) (p : Nat) (h : Leaf plainStruct π p) :
    Leaf flexibleStruct (inField behindFirst (fun i => if i = 2 then inElem id else id) π) p := by
  cases h with
  | @field _ _ _ i off T π q hi hq =>
    match i, hi with
    | 0, hi => cases hi; cases hq; exact .field rfl .scalar
    | 1, hi => cases hi; cases hq; exact .field rfl .scalar
    | 2, hi =>
      cases hi
      cases hq with
      | elem hlt hq => cases hq; exact .field rfl (.elem hlt .scalar)
    | i + 3, hi => cases hi

theorem leaf_plainStruct {j : Nat} (hj : j < 3) :
    Leaf plainStruct [.field 2, .index j] (12 + (j * 4 + 0)) :=
  .field rfl (.elem hj .scalar)

theorem sized_flexibleStruct : Sized plainStruct ∧ Sized flexibleStruct := by
  constructor
  · refine .struct (by decide) (by decide) (by decide) fun f hf => ?_
    rcases List.mem_cons.mp hf with rfl | hf
    · exact sized_i64
    · rcases List.mem_pair.mp hf with rfl | rfl
      · exact sized_i32
      · exact sized_i32s le_rfl
  · refine .struct (by decide) (by decide) (by decide) fun f hf => ?_
    rcases List.mem_cons.mp hf with rfl | hf
    · exact sized_i64
    · rcases List.mem_cons.mp hf with rfl | hf
      · exact sized_i32s (by decide)
      · rcases List.mem_pair.mp hf with rfl | rfl
        · exact sized_i32
        · exact sized_i32s le_rfl

theorem wf_plainStruct : Wf plainStruct := by
  refine .struct (by decide) (by decide) fun f hf => ?_
  rcases List.mem_cons.mp hf with rfl | hf
  · exact wf_i64
  · rcases List.mem_pair.mp hf with rfl | rfl
    · exact wf_i32
    · exact wf_i32s

theorem apart_flexibleStruct : Apart flexibleStruct := by
  have hscalar : Apart (scalar 4) := by
    refine .mk ?_ ?_
    · rw [topArrays]
      exact .nil
    · rw [topArrays]
      exact fun x hx => absurd hx List.not_mem_nil
  have htop : topArrays flexibleStruct = [(8, 0, scalar 4), (12, 3, scalar 4)] := by decide
  refine .mk (by rw [htop]; decide) fun x hx _ => ?_
  rw [htop] at hx
  rcases List.mem_pair.mp hx with rfl | rfl <;> exact hscalar

/-- two elements of the array at 12 have one object -/
theorem inserted_sameObject_flexibleStruct :
    ∃ x y u v, objectAfter [] flexibleStruct [.object 8] 16 = some (some x) ∧
      objectAfter [] flexibleStruct [] 20 = some (some y) ∧
      objectAfter [] plainStruct [] 16 = some (some u) ∧
      objectAfter [] plainStruct [] 20 = some (some v) ∧ (x = y ↔ u = v) :=
  inserted_sameObject inserts_flexibleStruct wf_plainStruct sized_flexibleStruct.1
    sized_flexibleStruct.2 apart_flexibleStruct (by decide) (by decide) leaf_flexibleStruct []
    [.object 8] [] [] [] (leaf_plainStruct (j := 1) (by decide)) (leaf_plainStruct (j := 2) (by decide))

theorem inserts_flexibleArrayStruct : Inserts plainArrayStruct flexibleArrayStruct
    (inField behindFirst fun i => if i = 1 then inElem id else id) := by
  refine @Inserts.struct _ _ _ _ _ _ _ (fun i => if i = 0 then (0, scalar 8)
    else (8, array 3 (scalar 4))) _ strictMono_behindFirst ?_ ?_ ?_
  · intro i f hi
    match i, hi with
    | 0, _ => rfl
    | 1, _ => rfl
    | i + 2, hi => cases hi
  · intro i f hi
    match i, hi with
    | 0, hi => cases hi; exact .scalar
    | 1, hi => cases hi; exact .array (by decide) .scalar
    | i + 2, hi => cases hi
  · intro j f' hj
    match j, hj with
    | 0, _ => exact .inl ⟨0, _, rfl, rfl⟩
    | 1, hj => cases hj; exact .inr ⟨_, rfl, by decide⟩
    | 2, _ => exact .inl ⟨1, _, rfl, rfl⟩
    | j + 3, hj => cases hj

theorem leaf_plainArrayStruct {j : Nat} (hj : j < 3) :
    Leaf plainArrayStruct [.field 1, .index j] (8 + (j * 4 + 0)) :=
  .field rfl (.elem hj .scalar)

/-- where the new field is before an array, the array is dropped and its second element has no object -/
theorem inserted_dropsArray : Inserts plainArrayStruct flexibleArrayStruct
      (inField behindFirst fun i => if i = 1 then inElem id else id) ∧
    Wf plainArrayStruct ∧ Sized flexibleArrayStruct ∧
    plainArrayStruct.allocSize = flexibleArrayStruct.allocSize ∧
    (∀ π p, Leaf plainArrayStruct π p → Leaf flexibleArrayStruct
      (inField behindFirst (fun i => if i = 1 then inElem id else id) π) p) ∧
    Leaf plainArrayStruct [.field 1, .index 1] 12 ∧
    objectAfter [] flexibleArrayStruct [] 12 = some none := by
  refine ⟨inserts_flexibleArrayStruct, ?_, ?_, rfl, ?_, leaf_plainArrayStruct (j := 1) (by decide), ?_⟩
  · refine .struct (by decide) (by decide) fun f hf => ?_
    rcases List.mem_pair.mp hf with rfl | rfl
    · exact wf_i64
    · exact wf_i32s
  · refine .struct (by decide) (by decide) (by decide) fun f hf => ?_
    rcases List.mem_cons.mp hf with rfl | hf
    · exact sized_i64
    · rcases List.mem_pair.mp hf with rfl | rfl
      · exact sized_i32s (by decide)
      · exact sized_i32s le_rfl
  · intro π p h
    cases h with
    | @field _ _ _ i off T π q hi hq =>
      match i, hi with
      | 0, hi => cases hi; cases hq; exact .field rfl .scalar
      | 1, hi =>
        cases hi
        cases hq with
        | elem hlt hq => cases hq; exact .field rfl (.elem hlt .scalar)
      | i + 2, hi => cases hi
  · decide

end AserPTA
