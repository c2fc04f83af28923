import AserPTA.MemoryModel.VarIndex
import AserPTA.MemoryModel.PointerLayout

/-!
# The layouts of sized types

A sized type may have empty structures and arrays without elements.  The map of arrays keeps the first
one at each offset, and an array without elements has its place in the layout all the same.

* `Sized`                        what the data layout promises of a sized type;
* `Leafless`                     no scalar is in the type, not even in an array without elements;
* `Sized.subArrays_eq`           the arrays that the layout has;
* `Sized.maxLOffset_eq_zero`     the layout has no bytes exactly when no scalar is in the type;
* `Sized.bits`                   the offsets in the bit vectors.
-/

namespace AserPTA
open IRType

namespace IRType

/-- the first field starts the structure, and so does a field behind fields without size; without any
other field the structure has no size -/
def Leading : List (Nat × IRType) → Nat → Prop
  | [], size => size = 0
  | (off, T) :: rest, size => off = 0 ∧ (T.allocSize = 0 → Leading rest size)

instance Leading.decidable : ∀ fields size, Decidable (Leading fields size)
  | [], size => inferInstanceAs (Decidable (size = 0))
  | (off, T) :: rest, size =>
    have := decidable rest size
    inferInstanceAs (Decidable (off = 0 ∧ (T.allocSize = 0 → Leading rest size)))

/-- a sized type -/
inductive Sized : IRType → Prop
  | scalar {size} : 0 < size → size < 2 ^ 64 → Sized (scalar size)
  | pointer {size} : 0 < size → size < 2 ^ 64 → Sized (pointer size)
  | array {n e} : n < sizeMax → n * e.allocSize < 2 ^ 64 → Sized e → Sized (array n e)
  | struct {name fields size} : FieldsFit 0 fields size → Leading fields size → size < 2 ^ 64 →
      (∀ f ∈ fields, Sized f.2) → Sized (struct name fields size)

/-- no scalar is in the type -/
inductive Leafless : IRType → Prop
  | array {n e} : Leafless e → Leafless (array n e)
  | struct {name fields size} : (∀ f ∈ fields, Leafless f.2) → Leafless (struct name fields size)

theorem Sized.size_lt {T : IRType} (h : Sized T) : T.allocSize < 2 ^ 64 := by
  cases h with
  | scalar _ h => exact h
  | pointer _ h => exact h
  | array _ h _ => exact h
  | struct _ _ h _ => exact h

/-! ## the arrays -/

/-- the outermost arrays of a sized type -/
theorem Sized.mem_topArrays {T : IRType} (h : Sized T) {x : Nat × Nat × IRType}
    (hx : x ∈ IRType.topArrays T) : Sized x.2.2 ∧ arraySize x.2.1 x.2.2 = x.2.1 * x.2.2.allocSize ∧
      (arrayOf x).2.getArraySize = x.2.1 * x.2.2.allocSize := by
  induction h generalizing x with
  | scalar _ _ =>
    rw [IRType.topArrays] at hx
    exact absurd hx List.not_mem_nil
  | pointer _ _ =>
    rw [IRType.topArrays] at hx
    exact absurd hx List.not_mem_nil
  | @array n e hn hsize he _ =>
    rw [IRType.topArrays] at hx
    obtain rfl := List.mem_singleton.mp hx
    refine ⟨he, if_neg hn.ne, ?_⟩
    show (if n = sizeMax then sizeMax else n * e.allocSize % 2 ^ 64) = n * e.allocSize
    rw [if_neg hn.ne, Nat.mod_eq_of_lt hsize]
  | struct _ _ _ _ ih =>
    rw [IRType.topArrays] at hx
    obtain ⟨f, hf, y, hy, rfl⟩ := mem_topArraysOf.mp hx
    exact ih f hf (x := y) hy

theorem map_arrayOf_shift (off : Nat) (A : List (Nat × Nat × IRType)) :
    (A.map fun x => (x.1 + off, x.2)).map arrayOf = shift off (A.map arrayOf) := by
  rw [shift, List.map_map, List.map_map]
  rfl

/-- the arrays of the fields, when those of each field are in order -/
theorem ordered_topArraysOf {fields : List (Nat × IRType)}
    (hfields : ∀ f ∈ fields, Ordered 0 ((topArrays f.2).map arrayOf) f.2.allocSize) {p size : Nat}
    (hfit : FieldsFit p fields size) : Ordered p ((topArraysOf fields).map arrayOf) size := by
  induction fields generalizing p with
  | nil => exact hfit
  | cons f rest ih =>
    obtain ⟨off, T⟩ := f
    have hhead := (hfields _ List.mem_cons_self).shift off
    rw [Nat.zero_add, Nat.add_comm] at hhead
    rw [topArraysOf, List.map_append, map_arrayOf_shift]
    exact (hhead.append (ih (fun g hg => hfields g (.tail _ hg)) hfit.2)).mono_left hfit.1

theorem Sized.ordered {T : IRType} (h : Sized T) :
    Ordered 0 ((topArrays T).map arrayOf) T.allocSize := by
  induction h with
  | scalar _ _ =>
    rw [IRType.topArrays]
    exact Nat.zero_le _
  | pointer _ _ =>
    rw [IRType.topArrays]
    exact Nat.zero_le _
  | @array n e hn hsize he _ =>
    have h := (Sized.array hn hsize he).mem_topArrays
      (x := (0, n, e)) (by rw [IRType.topArrays]; exact List.mem_singleton_self _)
    rw [IRType.topArrays]
    refine ⟨le_rfl, ?_⟩
    show 0 + (arrayOf (0, n, e)).2.getArraySize ≤ n * e.allocSize
    rw [h.2.2, Nat.zero_add]
  | struct hfit _ _ _ ih =>
    rw [IRType.topArrays]
    exact ordered_topArraysOf ih hfit

theorem ordered_fieldArrays {fields : List (Nat × IRType)}
    (hfields : ∀ f ∈ fields, Ordered 0 (layoutOf f.2).subArrays f.2.allocSize) {p size : Nat}
    (hfit : FieldsFit p fields size) : Ordered p (fieldArrays fields) size := by
  induction fields generalizing p with
  | nil => exact hfit
  | cons f rest ih =>
    have hhead := (hfields f List.mem_cons_self).shift f.1
    rw [Nat.zero_add, Nat.add_comm] at hhead
    exact (hhead.append (ih (fun g hg => hfields g (.tail _ hg)) hfit.2)).mono_left hfit.1

/-- the arrays of the fields are taken as those of the types of the fields are -/
theorem taken_fieldArrays {fields : List (Nat × IRType)}
    (hfields : ∀ f ∈ fields, (layoutOf f.2).subArrays = (taken none (topArrays f.2)).map arrayOf)
    (last : Option Nat) :
    taken last (fieldArrays fields) = taken last ((topArraysOf fields).map arrayOf) := by
  induction fields generalizing last with
  | nil => rfl
  | cons f rest ih =>
    obtain ⟨off, T⟩ := f
    have hhead : shift off (layoutOf T).subArrays =
        taken none (((topArrays T).map fun x => (x.1 + off, x.2)).map arrayOf) := by
      have hmap := taken_map (fun y : Nat × IRType => (arrayOf (0, y)).2) none
        ((topArrays T).map fun x => (x.1 + off, x.2))
      have hshift := taken_shift off none (topArrays T)
      rw [hfields _ List.mem_cons_self, ← map_arrayOf_shift]
      exact (congrArg (List.map arrayOf) hshift.symm).trans hmap.symm
    rw [fieldArrays, topArraysOf, List.map_append, hhead, taken_taken_append _ _ (.inl rfl)]
    exact taken_append_congr (fun last => ih (fun g hg => hfields g (.tail _ hg)) last) _ last

theorem keys_lt_of {T : IRType} (h : Sized T)
    (hA : (layoutOf T).subArrays = (taken none (topArrays T)).map arrayOf) :
    (layoutOf T).subArrays.Pairwise fun x y => x.1 < y.1 := by
  have hle := h.ordered.keys_le
  rw [List.pairwise_map] at hle
  rw [hA, List.pairwise_map]
  exact (taken_pairwise hle (by exact nofun)).1

/-- merging into a new map -/
theorem foldl_insert_self {A : List (Nat × ArrayLayout)} (h : A.Pairwise fun x y => x.1 < y.1) :
    A.foldl (fun sub x => insertSubArray (x.1 + 0) x.2 sub) [] = A := by
  refine (foldl_insert_taken (B := []) (h.imp Nat.le_of_lt) .nil
    (fun y hy => absurd hy List.not_mem_nil)).trans ?_
  rw [List.nil_append]
  exact taken_eq_self h (by exact nofun)

/-- the arrays of the layout are the first ones at their offsets -/
theorem Sized.subArrays_eq {T : IRType} (h : Sized T) :
    (layoutOf T).subArrays = (taken none (topArrays T)).map arrayOf := by
  induction h with
  | scalar _ _ =>
    rw [layoutOf_scalar, IRType.topArrays]
    rfl
  | pointer _ _ =>
    rw [layoutOf_pointer, IRType.topArrays]
    rfl
  | @array n e _ _ he ih =>
    rw [layoutOf_array_subArrays_of (foldl_insert_self (keys_lt_of he ih)), IRType.topArrays]
    rfl
  | @struct name fields size hfit hlead hsize hfields ih =>
    have hle : (fieldArrays fields).Pairwise fun x y => x.1 ≤ y.1 := by
      refine (ordered_fieldArrays (fun f hf => ?_) hfit).keys_le
      rw [ih f hf]
      exact (hfields f hf).ordered.sublist ((taken_sublist _ _).map _)
    have hfold := foldl_insert_taken hle (B := []) .nil (fun y hy => absurd hy List.not_mem_nil)
    have hmap := taken_map (fun y : Nat × IRType => (arrayOf (0, y)).2) none (topArraysOf fields)
    rw [(@layoutOf_struct_eq name size fields hfit).1, IRType.topArrays]
    refine hfold.trans ?_
    rw [List.nil_append]
    exact (taken_fieldArrays ih none).trans hmap

theorem Sized.ordered_subArrays {T : IRType} (h : Sized T) :
    Ordered 0 (layoutOf T).subArrays T.allocSize := by
  rw [h.subArrays_eq]
  exact h.ordered.sublist ((taken_sublist _ _).map _)

theorem Sized.keys_lt {T : IRType} (h : Sized T) :
    (layoutOf T).subArrays.Pairwise fun x y => x.1 < y.1 := keys_lt_of h h.subArrays_eq

theorem Sized.layoutOf_array_subArrays {n : Nat} {e : IRType} (h : Sized e) :
    (layoutOf (.array n e)).subArrays = [arrayOf (0, n, e)] :=
  layoutOf_array_subArrays_of (foldl_insert_self h.keys_lt)

/-! ## the layout offsets -/

section
variable {lOffset pOffset : Nat} {fields : List (Nat × IRType)}

theorem le_endOffsets : lOffset ≤ (endOffsets lOffset pOffset fields).1 := by
  induction fields generalizing lOffset pOffset with
  | nil => exact le_rfl
  | cons f rest ih => exact le_trans (by omega) (@ih _ (f.1 + f.2.allocSize))

/-- the layout of a field lies between the offsets -/
theorem fieldLOffset_le {k off : Nat} {T : IRType} (hk : fields[k]? = some (off, T)) :
    lOffset ≤ fieldLOffset lOffset pOffset fields k ∧
      fieldLOffset lOffset pOffset fields k + (layoutOf T).maxLOffset ≤
        (endOffsets lOffset pOffset fields).1 := by
  induction fields generalizing lOffset pOffset k with
  | nil => cases hk
  | cons f rest ih =>
    cases k with
    | zero =>
      obtain rfl := Option.some.inj hk
      exact ⟨Nat.le_add_right _ _, le_endOffsets⟩
    | succ k =>
      obtain ⟨h1, h2⟩ := @ih (lOffset + (f.1 - pOffset) + (layoutOf f.2).maxLOffset)
        (f.1 + f.2.allocSize) k hk
      exact ⟨le_trans (by omega) h1, h2⟩

end

/-- the elements are in the layout, and the pointers are elements -/
theorem Sized.bits {T : IRType} (h : Sized T) :
    (∀ l ∈ (layoutOf T).elementLayout, l < (layoutOf T).maxLOffset) ∧
      (layoutOf T).pointerLayout ⊆ (layoutOf T).elementLayout := by
  induction h with
  | scalar hpos _ =>
    rw [layoutOf_scalar]
    refine ⟨fun l hl => ?_, Finset.empty_subset _⟩
    rw [Finset.mem_singleton.mp hl]
    exact hpos
  | pointer hpos _ =>
    rw [layoutOf_pointer]
    refine ⟨fun l hl => ?_, Finset.Subset.refl _⟩
    rw [Finset.mem_singleton.mp hl]
    exact hpos
  | array _ _ _ ih =>
    rw [layoutOf_array_elementLayout, layoutOf_array_maxLOffset]
    exact ⟨ih.1, fun l hl => ih.2 (mem_layoutOf_array_pointerLayout.mp hl)⟩
  | @struct name fields size hfit _ _ _ ih =>
    obtain ⟨-, hmax, -, helem⟩ := @layoutOf_struct_eq name size fields hfit
    constructor
    · intro l hl
      obtain ⟨k, off, T, m, hk, hm, rfl⟩ := (helem l).mp hl
      have hlt := (ih _ (List.mem_of_getElem? hk)).1 m hm
      have hle : fieldLOffset 0 0 fields k + _ ≤ (endOffsets 0 0 fields).1 := (fieldLOffset_le hk).2
      rw [hmax]
      dsimp only at hlt
      omega
    · intro l hl
      obtain ⟨k, off, T, m, hk, hm, rfl⟩ := (mem_layoutOf_struct_pointerLayout hfit).mp hl
      exact (helem _).mpr ⟨k, off, T, m, hk, (ih _ (List.mem_of_getElem? hk)).2 hm, rfl⟩

/-- fields without size have none of the structure's offsets -/
theorem Leading.no_size {fields : List (Nat × IRType)} {size : Nat} (hlead : Leading fields size)
    (hzero : ∀ f ∈ fields, f.2.allocSize = 0) : size = 0 := by
  induction fields with
  | nil => exact hlead
  | cons f rest ih =>
    exact ih (hlead.2 (hzero f List.mem_cons_self)) fun g hg => hzero g (.tail _ hg)

theorem Leading.endOffsets_eq {fields : List (Nat × IRType)} {size : Nat} (hlead : Leading fields size)
    (hzero : ∀ f ∈ fields, f.2.allocSize = 0)
    (hmaxL : ∀ f ∈ fields, (layoutOf f.2).maxLOffset = 0) : endOffsets 0 0 fields = (0, 0) := by
  induction fields with
  | nil => rfl
  | cons f rest ih =>
    obtain ⟨off, T⟩ := f
    obtain ⟨rfl, hrest⟩ := hlead
    have hT := hzero _ List.mem_cons_self
    have hm := hmaxL _ List.mem_cons_self
    dsimp only at hT hm
    rw [endOffsets, hT, hm]
    exact ih (hrest hT) (fun g hg => hzero g (.tail _ hg)) fun g hg => hmaxL g (.tail _ hg)

theorem Leafless.allocSize {T : IRType} (h : Sized T) (hT : Leafless T) : T.allocSize = 0 := by
  induction h with
  | scalar _ _ => cases hT
  | pointer _ _ => cases hT
  | @array n e _ _ _ ih =>
    cases hT with
    | array he =>
      show n * e.allocSize = 0
      rw [ih he, Nat.mul_zero]
  | struct _ hlead _ _ ih =>
    cases hT with
    | struct hfields => exact hlead.no_size fun f hf => ih f hf (hfields f hf)

/-- the layout has bytes unless no scalar is in the type -/
theorem Sized.maxLOffset_eq_zero {T : IRType} (h : Sized T) :
    (layoutOf T).maxLOffset = 0 ↔ Leafless T := by
  induction h with
  | scalar hpos _ =>
    rw [layoutOf_scalar]
    exact iff_of_false hpos.ne' (by exact nofun)
  | pointer hpos _ =>
    rw [layoutOf_pointer]
    exact iff_of_false hpos.ne' (by exact nofun)
  | array _ _ _ ih =>
    rw [layoutOf_array_maxLOffset, ih]
    exact ⟨.array, fun h => by cases h with | array he => exact he⟩
  | @struct name fields size hfit hlead hsize hfields ih =>
    obtain ⟨-, hmax, -⟩ := @layoutOf_struct_eq name size fields hfit
    rw [hmax]
    constructor
    · intro hzero
      refine .struct fun f hf => (ih f hf).mp ?_
      obtain ⟨k, hk⟩ := List.mem_iff_getElem?.mp hf
      have hle : fieldLOffset 0 0 fields k + _ ≤ (endOffsets 0 0 fields).1 := (fieldLOffset_le hk).2
      omega
    · intro hT
      cases hT with
      | struct hleafless =>
        have hsizes : ∀ f ∈ fields, f.2.allocSize = 0 :=
          fun f hf => (hleafless f hf).allocSize (hfields f hf)
        have hmaxL : ∀ f ∈ fields, (layoutOf f.2).maxLOffset = 0 :=
          fun f hf => (ih f hf).mpr (hleafless f hf)
        rw [hlead.endOffsets_eq hsizes hmaxL, hlead.no_size hsizes]
        rfl

/-- an aggregate has the bytes of its type -/
theorem Sized.maxPOffset {T : IRType} (h : Sized T) : (layoutOf T).maxPOffset = T.allocSize := by
  cases h with
  | scalar _ _ => rw [layoutOf_scalar]; rfl
  | pointer _ _ => rw [layoutOf_pointer]; rfl
  | array hn hsize _ => exact layoutOf_array_maxPOffset hn hsize
  | @struct name fields size hfit _ _ _ => exact (@layoutOf_struct_eq name size fields hfit).2.2.1

end IRType
end AserPTA
