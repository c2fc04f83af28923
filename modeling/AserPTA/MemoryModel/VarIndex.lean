import AserPTA.MemoryModel.MemBlock

/-!
# Indices that are not constant

Such a GEP keeps its object if there is an array with its step size at the object's offset.  The search
for it looks into the first array before the offset that is large enough by the wrong comparison: the
end of the array is compared with the step size, and not with the offset.

* `topArrays`              the outermost arrays of a type, in the order of their offsets;
* `ArrayAt`                an array at an offset, in the first elements of the arrays around it;
* `Unshadowed`             no array that starts before an array around the offset ends behind the step size;
* `isArrayExistAtOffset_iff`   what the search finds;
* `validateStepSize_iff`   so this is when it finds what is there.
-/

namespace AserPTA
open IRType

namespace IRType

mutual

/-- the outermost arrays of a type: start, number of elements, element -/
def topArrays : IRType → List (Nat × Nat × IRType)
  | scalar _ => []
  | pointer _ => []
  | array n e => [(0, n, e)]
  | struct _ fields _ => topArraysOf fields

def topArraysOf : List (Nat × IRType) → List (Nat × Nat × IRType)
  | [] => []
  | (off, T) :: rest => (topArrays T).map (fun x => (x.1 + off, x.2)) ++ topArraysOf rest

end

/-- an unbounded array extends as far as offsets do -/
def arraySize (n : Nat) (e : IRType) : Nat := if n = sizeMax then sizeMax else n * e.allocSize

/-- an array whose elements have size `s` starts at the offset, with index 0 in every array around it -/
inductive ArrayAt (s : Nat) : IRType → Nat → Prop
  | here {n e} : e.allocSize = s → ArrayAt s (array n e) 0
  | elem {n e c} : ArrayAt s e c → ArrayAt s (array n e) c
  | field {name fields size f c} : f ∈ fields → ArrayAt s f.2 c →
      ArrayAt s (struct name fields size) (f.1 + c)

/-- on the way to the offset: at every array around it that starts before it, the arrays that start
before that one end below `s` -/
inductive Unshadowed (s : Nat) : IRType → Nat → Prop
  | start {T c n e} : (c, n, e) ∈ topArrays T → Unshadowed s T c
  | inside {T c off n e} : (off, n, e) ∈ topArrays T → off < c → c < off + arraySize n e →
      (∀ x ∈ topArrays T, x.1 < off → x.1 + arraySize x.2.1 x.2.2 < s) →
      Unshadowed s e (c - off) → Unshadowed s T c

theorem mem_topArraysOf {fields : List (Nat × IRType)} {x : Nat × Nat × IRType} :
    x ∈ topArraysOf fields ↔ ∃ f ∈ fields, ∃ y ∈ topArrays f.2, (y.1 + f.1, y.2) = x := by
  induction fields with
  | nil => simp only [topArraysOf, List.not_mem_nil, false_and, exists_false]
  | cons f rest ih =>
    rw [topArraysOf, List.mem_append, ih, List.mem_map]
    simp only [List.mem_cons, exists_eq_or_imp]

/-- by induction on the nesting of arrays -/
theorem nesting_induction {Q : IRType → Prop} (h : ∀ T, (∀ x ∈ topArrays T, Q x.2.2) → Q T) (T : IRType) :
    Q T := by
  have hall : ∀ T, ∀ x ∈ topArrays T, Q x.2.2 := by
    intro T
    induction T using IRType.induction with
    | scalar _ => rw [topArrays]; exact fun _ hx => absurd hx List.not_mem_nil
    | pointer _ => rw [topArrays]; exact fun _ hx => absurd hx List.not_mem_nil
    | array n e ih =>
      rw [topArrays]
      intro x hx
      rw [List.mem_singleton.mp hx]
      exact h e ih
    | struct name fields size ih =>
      rw [topArrays]
      intro x hx
      obtain ⟨f, hf, y, hy, rfl⟩ := mem_topArraysOf.mp hx
      exact ih f hf y hy
  exact h T (hall T)

/-- the array is one of the outermost ones or in an element of one -/
theorem arrayAt_iff {s c : Nat} {T : IRType} : ArrayAt s T c ↔ ∃ x ∈ topArrays T,
    (c = x.1 ∧ x.2.2.allocSize = s) ∨ ∃ d, c = x.1 + d ∧ ArrayAt s x.2.2 d := by
  induction T using IRType.induction generalizing c with
  | scalar _ => exact iff_of_false nofun (by rw [topArrays]; simp)
  | pointer _ => exact iff_of_false nofun (by rw [topArrays]; simp)
  | array n e ih =>
    rw [topArrays]
    constructor
    · intro h
      refine ⟨_, List.mem_singleton_self _, ?_⟩
      cases h with
      | here hs => exact Or.inl ⟨rfl, hs⟩
      | elem h => exact Or.inr ⟨c, (Nat.zero_add c).symm, h⟩
    · rintro ⟨x, hx, h⟩
      obtain rfl := List.mem_singleton.mp hx
      rcases h with ⟨rfl, hs⟩ | ⟨d, rfl, h⟩
      · exact .here hs
      · rw [Nat.zero_add]
        exact .elem h
  | struct name fields size ih =>
    rw [topArrays]
    constructor
    · intro h
      cases h with
      | @field _ _ _ f c hf h =>
        obtain ⟨y, hy, hin⟩ := (ih f hf).mp h
        refine ⟨_, mem_topArraysOf.mpr ⟨f, hf, y, hy, rfl⟩, ?_⟩
        rcases hin with ⟨rfl, hs⟩ | ⟨d, rfl, hd⟩
        · exact Or.inl ⟨Nat.add_comm _ _, hs⟩
        · refine Or.inr ⟨d, ?_, hd⟩
          show f.1 + (y.1 + d) = y.1 + f.1 + d
          omega
    · rintro ⟨x, hx, h⟩
      obtain ⟨f, hf, y, hy, rfl⟩ := mem_topArraysOf.mp hx
      rcases h with ⟨rfl, hs⟩ | ⟨d, rfl, h⟩
      · have hfield : ArrayAt s (struct name fields size) (f.1 + _) := .field hf
          ((ih f hf).mpr ⟨y, hy, Or.inl ⟨rfl, hs⟩⟩)
        rwa [Nat.add_comm] at hfield
      · have hfield : ArrayAt s (struct name fields size) (f.1 + _) := .field hf
          ((ih f hf).mpr ⟨y, hy, Or.inr ⟨d, rfl, h⟩⟩)
        rwa [← Nat.add_assoc, Nat.add_comm f.1] at hfield

/-- a field lies in its structure -/
theorem FieldsFit.field_le {fields : List (Nat × IRType)} {p size : Nat} (h : FieldsFit p fields size)
    {f : Nat × IRType} (hf : f ∈ fields) : f.1 + f.2.allocSize ≤ size := by
  induction fields generalizing p with
  | nil => exact absurd hf List.not_mem_nil
  | cons g rest ih =>
    rcases List.mem_cons.mp hf with rfl | hf
    · exact h.2.le
    · exact ih h.2 hf

/-- an element of the array lies in the type -/
theorem ArrayAt.le {s c : Nat} {T : IRType} (h : ArrayAt s T c) (hT : Wf T) :
    0 < s ∧ c + s ≤ T.allocSize := by
  induction h with
  | here hs =>
    cases hT with
    | array hn hpos _ _ =>
      rw [Nat.zero_add, ← hs]
      exact ⟨hpos, Nat.le_mul_of_pos_left _ hn⟩
  | elem _ ih =>
    cases hT with
    | array hn _ _ he =>
      exact ⟨(ih he).1, (ih he).2.trans (Nat.le_mul_of_pos_left _ hn)⟩
  | @field _ fields _ f c hf _ ih =>
    cases hT with
    | struct hfit _ hfields =>
      obtain ⟨hpos, hle⟩ := ih (hfields f hf)
      have hfield := hfit.field_le hf
      refine ⟨hpos, ?_⟩
      show f.1 + c + s ≤ _
      exact le_trans (by omega) hfield

end IRType
/-! ## the search in one map of arrays -/

theorem ArrayLayout.existAtOffset_eq (arr : ArrayLayout) (p s : Nat) :
    arr.existAtOffset p s = isArrayExistAtOffset arr.subArrays p s := by
  cases arr
  rw [ArrayLayout.existAtOffset, isArrayExistAtOffset]
  rfl

section
variable {A : List (Nat × ArrayLayout)} {lo hi c s : Nat}

/-- arrays that share an offset are one -/
theorem Fits.eq_of_overlap (h : Fits lo A hi) {x y : Nat × ArrayLayout} (hx : x ∈ A) (hy : y ∈ A)
    (hxc : x.1 ≤ c) (hcx : c < x.1 + x.2.getArraySize) (hyc : y.1 ≤ c)
    (hcy : c < y.1 + y.2.getArraySize) : x = y := by
  induction A generalizing lo with
  | nil => exact absurd hx List.not_mem_nil
  | cons z rest ih =>
    rcases List.mem_cons.mp hx with rfl | hx' <;> rcases List.mem_cons.mp hy with rfl | hy'
    · rfl
    · have := (h.2.2.key_lt hy').1
      omega
    · have := (h.2.2.key_lt hx').1
      omega
    · exact ih h.2.2 hx' hy'

theorem Fits.end_le (h : Fits lo A hi) {x : Nat × ArrayLayout} (hx : x ∈ A) :
    0 < x.2.getArraySize ∧ x.1 + x.2.getArraySize ≤ hi := by
  induction A generalizing lo with
  | nil => exact absurd hx List.not_mem_nil
  | cons z rest ih =>
    rcases List.mem_cons.mp hx with rfl | hx
    · exact ⟨h.2.1, h.2.2.le⟩
    · exact ih h.2.2 hx

theorem Fits.pairwise (h : Fits lo A hi) :
    A.Pairwise fun x y => x.1 + x.2.getArraySize ≤ y.1 := by
  induction A generalizing lo with
  | nil => exact List.Pairwise.nil
  | cons z rest ih => exact List.pairwise_cons.mpr ⟨fun y hy => (h.2.2.key_lt hy).1, ih h.2.2⟩

/-- the branch for an array at the offset -/
theorem isArrayExistAt_iff (h : Fits lo A hi) : isArrayExistAt A c s = true ↔
    ∃ x ∈ A, x.1 = c ∧ (x.2.elementSize = s ∨
      (s < x.2.elementSize ∧ isArrayExistAtOffset x.2.subArrays 0 s = true)) := by
  induction A generalizing lo with
  | nil => exact iff_of_false Bool.false_ne_true (by rintro ⟨x, hx, -⟩; exact List.not_mem_nil hx)
  | cons z rest ih =>
    obtain ⟨off, arr⟩ := z
    rw [isArrayExistAt]
    by_cases hoff : off = c
    · subst hoff
      rw [if_pos rfl]
      -- the arrays behind start elsewhere
      have hrest : ∀ x ∈ rest, x.1 ≠ off := fun x hx => by
        have := (h.2.2.key_lt hx).1
        have := h.2.1
        omega
      have hhead : (∃ x ∈ (off, arr) :: rest, x.1 = off ∧ (x.2.elementSize = s ∨
          (s < x.2.elementSize ∧ isArrayExistAtOffset x.2.subArrays 0 s = true))) ↔
          (arr.elementSize = s ∨
            (s < arr.elementSize ∧ isArrayExistAtOffset arr.subArrays 0 s = true)) := by
        constructor
        · rintro ⟨x, hx, hxoff, hfound⟩
          rcases List.mem_cons.mp hx with rfl | hx
          · exact hfound
          · exact absurd hxoff (hrest x hx)
        · exact fun hfound => ⟨_, List.mem_cons_self, rfl, hfound⟩
      rw [hhead]
      split
      · next heq => exact iff_of_true rfl (Or.inl heq)
      · next hne =>
        split
        · next hlt => exact iff_of_false Bool.false_ne_true (by omega)
        · next hge =>
          rw [ArrayLayout.existAtOffset_eq, or_iff_right hne]
          exact (and_iff_right (by omega)).symm
    · rw [if_neg hoff, ih h.2.2]
      constructor
      · rintro ⟨x, hx, hfound⟩
        exact ⟨x, List.mem_cons_of_mem _ hx, hfound⟩
      · rintro ⟨x, hx, hxc, hfound⟩
        rcases List.mem_cons.mp hx with rfl | hx
        · exact absurd hxc hoff
        · exact ⟨x, hx, hxc, hfound⟩

/-- the loop takes the first array that starts before the offset and ends at `s` or behind -/
theorem isArrayExistAround_iff (h : Fits lo A hi) (hhi : hi < 2 ^ 64) :
    isArrayExistAround A c s = true ↔ ∃ x ∈ A, x.1 < c ∧ s ≤ x.1 + x.2.getArraySize ∧
      (∀ y ∈ A, y.1 < x.1 → y.1 + y.2.getArraySize < s) ∧
      isArrayExistAtOffset x.2.subArrays (c - x.1) s = true := by
  induction A generalizing lo with
  | nil => exact iff_of_false Bool.false_ne_true (by rintro ⟨x, hx, -⟩; exact List.not_mem_nil hx)
  | cons z rest ih =>
    obtain ⟨off, arr⟩ := z
    have hend : (off + arr.getArraySize) % 2 ^ 64 = off + arr.getArraySize :=
      Nat.mod_eq_of_lt (h.2.2.le.trans_lt hhi)
    have hlater : ∀ x ∈ rest, off < x.1 := fun x hx => by
      have := (h.2.2.key_lt hx).1
      have := h.2.1
      omega
    rw [isArrayExistAround, hend]
    by_cases htaken : off < c ∧ s ≤ off + arr.getArraySize
    · rw [if_pos htaken, ArrayLayout.existAtOffset_eq]
      constructor
      · intro hfound
        refine ⟨_, List.mem_cons_self, htaken.1, htaken.2, fun y hy hlt => ?_, hfound⟩
        rcases List.mem_cons.mp hy with rfl | hy
        · exact absurd hlt (lt_irrefl off)
        · exact absurd hlt (hlater y hy).not_gt
      · rintro ⟨x, hx, -, -, hbefore, hfound⟩
        rcases List.mem_cons.mp hx with rfl | hx
        · exact hfound
        · have := hbefore _ List.mem_cons_self (hlater x hx)
          dsimp only at this
          omega
    · rw [if_neg htaken, ih h.2.2]
      constructor
      · rintro ⟨x, hx, hxc, hs, hbefore, hfound⟩
        refine ⟨x, List.mem_cons_of_mem _ hx, hxc, hs, fun y hy hlt => ?_, hfound⟩
        rcases List.mem_cons.mp hy with rfl | hy
        · dsimp only at hlt ⊢
          omega
        · exact hbefore y hy hlt
      · rintro ⟨x, hx, hxc, hs, hbefore, hfound⟩
        rcases List.mem_cons.mp hx with rfl | hx
        · exact absurd ⟨hxc, hs⟩ htaken
        · exact ⟨x, hx, hxc, hs, fun y hy => hbefore y (List.mem_cons_of_mem _ hy), hfound⟩

/-- `isArrayExistAtOffset`, by whether an array starts at the offset -/
theorem isArrayExistAtOffset_at {x : Nat × ArrayLayout} (h : Fits lo A hi) (hx : x ∈ A)
    (hxc : x.1 = c) : isArrayExistAtOffset A c s = true ↔ x.2.elementSize = s ∨
      (s < x.2.elementSize ∧ isArrayExistAtOffset x.2.subArrays 0 s = true) := by
  rw [isArrayExistAtOffset, if_pos (List.mem_map.mpr ⟨x, hx, hxc⟩), isArrayExistAt_iff h]
  constructor
  · rintro ⟨y, hy, hyc, hfound⟩
    have hxpos := (h.end_le hx).1
    have hypos := (h.end_le hy).1
    rwa [h.eq_of_overlap hx hy hxc.le (by omega) hyc.le (by omega)]
  · exact fun hfound => ⟨x, hx, hxc, hfound⟩

theorem isArrayExistAtOffset_around (h : Fits lo A hi) (hhi : hi < 2 ^ 64) (hc : ∀ x ∈ A, x.1 ≠ c) :
    isArrayExistAtOffset A c s = true ↔ ∃ x ∈ A, x.1 < c ∧ s ≤ x.1 + x.2.getArraySize ∧
      (∀ y ∈ A, y.1 < x.1 → y.1 + y.2.getArraySize < s) ∧
      isArrayExistAtOffset x.2.subArrays (c - x.1) s = true := by
  have hkey : c ∉ A.map Prod.fst := by
    intro hmem
    obtain ⟨x, hx, hxc⟩ := List.mem_map.mp hmem
    exact hc x hx hxc
  rw [isArrayExistAtOffset, if_neg hkey, isArrayExistAround_iff h hhi]

/-- the offset that indexing leaves, inside an array -/
theorem between_inside (h : Fits lo A hi) {x : Nat × ArrayLayout} (hx : x ∈ A) (hxc : x.1 < c)
    (hcx : c < x.1 + x.2.getArraySize) (d : Int) :
    (between A c d).2 = x.1 + (x.2.indexPhysicalOffset (c - x.1)).2 := by
  induction A generalizing lo d with
  | nil => exact absurd hx List.not_mem_nil
  | cons z rest ih =>
    rw [between]
    rcases List.mem_cons.mp hx with rfl | hx
    · rw [if_neg (by omega), if_neg (by omega)]
    · have := (h.2.2.key_lt hx).1
      have := h.2.1
      rw [if_neg (by omega), if_pos (by omega)]
      exact ih h.2.2 hx _

end

/-! ## the outermost arrays of a layout -/

/-- the array as the layout has it -/
def arrayOf (x : Nat × Nat × IRType) : Nat × ArrayLayout :=
  (x.1, .mk x.2.1 x.2.2.allocSize (layoutOf x.2.2).maxLOffset (layoutOf x.2.2).subArrays)

/-- the outermost arrays of a layout whose arrays end at `hi` -/
structure Level (T : IRType) (hi : Nat) : Prop where
  arrays : (layoutOf T).subArrays = (topArrays T).map arrayOf
  fits : Fits 0 ((topArrays T).map arrayOf) hi
  hi_lt : hi < 2 ^ 64
  element : ∀ x ∈ topArrays T, Wf x.2.2 ∧ 0 < x.2.2.allocSize ∧
    x.2.2.allocSize ≤ arraySize x.2.1 x.2.2 ∧
    (arrayOf x).2.getArraySize = arraySize x.2.1 x.2.2

namespace IRType

theorem Wf.subArrays_eq {T : IRType} (h : Wf T) :
    (layoutOf T).subArrays = (topArrays T).map arrayOf := by
  induction h with
  | scalar _ _ => rw [layoutOf_scalar, topArrays]; rfl
  | pointer _ _ => rw [layoutOf_pointer, topArrays]; rfl
  | array _ _ _ he _ =>
    rw [layoutOf_array_subArrays he.indexed.fits, topArrays]
    rfl
  | @struct name fields size hfit _ hfields ih =>
    rw [(layoutOf_struct_spec (fun f hf => (hfields f hf).indexed) hfit).1, topArrays]
    clear hfit hfields
    induction fields with
    | nil => rfl
    | cons f rest ihrest =>
      rw [fieldArrays, topArraysOf, List.map_append,
        ihrest fun g hg => ih g (List.mem_cons_of_mem f hg), ih f List.mem_cons_self, shift,
        List.map_map, List.map_map]
      rfl

/-- the outermost arrays are well-formed types -/
theorem Wf.topArrays {T : IRType} (h : Wf T) :
    ∀ x ∈ topArrays T, Wf (.array x.2.1 x.2.2) := by
  induction h with
  | scalar _ _ => rw [IRType.topArrays]; exact fun _ hx => absurd hx List.not_mem_nil
  | pointer _ _ => rw [IRType.topArrays]; exact fun _ hx => absurd hx List.not_mem_nil
  | array hn hs hsize he _ =>
    rw [IRType.topArrays]
    intro x hx
    rw [List.mem_singleton.mp hx]
    exact .array hn hs hsize he
  | struct _ _ _ ih =>
    rw [IRType.topArrays]
    intro x hx
    obtain ⟨f, hf, y, hy, rfl⟩ := mem_topArraysOf.mp hx
    exact ih f hf y hy

theorem Wf.level {T : IRType} (h : Wf T) : Level T T.allocSize where
  arrays := h.subArrays_eq
  fits := h.subArrays_eq ▸ h.indexed.fits
  hi_lt := by
    have := h.size_lt
    omega
  element x hx := by
    cases h.topArrays x hx with
    | @array n e hn hs hsize he =>
      have hle := Nat.le_mul_of_pos_right x.2.1 hs
      have heq : arraySize x.2.1 x.2.2 = x.2.1 * x.2.2.allocSize :=
        if_neg (by unfold sizeMax; omega)
      rw [heq]
      exact ⟨he, hs, Nat.le_mul_of_pos_left _ hn, getArraySize_mk hs hsize⟩

theorem BlockOk.level {T : IRType} (h : BlockOk T) : ∃ hi, Level T hi := by
  cases h with
  | bounded _ h => exact ⟨_, h.level⟩
  | @unbounded e hs he =>
    have hsize := he.size_lt
    have harr : (layoutOf (array sizeMax e)).subArrays = [arrayOf (0, sizeMax, e)] :=
      layoutOf_array_subArrays he.indexed.fits
    refine ⟨sizeMax, ?_, ?_, by decide, ?_⟩
    · rw [harr, topArrays]
      rfl
    · rw [topArrays]
      exact ⟨le_rfl, (by decide : 0 < sizeMax), (Nat.zero_add _).le⟩
    · rw [topArrays]
      intro x hx
      rw [List.mem_singleton.mp hx]
      refine ⟨he, hs, ?_, rfl⟩
      show e.allocSize ≤ sizeMax
      unfold sizeMax
      omega

end IRType

/-- nothing is left of the offset when it is indexed: it is the one of the first elements -/
def Fixed (T : IRType) (c : Nat) : Prop := (between (layoutOf T).subArrays c 0).2 = c

theorem Fixed.zero {T : IRType} (h : Wf T) : Fixed T 0 := by
  rw [Fixed, between_before h.indexed.fits.ordered le_rfl]

namespace Level

variable {T : IRType} {hi : Nat}

/-- such an offset is in the first element of every array around it -/
theorem fixed (h : Level T hi) {x : Nat × Nat × IRType} (hx : x ∈ topArrays T) {c : Nat}
    (hxc : x.1 < c) (hcx : c < x.1 + arraySize x.2.1 x.2.2) (hc : Fixed T c) :
    c - x.1 < x.2.2.allocSize ∧ Fixed x.2.2 (c - x.1) := by
  obtain ⟨he, hpos, hle, hsize⟩ := h.element x hx
  have hlt := he.size_lt
  have hin := between_inside h.fits (List.mem_map_of_mem hx) hxc (hsize.symm ▸ hcx) 0
  rw [← h.arrays, hc] at hin
  have hidx := he.indexed.indexPhysicalOffset (by omega) x.2.1 (layoutOf x.2.2).maxLOffset (c - x.1)
  have hleft : (between (layoutOf x.2.2).subArrays ((c - x.1) % x.2.2.allocSize) 0).2 = c - x.1 := by
    rw [hidx]
    change c = x.1 + (ArrayLayout.indexPhysicalOffset _ (c - x.1)).2 at hin
    exact (Nat.sub_eq_of_eq_add' hin).symm
  have hbound := (he.indexed.bound _ (Nat.mod_lt (c - x.1) hpos)).2.2
  rw [hleft] at hbound
  have hmod := Nat.mod_lt (c - x.1) hpos
  have heq : (c - x.1) % x.2.2.allocSize = c - x.1 := le_antisymm (Nat.mod_le _ _) hbound
  rw [heq] at hleft hmod
  exact ⟨hmod, hleft⟩

/-- an outermost array at the offset -/
theorem found_at (h : Level T hi) {s : Nat} {x : Nat × Nat × IRType} (hx : x ∈ topArrays T) :
    isArrayExistAtOffset (layoutOf T).subArrays x.1 s = true ↔ x.2.2.allocSize = s ∨
      (s < x.2.2.allocSize ∧ isArrayExistAtOffset (layoutOf x.2.2).subArrays 0 s = true) := by
  rw [h.arrays]
  exact isArrayExistAtOffset_at h.fits (List.mem_map_of_mem hx) rfl

/-- no outermost array at the offset -/
theorem found_around (h : Level T hi) {s c : Nat} (hc : ∀ x ∈ topArrays T, x.1 ≠ c) :
    isArrayExistAtOffset (layoutOf T).subArrays c s = true ↔ ∃ x ∈ topArrays T, x.1 < c ∧
      s ≤ x.1 + arraySize x.2.1 x.2.2 ∧
      (∀ y ∈ topArrays T, y.1 < x.1 → y.1 + arraySize y.2.1 y.2.2 < s) ∧
      isArrayExistAtOffset (layoutOf x.2.2).subArrays (c - x.1) s = true := by
  have hkey : ∀ x ∈ (topArrays T).map arrayOf, x.1 ≠ c := by
    intro x hx
    obtain ⟨y, hy, rfl⟩ := List.mem_map.mp hx
    exact hc y hy
  have hsize : ∀ x ∈ topArrays T, (arrayOf x).2.getArraySize = arraySize x.2.1 x.2.2 :=
    fun x hx => (h.element x hx).2.2.2
  rw [h.arrays, isArrayExistAtOffset_around h.fits h.hi_lt hkey]
  constructor
  · rintro ⟨x, hx, hxc, hs, hbefore, hfound⟩
    obtain ⟨x, hx', rfl⟩ := List.mem_map.mp hx
    rw [hsize x hx'] at hs
    refine ⟨x, hx', hxc, hs, fun y hy hlt => ?_, hfound⟩
    rw [← hsize y hy]
    exact hbefore _ (List.mem_map_of_mem hy) hlt
  · rintro ⟨x, hx, hxc, hs, hbefore, hfound⟩
    refine ⟨_, List.mem_map_of_mem hx, hxc, (hsize x hx).symm ▸ hs, fun y hy hlt => ?_, hfound⟩
    obtain ⟨y, hy', rfl⟩ := List.mem_map.mp hy
    rw [hsize y hy']
    exact hbefore y hy' hlt

/-- outermost arrays that share an offset are one -/
theorem eq_of_overlap (h : Level T hi) {c : Nat} {x y : Nat × Nat × IRType} (hx : x ∈ topArrays T)
    (hy : y ∈ topArrays T) (hxc : x.1 ≤ c) (hcx : c < x.1 + arraySize x.2.1 x.2.2) (hyc : y.1 ≤ c)
    (hcy : c < y.1 + arraySize y.2.1 y.2.2) : x = y := by
  have hsize : ∀ z ∈ topArrays T, (arrayOf z).2.getArraySize = arraySize z.2.1 z.2.2 :=
    fun z hz => (h.element z hz).2.2.2
  have hpair : (topArrays T).Pairwise fun z w => z.1 + (arrayOf z).2.getArraySize ≤ w.1 :=
    List.pairwise_map.mp h.fits.pairwise
  rw [← hsize x hx] at hcx
  rw [← hsize y hy] at hcy
  have hone := List.Pairwise.forall_of_forall_of_flip
    (R := fun z w => z.1 ≤ c → w.1 ≤ c → c < z.1 + (arrayOf z).2.getArraySize →
      c < w.1 + (arrayOf w).2.getArraySize → z = w)
    (fun _ _ _ _ _ _ => rfl) (hpair.imp fun hle h1 h2 h3 _ => absurd h3 (by omega))
    (hpair.imp fun hle h1 h2 _ h4 => absurd h4 (by omega))
  exact hone hx hy hxc hyc hcx hcy

end Level

/-- behind the type the search finds nothing -/
theorem not_found_behind {s : Nat} (T : IRType) : Wf T → ∀ p, T.allocSize ≤ p →
    isArrayExistAtOffset (layoutOf T).subArrays p s = false := by
  induction T using nesting_induction with
  | h T ih =>
    intro hT p hp
    have hlevel := hT.level
    have hends : ∀ x ∈ topArrays T, x.1 + arraySize x.2.1 x.2.2 ≤ T.allocSize ∧ 
        x.1 < T.allocSize := by
      intro x hx
      have hend := (hlevel.fits.end_le (List.mem_map_of_mem hx)).2
      have hlt := (hlevel.fits.key_lt (List.mem_map_of_mem hx)).2
      rw [(hlevel.element x hx).2.2.2] at hend
      exact ⟨hend, hlt⟩
    rw [Bool.eq_false_iff, Ne, hlevel.found_around fun x hx => by have := (hends x hx).2; omega]
    rintro ⟨x, hx, -, -, -, hfound⟩
    obtain ⟨he, -, hle, -⟩ := hlevel.element x hx
    have hend := (hends x hx).1
    rw [ih x hx he (p - x.1) (by omega)] at hfound
    exact absurd hfound Bool.false_ne_true

/-! ## what the search finds -/

section
variable {s : Nat}

/-- at offset 0 nothing starts before -/
theorem IRType.ArrayAt.unshadowed {T : IRType} (h : ArrayAt s T 0) : Unshadowed s T 0 := by
  obtain ⟨x, hx, hat⟩ := arrayAt_iff.mp h
  have hzero : x.1 = 0 := by
    rcases hat with ⟨h0, -⟩ | ⟨d, h0, -⟩ <;> omega
  exact .start (n := x.2.1) (e := x.2.2) (hzero ▸ hx)

/-- one level of nesting, with the outermost arrays around the offset -/
theorem Level.found_iff {T : IRType} {hi : Nat} (h : Level T hi)
    (ih : ∀ x ∈ topArrays T, ∀ d < x.2.2.allocSize, Fixed x.2.2 d →
      (isArrayExistAtOffset (layoutOf x.2.2).subArrays d s = true ↔
        ArrayAt s x.2.2 d ∧ Unshadowed s x.2.2 d)) {c : Nat}
    (hfix : ∀ x ∈ topArrays T, x.1 < c → c < x.1 + arraySize x.2.1 x.2.2 →
      c - x.1 < x.2.2.allocSize ∧ Fixed x.2.2 (c - x.1)) :
    isArrayExistAtOffset (layoutOf T).subArrays c s = true ↔ ArrayAt s T c ∧ Unshadowed s T c := by
  -- where an array can be
  have hin : ∀ x ∈ topArrays T, ∀ d, ArrayAt s x.2.2 d → 0 < s ∧ d + s ≤ x.2.2.allocSize :=
    fun x hx d hd => hd.le (h.element x hx).1
  by_cases hkey : ∃ x ∈ topArrays T, x.1 = c
  · obtain ⟨x, hx, rfl⟩ := hkey
    obtain ⟨he, hpos, hle, -⟩ := h.element x hx
    have hun : Unshadowed s T x.1 := .start (n := x.2.1) (e := x.2.2) hx
    rw [h.found_at hx, ih x hx 0 hpos (Fixed.zero he), and_iff_left hun,
      arrayAt_iff (c := x.1) (T := T)]
    constructor
    · rintro (hs | ⟨-, hat, -⟩)
      · exact ⟨x, hx, Or.inl ⟨rfl, hs⟩⟩
      · exact ⟨x, hx, Or.inr ⟨0, rfl, hat⟩⟩
    · rintro ⟨y, hy, hat⟩
      obtain ⟨-, hypos, hyle, -⟩ := h.element y hy
      -- the array around the offset is the one at it
      have hsame : ∀ d, x.1 = y.1 + d → d < y.2.2.allocSize → x = y := fun d hd hlt =>
        h.eq_of_overlap (c := x.1) hx hy le_rfl (by omega) (by omega) (by omega)
      rcases hat with ⟨hxy, hs⟩ | ⟨d, hxy, hat⟩
      · rw [hsame 0 hxy hypos]
        exact Or.inl hs
      · obtain ⟨hs0, hd⟩ := hin y hy d hat
        obtain rfl : x = y := hsame d hxy (by omega)
        obtain rfl : d = 0 := by omega
        rcases Nat.lt_or_ge s x.2.2.allocSize with hs | hs
        · exact Or.inr ⟨hs, hat, hat.unshadowed⟩
        · exact Or.inl (by omega)
  · have hc : ∀ x ∈ topArrays T, x.1 ≠ c := fun x hx hxc => hkey ⟨x, hx, hxc⟩
    rw [h.found_around hc]
    constructor
    · rintro ⟨x, hx, hxc, -, hbefore, hfound⟩
      obtain ⟨he, -, hle, -⟩ := h.element x hx
      -- behind the element nothing would be found
      have hd : c - x.1 < x.2.2.allocSize := by
        by_contra hge
        rw [not_found_behind x.2.2 he (c - x.1) (by omega)] at hfound
        exact absurd hfound Bool.false_ne_true
      obtain ⟨-, hfixed⟩ := hfix x hx hxc (by omega)
      obtain ⟨hat, hun⟩ := (ih x hx _ hd hfixed).mp hfound
      refine ⟨arrayAt_iff.mpr ⟨x, hx, Or.inr ⟨c - x.1, by omega, hat⟩⟩, ?_⟩
      exact .inside (n := x.2.1) (e := x.2.2) hx hxc (by omega) hbefore hun
    · rintro ⟨hat, hun⟩
      obtain ⟨x, hx, hat'⟩ := arrayAt_iff.mp hat
      obtain ⟨he, -, hle, -⟩ := h.element x hx
      rcases hat' with ⟨hxc, -⟩ | ⟨d, rfl, hat'⟩
      · exact absurd hxc.symm (hc x hx)
      · obtain ⟨hs0, hd⟩ := hin x hx d hat'
        have hd0 : x.1 ≠ x.1 + d := hc x hx
        cases hun with
        | start hy => exact absurd rfl (hc _ hy)
        | @inside _ _ off n e hy hyc hcy hbefore hun =>
          obtain rfl : x = (off, n, e) :=
            h.eq_of_overlap (c := x.1 + d) hx hy (by omega) (by omega) (by omega) hcy
          have hsub : off + d - off = d := Nat.add_sub_cancel_left off d
          rw [hsub] at hun
          obtain ⟨-, hfixed⟩ := hfix _ hx hyc hcy
          rw [hsub] at hfixed
          refine ⟨_, hx, hyc, ?_, hbefore, ?_⟩
          · dsimp only at hle hd ⊢
            omega
          · rw [hsub]
            exact (ih _ hx d (by omega) hfixed).mpr ⟨hat', hun⟩

/-- in a well-formed type -/
theorem found_iff (T : IRType) : Wf T → ∀ c < T.allocSize, Fixed T c →
    (isArrayExistAtOffset (layoutOf T).subArrays c s = true ↔
      ArrayAt s T c ∧ Unshadowed s T c) := by
  induction T using nesting_induction with
  | h T ih =>
    intro hT c _ hfix
    have hlevel := hT.level
    exact hlevel.found_iff (fun x hx => ih x hx (hlevel.element x hx).1)
      fun x hx hxc hcx => hlevel.fixed hx hxc hcx hfix

/-- at the offset of an object the search finds an array that is there and not shadowed -/
theorem isArrayExistAtOffset_iff {T : IRType} (hT : BlockOk T) {π : List Step} {c : Nat}
    (hc : Leaf T (zeroed π) c) : isArrayExistAtOffset (layoutOf T).subArrays c s = true ↔
      ArrayAt s T c ∧ Unshadowed s T c := by
  obtain ⟨d, l, hslot⟩ := hc.slot
  obtain rfl : c = d := by
    have h := hslot.leaf_zeroed
    rw [zeroed_zeroed] at h
    exact hc.offset_unique h.leaf
  cases hT with
  | bounded _ hT =>
    obtain ⟨hlt, -, heq⟩ := hT.indexed.slot _ _ _ _ hslot
    exact found_iff T hT c hlt (congrArg Prod.snd heq)
  | @unbounded e hs he =>
    obtain ⟨hi, hlevel⟩ := (BlockOk.unbounded hs he).level
    refine hlevel.found_iff (fun x hx => found_iff x.2.2 (hlevel.element x hx).1) ?_
    intro x hx hxc hcx
    rw [topArrays] at hx
    obtain rfl := List.mem_singleton.mp hx
    obtain ⟨i, -, π', q, hπ, -, hcq, hq, hslot'⟩ := he.indexed.slot_elem hslot
    have hi0 : i = 0 := by
      cases π with
      | nil => cases hπ
      | cons s π => cases s <;> cases hπ; rfl
    subst hi0
    rw [Nat.zero_mul, Nat.zero_add] at hcq
    subst hcq
    exact ⟨hq, congrArg Prod.snd (he.indexed.slot _ _ _ _ hslot').2.2⟩

end

/-- after any layouts and queries the search, and so `getObjIndexedByVar` of an object, answers what
there is exactly when the array, if there is one, is not shadowed -/
theorem validateStepSize_iff {T : IRType} (hT : BlockOk T) (Ts : List IRType)
    (qs : List Query) {π : List Step} {c : Nat} (hc : Leaf T (zeroed π) c) (s : Nat) :
    let layout := ((MemLayoutManager.afterCalls Ts).getLayoutForType T).1
    ((isArrayExistAtOffset layout.subArrays c s = true ↔ ArrayAt s T c) ∧
      ∀ b, blockAfter Ts T qs = some b → ∀ f l, b.object f = some ⟨c, l⟩ →
        (((MemBlock.aggregate b).getObjIndexedByVar f s).isSome ↔ ArrayAt s T c)) ↔
      (ArrayAt s T c → Unshadowed s T c) := by
  intro layout
  have hlayout : layout = layoutOf T := MemLayoutManager.getLayoutForType_eq Ts T
  have hvar : ∀ b, blockAfter Ts T qs = some b → ∀ f l, b.object f = some ⟨c, l⟩ →
      (((MemBlock.aggregate b).getObjIndexedByVar f s).isSome ↔
        isArrayExistAtOffset layout.subArrays c s = true) := by
    intro b hb f l hobj
    have hval : (MemBlock.aggregate b).validateStepSize c s =
        isArrayExistAtOffset layout.subArrays c s := by
      show isArrayExistAtOffset b.layout.subArrays c s = _
      rw [blockAfter_layout hb, hlayout]
    have hobj : (MemBlock.aggregate b).object f = some ⟨c, l⟩ := hobj
    rw [MemBlock.getObjIndexedByVar, hobj]
    dsimp only
    rw [hval]
    split
    · next h => exact iff_of_true rfl h
    · next h => exact iff_of_false Bool.false_ne_true h
  have hfound := isArrayExistAtOffset_iff (s := s) hT hc
  rw [← hlayout] at hfound
  constructor
  · rintro ⟨h, -⟩ hat
    exact (hfound.mp (h.mpr hat)).2
  · intro h
    have hiff : isArrayExistAtOffset layout.subArrays c s = true ↔ ArrayAt s T c :=
      ⟨fun hf => (hfound.mp hf).1, fun hat => hfound.mpr ⟨hat, h hat⟩⟩
    exact ⟨hiff, fun b hb f l hobj => (hvar b hb f l hobj).trans hiff⟩

/-! ### an array behind another one -/

/-- `{ [16 x i8], [2 x { i64, [2 x i64] }] }` -/
def shadowedStruct : IRType :=
  struct 0 [(0, array 16 (scalar 1)),
    (16, array 2 (struct 1 [(0, scalar 8), (8, array 2 (scalar 8))] 24))] 64

theorem blockOk_shadowedStruct : BlockOk shadowedStruct := by
  have hi64 : Wf (scalar 8) := .scalar (by decide) (by decide)
  refine .bounded rfl (.struct (by decide) (by decide) fun f hf => ?_)
  rcases List.mem_pair.mp hf with rfl | rfl
  · exact .array (by decide) (by decide) (by decide) (.scalar (by decide) (by decide))
  · refine .array (by decide) (by decide) (by decide) (.struct (by decide) (by decide) fun f hf => ?_)
    rcases List.mem_pair.mp hf with rfl | rfl
    · exact hi64
    · exact .array (by decide) (by decide) (by decide) hi64

theorem leaf_i64 : Leaf shadowedStruct [.field 1, .index 0, .field 0] (16 + (0 * 24 + (0 + 0))) :=
  .field rfl (.elem (by decide) (.field rfl .scalar))

theorem leaf_i64s : Leaf shadowedStruct [.field 1, .index 0, .field 1, .index 0]
    (16 + (0 * 24 + (8 + (0 * 8 + 0)))) :=
  .field rfl (.elem (by decide) (.field rfl (.elem (by decide) .scalar)))

theorem validateStepSize_iff_shadowedStruct :
    isArrayExistAtOffset
        ((MemLayoutManager.afterCalls []).getLayoutForType shadowedStruct).1.subArrays 16 24 = true ↔
      ArrayAt 24 shadowedStruct 16 :=
  ((validateStepSize_iff blockOk_shadowedStruct [] []
    (π := [.field 1, .index 0, .field 0]) leaf_i64 24).mpr
      fun _ => .start (n := 2) (List.mem_cons_of_mem _ List.mem_cons_self)).1

/-- the array of `i64` at 24 is there, but the search looks for it in the array of `i8` -/
theorem array_shadowed :
    Leaf shadowedStruct (zeroed [.field 1, .index 0, .field 1, .index 0]) 24 ∧
      ArrayAt 8 shadowedStruct 24 ∧
      isArrayExistAtOffset (layoutOf shadowedStruct).subArrays 24 8 = false := by
  have hinner : ArrayAt 8 (struct 1 [(0, scalar 8), (8, array 2 (scalar 8))] 24) (8 + 0) :=
    .field (f := (8, array 2 (scalar 8))) (List.mem_cons_of_mem _ List.mem_cons_self) (.here rfl)
  have houter : ArrayAt 8 shadowedStruct (16 + (8 + 0)) :=
    .field (f := (16, array 2 _)) (List.mem_cons_of_mem _ List.mem_cons_self) (.elem hinner)
  exact ⟨leaf_i64s, houter, by decide⟩

end AserPTA
