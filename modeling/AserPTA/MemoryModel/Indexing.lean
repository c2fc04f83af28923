import AserPTA.MemoryModel.ArrayMap
import AserPTA.MemoryModel.MemLayoutManager

/-!
# Indexing follows the layout

The layout offset that `indexPhysicalOffset` computes is the one under which the layout builder put the
leaf, and the offset it leaves is the one of the leaf of the first elements.

* `Slot`                        a leaf with its physical, its shrunk and its layout offset;
* `Indexed`, `Wf.indexed`       what indexing does on a well-formed type, by induction on the type;
* `BlockOk.slot_of_element`, `BlockOk.index_slot`   and on the type of a block.
-/

namespace AserPTA
open IRType

/-! ## what the layout builder puts where -/

/-- the layout offset of field `k`, when building stands at `lOffset` and `pOffset` -/
def fieldLOffset : Nat → Nat → List (Nat × IRType) → Nat → Nat
  | lOffset, _, [], _ => lOffset
  | lOffset, pOffset, (off, _) :: _, 0 => lOffset + (off - pOffset)
  | lOffset, pOffset, (off, T) :: rest, k + 1 =>
    fieldLOffset (lOffset + (off - pOffset) + (layoutOf T).maxLOffset) (off + T.allocSize) rest k

/-- a leaf with its physical offset, the one that is left of it, and its layout offset -/
inductive Slot : IRType → List Step → Nat → Nat → Nat → Prop
  | scalar {size} : Slot (scalar size) [] 0 0 0
  | pointer {size} : Slot (pointer size) [] 0 0 0
  | elem {n e i π p c l} : i < n → Slot e π p c l →
      Slot (array n e) (.index i :: π) (i * e.allocSize + p) c l
  | field {name fields size k off T π p c l} : fields[k]? = some (off, T) → Slot T π p c l →
      Slot (struct name fields size) (.field k :: π) (off + p) (off + c)
        (fieldLOffset 0 0 fields k + l)

theorem Slot.leaf {T : IRType} {π : List Step} {p c l : Nat} (h : Slot T π p c l) : Leaf T π p := by
  induction h with
  | scalar => exact .scalar
  | pointer => exact .pointer
  | elem hi _ ih => exact .elem hi ih
  | field hk _ ih => exact .field hk ih

theorem Slot.leaf_zeroed {T : IRType} {π : List Step} {p c l : Nat} (h : Slot T π p c l) :
    Slot T (zeroed π) c c l := by
  induction h with
  | scalar => exact .scalar
  | pointer => exact .pointer
  | @elem n e i π p c l hi _ ih =>
    have hslot := Slot.elem (Nat.zero_lt_of_lt hi) ih
    rwa [Nat.zero_mul, Nat.zero_add] at hslot
  | field hk _ ih => exact .field hk ih

/-- the steps determine the offsets -/
theorem Slot.unique {T : IRType} {π : List Step} {p c l p' c' l' : Nat} (h : Slot T π p c l)
    (h' : Slot T π p' c' l') : p = p' ∧ c = c' ∧ l = l' := by
  induction h generalizing p' c' l' with
  | scalar => cases h'; exact ⟨rfl, rfl, rfl⟩
  | pointer => cases h'; exact ⟨rfl, rfl, rfl⟩
  | elem _ _ ih =>
    cases h' with
    | elem _ hslot =>
      obtain ⟨rfl, rfl, rfl⟩ := ih hslot
      exact ⟨rfl, rfl, rfl⟩
  | field hk _ ih =>
    cases h' with
    | field hk' hslot =>
      cases hk.symm.trans hk'
      obtain ⟨rfl, rfl, rfl⟩ := ih hslot
      exact ⟨rfl, rfl, rfl⟩

/-- so do the steps but for array indices, if it is not the physical one -/
theorem Slot.unique_zeroed {T : IRType} {π π' : List Step} {p c l p' c' l' : Nat}
    (h : Slot T π p c l) (h' : Slot T π' p' c' l') (hz : zeroed π = zeroed π') : c = c' ∧ l = l' :=
  (h.leaf_zeroed.unique (hz ▸ h'.leaf_zeroed)).2

theorem IRType.Leaf.slot {T : IRType} {π : List Step} {p : Nat} (h : Leaf T π p) :
    ∃ c l, Slot T π p c l := by
  induction h with
  | scalar => exact ⟨0, 0, .scalar⟩
  | pointer => exact ⟨0, 0, .pointer⟩
  | elem hi _ ih =>
    obtain ⟨c, l, h⟩ := ih
    exact ⟨c, l, .elem hi h⟩
  | field hk _ ih =>
    obtain ⟨c, l, h⟩ := ih
    exact ⟨_, _, .field hk h⟩

/-- a leaf of the fields that are still to be built -/
def FieldSlot (lOffset pOffset : Nat) (fields : List (Nat × IRType)) (k : Nat) (π : List Step)
    (p c l : Nat) : Prop :=
  ∃ off T q d m, fields[k]? = some (off, T) ∧ Slot T π q d m ∧
    p = off + q ∧ c = off + d ∧ l = fieldLOffset lOffset pOffset fields k + m

theorem slot_struct {name size : Nat} {fields : List (Nat × IRType)} {π : List Step} {p c l : Nat} :
    Slot (struct name fields size) π p c l ↔
      ∃ k π', π = .field k :: π' ∧ FieldSlot 0 0 fields k π' p c l := by
  constructor
  · intro h
    cases h with
    | field hk hslot => exact ⟨_, _, rfl, _, _, _, _, _, hk, hslot, rfl, rfl, rfl⟩
  · rintro ⟨k, π', rfl, off, T, q, d, m, hk, hslot, rfl, rfl, rfl⟩
    exact .field hk hslot

theorem slot_array {n : Nat} {e : IRType} {π : List Step} {p c l : Nat} :
    Slot (array n e) π p c l ↔
      ∃ i < n, ∃ π' q, π = .index i :: π' ∧ p = i * e.allocSize + q ∧ Slot e π' q c l := by
  constructor
  · intro h
    cases h with
    | elem hi hslot => exact ⟨_, hi, _, _, rfl, rfl, hslot⟩
  · rintro ⟨i, hi, π', q, rfl, rfl, hslot⟩
    exact .elem hi hslot

section
variable {lOffset pOffset off : Nat} {T : IRType} {rest : List (Nat × IRType)} {π : List Step}
  {p c l k : Nat}

theorem fieldSlot_zero : FieldSlot lOffset pOffset ((off, T) :: rest) 0 π p c l ↔
    ∃ q d m, Slot T π q d m ∧ p = off + q ∧ c = off + d ∧ l = lOffset + (off - pOffset) + m := by
  constructor
  · rintro ⟨off', T', q, d, m, hk, hslot, rfl, rfl, rfl⟩
    cases hk
    exact ⟨q, d, m, hslot, rfl, rfl, rfl⟩
  · rintro ⟨q, d, m, hslot, rfl, rfl, rfl⟩
    exact ⟨off, T, q, d, m, rfl, hslot, rfl, rfl, rfl⟩

end

/-- the arrays of the fields -/
def fieldArrays : List (Nat × IRType) → List (Nat × ArrayLayout)
  | [] => []
  | (off, T) :: rest => shift off (layoutOf T).subArrays ++ fieldArrays rest

/-! ### one element -/

namespace Building

variable (b : Building) (T : IRType)

theorem setElementLayout_pOffset :
    (b.setElementLayout T (layoutOf T)).pOffset = b.pOffset + T.allocSize := by
  cases T <;> rfl

theorem setElementLayout_lOffset :
    (b.setElementLayout T (layoutOf T)).lOffset = b.lOffset + (layoutOf T).maxLOffset := by
  cases T <;> rfl

/-- the array of a layout is apart from the rest of it -/
theorem updateArray_spec (L : MemLayout) (f : ArrayLayout → ArrayLayout) :
    (L.updateArray f).elementLayout = L.elementLayout ∧
      (L.updateArray f).pointerLayout = L.pointerLayout ∧ (L.updateArray f).isArray = L.isArray := by
  rw [MemLayout.updateArray]
  split <;> exact ⟨rfl, rfl, rfl⟩

theorem mergeMemoryLayout_spec (L sub : MemLayout) (pOffset lOffset : Nat) :
    (L.mergeMemoryLayout sub pOffset lOffset).elementLayout =
        L.elementLayout ∪ sub.elementLayout.image (· + lOffset) ∧
      (L.mergeMemoryLayout sub pOffset lOffset).pointerLayout =
        L.pointerLayout ∪ sub.pointerLayout.image (· + lOffset) ∧
      (L.mergeMemoryLayout sub pOffset lOffset).isArray = L.isArray := by
  rw [MemLayout.mergeMemoryLayout]
  dsimp only
  split
  · exact updateArray_spec _ _
  · exact ⟨rfl, rfl, rfl⟩

theorem mem_union_image_add {A B : Finset Nat} {k l : Nat} :
    l ∈ A ∪ B.image (· + k) ↔ l ∈ A ∨ ∃ m ∈ B, l = k + m := by
  rw [Finset.mem_union, Finset.mem_image]
  refine or_congr_right (exists_congr fun m => and_congr_right fun _ => ?_)
  rw [Nat.add_comm, eq_comm]

theorem insert_eq_union_image (A : Finset Nat) (k : Nat) : insert k A = A ∪ Finset.image (· + k) {0} := by
  rw [Finset.image_singleton, Nat.zero_add, Finset.insert_eq, Finset.union_comm]

theorem setElementLayout_elementLayout :
    (b.setElementLayout T (layoutOf T)).layout.elementLayout =
      b.layout.elementLayout ∪ (layoutOf T).elementLayout.image (· + b.lOffset) := by
  cases T with
  | scalar _ => rw [layoutOf]; exact insert_eq_union_image _ _
  | pointer _ => rw [layoutOf]; exact insert_eq_union_image _ _
  | array _ _ => exact (mergeMemoryLayout_spec _ _ _ _).1
  | struct _ _ _ => exact (mergeMemoryLayout_spec _ _ _ _).1

theorem mem_setElementLayout {l : Nat} : l ∈ (b.setElementLayout T (layoutOf T)).layout.elementLayout ↔
    l ∈ b.layout.elementLayout ∨ ∃ m ∈ (layoutOf T).elementLayout, l = b.lOffset + m := by
  rw [setElementLayout_elementLayout, mem_union_image_add]

theorem setElementLayout_isArray :
    (b.setElementLayout T (layoutOf T)).layout.isArray = b.layout.isArray := by
  cases T with
  | scalar _ => rfl
  | pointer _ => rfl
  | array _ _ => exact (mergeMemoryLayout_spec _ _ _ _).2.2
  | struct _ _ _ => exact (mergeMemoryLayout_spec _ _ _ _).2.2

/-- in a structure the arrays of a field are inserted where the field is -/
theorem setElementLayout_subArrays (hb : b.layout.isArray = false) :
    (b.setElementLayout T (layoutOf T)).layout.subArrays =
      (layoutOf T).subArrays.foldl (fun arrays x => insertSubArray (x.1 + b.pOffset) x.2 arrays)
        b.layout.subArrays := by
  have h : ∀ sub : MemLayout, (b.layout.mergeMemoryLayout sub b.pOffset b.lOffset).subArrays =
      sub.subArrays.foldl (fun arrays x => insertSubArray (x.1 + b.pOffset) x.2 arrays)
        b.layout.subArrays := by
    intro sub
    rw [MemLayout.mergeMemoryLayout]
    dsimp only
    rw [if_neg (by rw [hb]; exact Bool.false_ne_true)]
  cases T with
  | scalar _ => rw [layoutOf]; rfl
  | pointer _ => rw [layoutOf]; rfl
  | array _ _ => exact h _
  | struct _ _ _ => exact h _

end Building

/-! ### arrays and structures -/

section
variable {n : Nat} {e : IRType}

theorem mergeMemoryLayout_array (L sub : MemLayout) (arr : ArrayLayout) (hL : L.isArray = true)
    (harr : L.subArrays = [(0, arr)]) (p l : Nat) :
    (L.mergeMemoryLayout sub p l).subArrays = [(0, arr.mergeSubArrays sub.subArrays 0)] := by
  rw [MemLayout.mergeMemoryLayout]
  dsimp only
  rw [if_pos hL, MemLayout.updateArray]
  dsimp only
  rw [harr]

theorem layoutOf_array_elementLayout :
    (layoutOf (array n e)).elementLayout = (layoutOf e).elementLayout := by
  rw [layoutOf_array, getArrayLayout]
  dsimp only
  rw [(Building.updateArray_spec _ _).1]
  show (Building.setElementLayout _ e (layoutOf e)).layout.elementLayout = _
  rw [Building.setElementLayout_elementLayout]
  show ∅ ∪ (layoutOf e).elementLayout.image (· + 0) = _
  rw [Finset.empty_union]
  exact Finset.image_id

/-- the arrays of the elements are inserted into a new map -/
theorem layoutOf_array_subArrays_of
    (hfold : (layoutOf e).subArrays.foldl (fun sub x => insertSubArray (x.1 + 0) x.2 sub) [] =
      (layoutOf e).subArrays) :
    (layoutOf (array n e)).subArrays =
      [(0, .mk n e.allocSize (layoutOf e).maxLOffset (layoutOf e).subArrays)] := by
  have hmerge : ∀ b : Building, b.layout.isArray = true → 
      b.layout.subArrays = [(0, ArrayLayout.new n e.allocSize)] →
      (b.setElementLayout e (layoutOf e)).layout.subArrays =
        [(0, .mk n e.allocSize 0 (layoutOf e).subArrays)] := by
    intro b hb harr
    cases e with
    | scalar _ => rw [layoutOf]; exact harr
    | pointer _ => rw [layoutOf]; exact harr
    | array _ _ =>
      show (MemLayout.mergeMemoryLayout _ _ _ _).subArrays = _
      rw [mergeMemoryLayout_array _ _ _ hb harr]
      show [(0, ArrayLayout.mk _ _ _ (List.foldl _ [] _))] = _
      rw [hfold]
      rfl
    | struct _ _ _ =>
      show (MemLayout.mergeMemoryLayout _ _ _ _).subArrays = _
      rw [mergeMemoryLayout_array _ _ _ hb harr]
      show [(0, ArrayLayout.mk _ _ _ (List.foldl _ [] _))] = _
      rw [hfold]
      rfl
  rw [layoutOf_array, getArrayLayout]
  dsimp only
  rw [MemLayout.updateArray]
  dsimp only [MemLayout.setMaxOffsets]
  rw [hmerge _ rfl rfl]
  dsimp only
  rw [Building.setElementLayout_lOffset, Nat.zero_add]
  rfl

theorem layoutOf_array_subArrays (h : Fits 0 (layoutOf e).subArrays e.allocSize) :
    (layoutOf (array n e)).subArrays =
      [(0, .mk n e.allocSize (layoutOf e).maxLOffset (layoutOf e).subArrays)] := by
  refine layoutOf_array_subArrays_of ?_
  rw [foldl_insertSubArray h (Nat.zero_le _), List.nil_append]
  exact List.map_id _

theorem layoutOf_array_maxLOffset :
    (layoutOf (array n e)).maxLOffset = (layoutOf e).maxLOffset := by
  have h : ∀ (L : MemLayout) f, (L.updateArray f).maxLOffset = L.maxLOffset := by
    intro L f
    rw [MemLayout.updateArray]
    split <;> rfl
  rw [layoutOf_array, getArrayLayout, h]
  show (Building.setElementLayout _ e (layoutOf e)).lOffset = _
  rw [Building.setElementLayout_lOffset]
  exact Nat.zero_add _

theorem layoutOf_array_maxPOffset_eq :
    (layoutOf (array n e)).maxPOffset = if n = sizeMax then sizeMax
      else (e.allocSize + e.allocSize * ((n + sizeMax) % 2 ^ 64)) % 2 ^ 64 := by
  have h : ∀ (L : MemLayout) f, (L.updateArray f).maxPOffset = L.maxPOffset := by
    intro L f
    rw [MemLayout.updateArray]
    split <;> rfl
  rw [layoutOf_array, getArrayLayout, h]
  show (if n = sizeMax then sizeMax else _) = _
  rw [Building.setElementLayout_pOffset]
  show (if n = sizeMax then sizeMax else (0 + e.allocSize + _) % 2 ^ 64) = _
  rw [Nat.zero_add]

theorem layoutOf_array_maxPOffset (hn : n < sizeMax) (hsize : n * e.allocSize < 2 ^ 64) :
    (layoutOf (array n e)).maxPOffset = n * e.allocSize := by
  rw [layoutOf_array_maxPOffset_eq, if_neg hn.ne]
  unfold sizeMax at hn ⊢
  rcases Nat.eq_zero_or_pos n with rfl | hpos
  · rw [Nat.zero_mul, show (0 + (2 ^ 64 - 1)) % 2 ^ 64 = 2 ^ 64 - 1 from rfl]
    omega
  · have hmod : (n + (2 ^ 64 - 1)) % 2 ^ 64 = n - 1 := by omega
    obtain ⟨m, rfl⟩ := Nat.exists_eq_add_of_lt hpos
    rw [hmod, show 0 + m + 1 - 1 = m by omega]
    have hmul : (0 + m + 1) * e.allocSize = e.allocSize + e.allocSize * m := by ring
    rw [← hmul, Nat.mod_eq_of_lt hsize]

theorem layoutOf_unbounded_maxPOffset : (layoutOf (array sizeMax e)).maxPOffset = sizeMax := by
  rw [layoutOf_array_maxPOffset_eq, if_pos rfl]

end

/-! ## indexing a well-formed type -/

/-- what indexing does on the type -/
structure Indexed (T : IRType) : Prop where
  fits : Fits 0 (layoutOf T).subArrays T.allocSize
  lost : lost (layoutOf T).subArrays = T.allocSize - (layoutOf T).maxLOffset
  element : ∀ l, l ∈ (layoutOf T).elementLayout ↔ ∃ π p c, Slot T π p c l
  bound : ∀ p < T.allocSize, 0 ≤ (between (layoutOf T).subArrays p 0).1 ∧
    (between (layoutOf T).subArrays p 0).1 < (layoutOf T).maxLOffset ∧
    (between (layoutOf T).subArrays p 0).2 ≤ p
  slot : ∀ π p c l, Slot T π p c l → p < T.allocSize ∧ l < (layoutOf T).maxLOffset ∧
    between (layoutOf T).subArrays p 0 = ((l : Int), c)
  back : ∀ p < T.allocSize, ∀ π' p' c' l, Slot T π' p' c' l →
    (between (layoutOf T).subArrays p 0).1 = l →
    ∃ π, Slot T π p (between (layoutOf T).subArrays p 0).2 l
  inj : ∀ π p c l π' p' c', Slot T π p c l → Slot T π' p' c' l → zeroed π = zeroed π'

theorem layoutOf_scalar (size : Nat) : layoutOf (scalar size) = scalarLayout size false := by
  rw [layoutOf]

theorem layoutOf_pointer (size : Nat) : layoutOf (pointer size) = scalarLayout size true := by
  rw [layoutOf]

/-- a scalar or a pointer -/
theorem Indexed.single {T : IRType} {size : Nat} {isPtr : Bool} (hL : layoutOf T = scalarLayout size isPtr)
    (hsize : T.allocSize = size) (hpos : 0 < size) (h0 : Slot T [] 0 0 0)
    (hslot : ∀ π p c l, Slot T π p c l → π = [] ∧ p = 0 ∧ c = 0 ∧ l = 0) : Indexed T where
  fits := by rw [hL]; exact Nat.zero_le _
  lost := by rw [hL, hsize]; exact (sub_self _).symm
  element l := by
    rw [hL]
    constructor
    · intro h
      rw [Finset.mem_singleton.mp h]
      exact ⟨[], 0, 0, h0⟩
    · rintro ⟨π, p, c, h⟩
      exact Finset.mem_singleton.mpr (hslot π p c l h).2.2.2
  bound p hp := by
    rw [hL]
    show (0 : Int) ≤ p - 0 ∧ (p : Int) - 0 < size ∧ p ≤ p
    omega
  slot π p c l h := by
    obtain ⟨-, rfl, rfl, rfl⟩ := hslot π p c l h
    rw [hL, hsize]
    exact ⟨hpos, hpos, rfl⟩
  back p hp π' p' c' l h hl := by
    obtain ⟨-, -, -, rfl⟩ := hslot π' p' c' l h
    rw [hL] at hl
    have hp0 : p = 0 := by
      have : (p : Int) - 0 = (0 : Nat) := hl
      omega
    subst hp0
    rw [hL]
    exact ⟨[], h0⟩
  inj π p c l π' p' c' h h' := by rw [(hslot _ _ _ _ h).1, (hslot _ _ _ _ h').1]

theorem indexed_scalar {size : Nat} (h : 0 < size) : Indexed (scalar size) :=
  .single (layoutOf_scalar size) rfl h .scalar fun _ _ _ _ h => by cases h; exact ⟨rfl, rfl, rfl, rfl⟩

theorem indexed_pointer {size : Nat} (h : 0 < size) : Indexed (pointer size) :=
  .single (layoutOf_pointer size) rfl h .pointer fun _ _ _ _ h => by
    cases h
    exact ⟨rfl, rfl, rfl, rfl⟩

/-! ### arrays -/

section
variable {n : Nat} {e : IRType}

/-- indexing an array is indexing its element -/
theorem Indexed.indexPhysicalOffset (he : Indexed e) (hsize : e.allocSize < 2 ^ 64) (m l p : Nat) :
    between (layoutOf e).subArrays (p % e.allocSize) 0 =
      ((((ArrayLayout.mk m e.allocSize l (layoutOf e).subArrays).indexPhysicalOffset p).1 : Int),
        ((ArrayLayout.mk m e.allocSize l (layoutOf e).subArrays).indexPhysicalOffset p).2) := by
  have hfits := he.fits
  cases hsub : (layoutOf e).subArrays with
  | nil => exact Prod.ext (sub_zero _) rfl
  | cons x rest =>
    rw [hsub] at hfits
    have h := indexBetweenArraysFrom_eq hfits.ordered hsize (Nat.zero_le 0) (Nat.zero_le (p % e.allocSize))
      (l := 0)
    rwa [Nat.cast_zero, sub_zero] at h

theorem Indexed.between_array (he : Indexed e) (hsize : e.allocSize < 2 ^ 64)
    {p l : Nat} (hp : p < (ArrayLayout.mk n e.allocSize l (layoutOf e).subArrays).getArraySize) :
    between [(0, .mk n e.allocSize l (layoutOf e).subArrays)] p 0 =
      between (layoutOf e).subArrays (p % e.allocSize) 0 := by
  rw [between]
  by_cases h0 : p ≤ 0
  · obtain rfl : p = 0 := Nat.le_zero.mp h0
    rw [if_pos h0, Nat.zero_mod, between_before he.fits.ordered (le_refl 0)]
  · rw [if_neg h0, if_neg (by omega), Nat.sub_zero, Nat.zero_add,
      he.indexPhysicalOffset hsize n l p]
    exact Prod.ext (by simp only [Nat.cast_zero, sub_zero, add_zero]) rfl

theorem getArraySize_mk {s l : Nat} {sub : List (Nat × ArrayLayout)} (hs : 0 < s)
    (h : n * s < 2 ^ 63) : (ArrayLayout.mk n s l sub).getArraySize = n * s := by
  have hn : n ≤ n * s := Nat.le_mul_of_pos_right n hs
  show (if n = sizeMax then sizeMax else n * s % 2 ^ 64) = n * s
  rw [if_neg (by unfold sizeMax; omega), Nat.mod_eq_of_lt (by omega)]

/-- the leaves of an element -/
theorem Indexed.slot_elem (he : Indexed e) {π : List Step} {p c l : Nat}
    (h : Slot (array n e) π p c l) : ∃ i < n, ∃ π' q, π = .index i :: π' ∧ p % e.allocSize = q ∧
      p = i * e.allocSize + q ∧ q < e.allocSize ∧ Slot e π' q c l := by
  obtain ⟨i, hi, π', q, rfl, rfl, hslot⟩ := slot_array.mp h
  have hq := (he.slot _ _ _ _ hslot).1
  refine ⟨i, hi, π', q, rfl, ?_, rfl, hq, hslot⟩
  rw [Nat.mul_comm, Nat.mul_add_mod, Nat.mod_eq_of_lt hq]

/-- an offset inside an array, in the element it is in -/
theorem slot_div_mod {p : Nat} (hp : p < n * e.allocSize) {π : List Step}
    {c l : Nat} (h : Slot e π (p % e.allocSize) c l) :
    Slot (array n e) (.index (p / e.allocSize) :: π) p c l := by
  have hslot := Slot.elem (Nat.div_lt_of_lt_mul (Nat.mul_comm n _ ▸ hp)) h
  rwa [Nat.div_add_mod'] at hslot

theorem Indexed.array (he : Indexed e) (hn : 0 < n) (hs : 0 < e.allocSize)
    (hsize : n * e.allocSize < 2 ^ 63) : Indexed (array n e) := by
  have hA := layoutOf_array_subArrays (n := n) he.fits
  have hlt : e.allocSize < 2 ^ 64 := by
    have := Nat.le_mul_of_pos_left e.allocSize hn
    omega
  have hbetween : ∀ p < n * e.allocSize, between (layoutOf (.array n e)).subArrays p 0 =
      between (layoutOf e).subArrays (p % e.allocSize) 0 := by
    intro p hp
    rw [hA]
    exact he.between_array hlt (by rwa [getArraySize_mk hs hsize])
  refine ⟨?_, ?_, ?_, ?_, ?_, ?_, ?_⟩
  · rw [hA, Fits, getArraySize_mk hs hsize]
    exact ⟨le_rfl, Nat.mul_pos hn hs, (Nat.zero_add _).le⟩
  · rw [hA, layoutOf_array_maxLOffset]
    show ((ArrayLayout.mk _ _ _ _).getArraySize : Int) - _ + 0 = _
    rw [getArraySize_mk hs hsize, add_zero]
    rfl
  · intro l
    rw [layoutOf_array_elementLayout, he.element]
    constructor
    · rintro ⟨π, p, c, h⟩
      exact ⟨_, _, _, .elem hn h⟩
    · rintro ⟨π, p, c, h⟩
      obtain ⟨i, -, π', q, -, -, hslot⟩ := slot_array.mp h
      exact ⟨π', q, c, hslot⟩
  · intro p hp
    rw [hbetween p hp, layoutOf_array_maxLOffset]
    obtain ⟨h1, h2, h3⟩ := he.bound _ (Nat.mod_lt p hs)
    exact ⟨h1, h2, h3.trans (Nat.mod_le p _)⟩
  · intro π p c l h
    obtain ⟨i, hi, π', q, -, hmod, hp, hq, hslot⟩ := he.slot_elem h
    have hlt : p < n * e.allocSize := by
      calc p < (i + 1) * e.allocSize := by rw [hp, Nat.add_mul, Nat.one_mul]; omega
        _ ≤ n * e.allocSize := Nat.mul_le_mul_right _ hi
    refine ⟨hlt, ?_⟩
    rw [layoutOf_array_maxLOffset, hbetween p hlt, hmod]
    exact (he.slot _ _ _ _ hslot).2
  · intro p hp π' p' c' l h hl
    rw [hbetween p hp] at hl ⊢
    obtain ⟨i, -, π'', q, -, -, hslot⟩ := slot_array.mp h
    obtain ⟨π, hπ⟩ := he.back _ (Nat.mod_lt p hs) _ _ _ _ hslot hl
    exact ⟨_, slot_div_mod hp hπ⟩
  · intro π p c l π' p' c' h h'
    obtain ⟨i, -, ρ, q, rfl, -, hslot⟩ := slot_array.mp h
    obtain ⟨i', -, ρ', q', rfl, -, hslot'⟩ := slot_array.mp h'
    exact congrArg (Step.index 0 :: ·) (he.inj _ _ _ _ _ _ _ hslot hslot')

end

/-! ### structures -/

/-- the offsets behind the fields, when building stands at `lOffset` and `pOffset` -/
def endOffsets : Nat → Nat → List (Nat × IRType) → Nat × Nat
  | lOffset, pOffset, [] => (lOffset, pOffset)
  | lOffset, pOffset, (off, T) :: rest =>
    endOffsets (lOffset + (off - pOffset) + (layoutOf T).maxLOffset) (off + T.allocSize) rest

/-- what indexing does on the fields from `lOffset` and `pOffset` on -/
structure FieldsIndexed (lOffset pOffset : Nat) (fields : List (Nat × IRType)) : Prop where
  le : lOffset ≤ (endOffsets lOffset pOffset fields).1
  fits : Fits pOffset (fieldArrays fields) (endOffsets lOffset pOffset fields).2
  lost : lost (fieldArrays fields) = ((endOffsets lOffset pOffset fields).2 : Int) -
    (endOffsets lOffset pOffset fields).1 - (pOffset - lOffset)
  bound : ∀ p, pOffset ≤ p → lOffset ≤ (between (fieldArrays fields) p (pOffset - lOffset)).1 ∧
    (p < (endOffsets lOffset pOffset fields).2 →
      (between (fieldArrays fields) p (pOffset - lOffset)).1 < (endOffsets lOffset pOffset fields).1) ∧
    (between (fieldArrays fields) p (pOffset - lOffset)).2 ≤ p
  slot : ∀ k π p c l, FieldSlot lOffset pOffset fields k π p c l →
    pOffset ≤ p ∧ p < (endOffsets lOffset pOffset fields).2 ∧
    lOffset ≤ l ∧ l < (endOffsets lOffset pOffset fields).1 ∧
    between (fieldArrays fields) p (pOffset - lOffset) = ((l : Int), c)
  back : ∀ p, pOffset ≤ p → ∀ k' π' p' c' l, FieldSlot lOffset pOffset fields k' π' p' c' l →
    (between (fieldArrays fields) p (pOffset - lOffset)).1 = l →
    ∃ k π, FieldSlot lOffset pOffset fields k π p
      (between (fieldArrays fields) p (pOffset - lOffset)).2 l
  inj : ∀ k π p c l k' π' p' c', FieldSlot lOffset pOffset fields k π p c l →
    FieldSlot lOffset pOffset fields k' π' p' c' l → k = k' ∧ zeroed π = zeroed π'

theorem FieldsIndexed.nil (lOffset pOffset : Nat) : FieldsIndexed lOffset pOffset [] where
  le := le_rfl
  fits := le_rfl
  lost := (sub_self _).symm
  bound p hp := by
    show (lOffset : Int) ≤ p - (pOffset - lOffset) ∧
      (p < pOffset → (p : Int) - (pOffset - lOffset) < lOffset) ∧ p ≤ p
    omega
  slot _ _ _ _ _ h := by obtain ⟨_, _, _, _, _, hk, _⟩ := h; cases hk
  back _ _ _ _ _ _ _ h := by obtain ⟨_, _, _, _, _, hk, _⟩ := h; cases hk
  inj _ _ _ _ _ _ _ _ _ h := by obtain ⟨_, _, _, _, _, hk, _⟩ := h; cases hk

section
variable {lOffset pOffset off mid : Nat} {T : IRType} {rest : List (Nat × IRType)}

/-- what the arrays before the field behind `T` have lost -/
theorem lost_next (hoff : pOffset ≤ off) (hT : Indexed T) :
    (pOffset - lOffset : Int) + AserPTA.lost (shift off (layoutOf T).subArrays) =
      (off + T.allocSize : Nat) - (lOffset + (off - pOffset) + (layoutOf T).maxLOffset : Nat) := by
  rw [lost_shift, hT.lost]
  push_cast [Nat.cast_sub hoff]
  ring

theorem FieldsIndexed.fits_head (hT : Indexed T) :
    Fits off (shift off (layoutOf T).subArrays) (off + T.allocSize) := by
  have h := hT.fits.shift off
  rwa [Nat.zero_add, Nat.add_comm] at h

/-- before the field -/
theorem between_gap (hT : Indexed T) (hrest : Fits (off + T.allocSize) (fieldArrays rest) mid)
    {p : Nat} (hp : p ≤ off) (d : Int) :
    between (fieldArrays ((off, T) :: rest)) p d = (p - d, p) :=
  between_before ((FieldsIndexed.fits_head hT).append hrest).ordered hp d

/-- in the field -/
theorem between_field (hoff : pOffset ≤ off)
    (hrest : Fits (off + T.allocSize) (fieldArrays rest) mid) {q : Nat} (hq : q < T.allocSize) :
    between (fieldArrays ((off, T) :: rest)) (off + q) (pOffset - lOffset) =
      ((between (layoutOf T).subArrays q 0).1 + (lOffset + (off - pOffset) : Nat),
        off + (between (layoutOf T).subArrays q 0).2) := by
  show between (_ ++ fieldArrays rest) _ _ = _
  rw [between_append hrest.ordered (by omega), Nat.add_comm off q, between_shift, between_sub]
  refine Prod.ext ?_ (Nat.add_comm _ _)
  push_cast [Nat.cast_sub hoff]
  ring

/-- behind the field -/
theorem between_rest (hoff : pOffset ≤ off) (hT : Indexed T) {p : Nat}
    (hp : off + T.allocSize ≤ p) :
    between (fieldArrays ((off, T) :: rest)) p (pOffset - lOffset) =
      between (fieldArrays rest) p ((off + T.allocSize : Nat) -
        (lOffset + (off - pOffset) + (layoutOf T).maxLOffset : Nat)) := by
  rw [← lost_next hoff hT]
  have hfits : Fits off (shift off (layoutOf T).subArrays) (off + T.allocSize) :=
    FieldsIndexed.fits_head hT
  exact between_past hfits.ordered hp (fun x hx => (hfits.key_lt hx).2.trans_le hp) _

/-- one field more -/
theorem FieldsIndexed.cons (hoff : pOffset ≤ off) (hT : Indexed T)
    (h : FieldsIndexed (lOffset + (off - pOffset) + (layoutOf T).maxLOffset) (off + T.allocSize) rest) :
    FieldsIndexed lOffset pOffset ((off, T) :: rest) := by
  have hle := h.le
  have hfits := h.fits
  -- an offset lies before the field, in it or behind it
  have hcase : ∀ p, p < off ∨ (∃ q < T.allocSize, p = off + q) ∨ off + T.allocSize ≤ p := by
    intro p
    rcases Nat.lt_or_ge p off with h1 | h1
    · exact Or.inl h1
    · rcases Nat.lt_or_ge p (off + T.allocSize) with h2 | h2
      · exact Or.inr (Or.inl ⟨p - off, by omega, by omega⟩)
      · exact Or.inr (Or.inr h2)
  -- so does a layout offset
  have hslot : ∀ k π p c l, FieldSlot lOffset pOffset ((off, T) :: rest) k π p c l →
      (k = 0 ∧ ∃ q d m, Slot T π q d m ∧ p = off + q ∧ c = off + d ∧
        l = lOffset + (off - pOffset) + m ∧ m < (layoutOf T).maxLOffset) ∨
      (∃ j, k = j + 1 ∧ FieldSlot (lOffset + (off - pOffset) + (layoutOf T).maxLOffset)
        (off + T.allocSize) rest j π p c l ∧
        lOffset + (off - pOffset) + (layoutOf T).maxLOffset ≤ l) := by
    intro k π p c l hs
    cases k with
    | zero =>
      obtain ⟨q, d, m, hm, rfl, rfl, rfl⟩ := fieldSlot_zero.mp hs
      exact Or.inl ⟨rfl, q, d, m, hm, rfl, rfl, rfl, (hT.slot _ _ _ _ hm).2.1⟩
    | succ j => exact Or.inr ⟨j, rfl, hs, (h.slot _ _ _ _ _ hs).2.2.1⟩
  refine ⟨?_, ?_, ?_, ?_, ?_, ?_, ?_⟩
  · exact le_trans (by omega) hle
  · exact ((FieldsIndexed.fits_head hT).append hfits).mono_left hoff
  · show AserPTA.lost (_ ++ fieldArrays rest) = _
    have hnext := @lost_next lOffset _ _ _ hoff hT
    rw [lost_append, h.lost]
    show _ = ((endOffsets _ _ rest).2 : Int) - (endOffsets _ _ rest).1 - _
    linarith
  · intro p hp
    show _ ∧ (p < (endOffsets _ _ rest).2 → _ < ((endOffsets _ _ rest).1 : Int)) ∧ _
    rcases hcase p with hbefore | ⟨q, hq, rfl⟩ | hbehind
    · rw [between_gap hT hfits hbefore.le]
      dsimp only
      omega
    · rw [between_field hoff hfits hq]
      have := hT.bound q hq
      dsimp only
      omega
    · rw [between_rest hoff hT hbehind]
      have := h.bound p hbehind
      omega
  · intro k π p c l hs
    show _ ∧ p < (endOffsets _ _ rest).2 ∧ _ ∧ l < (endOffsets _ _ rest).1 ∧ _
    rcases hslot k π p c l hs with ⟨rfl, q, d, m, hT', rfl, rfl, rfl, hm⟩ | ⟨j, rfl, hrest, hl⟩
    · obtain ⟨hq, -, heq⟩ := hT.slot _ _ _ _ hT'
      have := hfits.le
      refine ⟨by omega, by omega, by omega, by omega, ?_⟩
      rw [between_field hoff hfits hq, heq]
      exact Prod.ext (by push_cast; ring) rfl
    · obtain ⟨hp, hp', -, hl', heq⟩ := h.slot _ _ _ _ _ hrest
      refine ⟨by omega, hp', by omega, hl', ?_⟩
      rw [between_rest hoff hT hp, heq]
  · intro p hp k' π' p' c' l hs hl
    rcases hcase p with hbefore | ⟨q, hq, rfl⟩ | hbehind
    · rw [between_gap hT hfits hbefore.le] at hl
      dsimp only at hl
      rcases hslot k' π' p' c' l hs with ⟨-, _, _, m, -, -, -, rfl, -⟩ | ⟨j, -, -, hl'⟩ <;> omega
    · rw [between_field hoff hfits hq] at hl ⊢
      dsimp only at hl ⊢
      have hbound := hT.bound q hq
      rcases hslot k' π' p' c' l hs with ⟨-, q', d', m, hT', -, -, rfl, -⟩ | ⟨j, -, -, hl'⟩
      · obtain ⟨π, hπ⟩ := hT.back q hq _ _ _ _ hT' (by omega)
        exact ⟨0, π, fieldSlot_zero.mpr ⟨q, _, m, hπ, rfl, rfl, rfl⟩⟩
      · omega
    · rw [between_rest hoff hT hbehind] at hl ⊢
      have hbound := h.bound p hbehind
      rcases hslot k' π' p' c' l hs with ⟨-, _, _, m, -, -, -, rfl, hm⟩ | ⟨j, rfl, hrest, -⟩
      · omega
      · obtain ⟨k, π, hπ⟩ := h.back p hbehind _ _ _ _ _ hrest hl
        exact ⟨k + 1, π, hπ⟩
  · intro k π p c l k' π' p' c' hs hs'
    rcases hslot k π p c l hs with ⟨rfl, q, d, m, hT₁, -, -, hl, hm⟩ | ⟨j, rfl, hrest₁, hl⟩
    · rcases hslot k' π' p' c' l hs' with ⟨rfl, q', d', m', hT₂, -, -, hl', -⟩ | ⟨j', -, -, hl'⟩
      · obtain rfl : m = m' := by omega
        exact ⟨rfl, hT.inj _ _ _ _ _ _ _ hT₁ hT₂⟩
      · omega
    · rcases hslot k' π' p' c' l hs' with ⟨-, _, _, m', -, -, -, hl', hm'⟩ | ⟨j', rfl, hrest₂, -⟩
      · omega
      · obtain ⟨rfl, hz⟩ := h.inj _ _ _ _ _ _ _ _ _ hrest₁ hrest₂
        exact ⟨rfl, hz⟩

end

/-- the fields of a structure -/
theorem fieldsIndexed {fields : List (Nat × IRType)} (hfields : ∀ f ∈ fields, Indexed f.2)
    {lOffset pOffset size : Nat} (hfit : FieldsFit pOffset fields size) :
    FieldsIndexed lOffset pOffset fields := by
  induction fields generalizing lOffset pOffset with
  | nil => exact .nil lOffset pOffset
  | cons f rest ih =>
    exact .cons hfit.1 (hfields f List.mem_cons_self)
      (ih (fun g hg => hfields g (List.mem_cons_of_mem f hg)) hfit.2)

theorem endOffsets_le {fields : List (Nat × IRType)} {lOffset pOffset size : Nat}
    (hfit : FieldsFit pOffset fields size) : (endOffsets lOffset pOffset fields).2 ≤ size := by
  induction fields generalizing lOffset pOffset with
  | nil => exact hfit
  | cons f rest ih => exact ih hfit.2

/-! ### the loop of `getStructLayout` -/

section
variable {fields : List (Nat × IRType)} {b : Building} {size : Nat}

/-- the next field: its padding, and itself -/
theorem padTo_setElementLayout {off : Nat} (T : IRType) (hoff : b.pOffset ≤ off) :
    ((b.padTo off).setElementLayout T (layoutOf T)).pOffset = off + T.allocSize ∧
      ((b.padTo off).setElementLayout T (layoutOf T)).lOffset =
        b.lOffset + (off - b.pOffset) + (layoutOf T).maxLOffset := by
  rw [Building.setElementLayout_pOffset, Building.setElementLayout_lOffset]
  exact ⟨congrArg (· + T.allocSize) (Nat.add_sub_cancel' hoff), rfl⟩

theorem buildFields_offsets (hfit : FieldsFit b.pOffset fields size) :
    ((buildFields fields b).lOffset, (buildFields fields b).pOffset) =
      endOffsets b.lOffset b.pOffset fields := by
  induction fields generalizing b with
  | nil => rfl
  | cons f rest ih =>
    obtain ⟨off, T⟩ := f
    obtain ⟨hp, hl⟩ := padTo_setElementLayout T hfit.1
    rw [buildFields, endOffsets, ih (by rw [hp]; exact hfit.2), hp, hl]

/-- the arrays of the fields are inserted where they are -/
theorem buildFields_subArrays (hfit : FieldsFit b.pOffset fields size)
    (hb : b.layout.isArray = false) :
    (buildFields fields b).layout.subArrays =
      (fieldArrays fields).foldl (fun arrays x => insertSubArray x.1 x.2 arrays)
        b.layout.subArrays := by
  induction fields generalizing b with
  | nil => rfl
  | cons f rest ih =>
    obtain ⟨off, T⟩ := f
    have hpad : (b.padTo off).pOffset = off := Nat.add_sub_cancel' hfit.1
    have hisArray := (Building.setElementLayout_isArray (b.padTo off) T).trans hb
    rw [buildFields, ih (by rw [(padTo_setElementLayout T hfit.1).1]; exact hfit.2) hisArray,
      Building.setElementLayout_subArrays (b.padTo off) T hb, hpad, fieldArrays, List.foldl_append,
      shift, List.foldl_map]
    rfl

/-- the offsets of a bit vector of the layout, if every element adds those of its own layout -/
theorem buildFields_mem {B : MemLayout → Finset Nat}
    (hB : ∀ (b : Building) (T : IRType) (l : Nat),
      l ∈ B (b.setElementLayout T (layoutOf T)).layout ↔
        l ∈ B b.layout ∨ ∃ m ∈ B (layoutOf T), l = b.lOffset + m)
    (hfit : FieldsFit b.pOffset fields size) {l : Nat} :
    l ∈ B (buildFields fields b).layout ↔ l ∈ B b.layout ∨
      ∃ k off T m, fields[k]? = some (off, T) ∧ m ∈ B (layoutOf T) ∧
        l = fieldLOffset b.lOffset b.pOffset fields k + m := by
  induction fields generalizing b with
  | nil => simp [buildFields]
  | cons f rest ih =>
    obtain ⟨off, T⟩ := f
    obtain ⟨hp, hl⟩ := padTo_setElementLayout T hfit.1
    rw [buildFields, ih (by rw [hp]; exact hfit.2), hp, hl, hB, or_assoc]
    refine or_congr_right ⟨?_, ?_⟩
    · rintro (⟨m, hm, rfl⟩ | ⟨k, off', T', m, hk, hm, rfl⟩)
      · exact ⟨0, off, T, m, rfl, hm, rfl⟩
      · exact ⟨k + 1, off', T', m, hk, hm, rfl⟩
    · rintro ⟨k, off', T', m, hk, hm, rfl⟩
      cases k with
      | zero =>
        cases hk
        exact .inl ⟨m, hm, rfl⟩
      | succ k => exact .inr ⟨k, off', T', m, hk, hm, rfl⟩

end

/-- what the padding at the end does -/
theorem finishStruct_spec {b : Building} {size : Nat} (hb : b.pOffset ≤ size) :
    (b.finishStruct size).subArrays = b.layout.subArrays ∧
    (b.finishStruct size).elementLayout = b.layout.elementLayout ∧
    (b.finishStruct size).pointerLayout = b.layout.pointerLayout ∧
    (b.finishStruct size).maxLOffset = b.lOffset + (size - b.pOffset) ∧
    (b.finishStruct size).maxPOffset = size := by
  rw [Building.finishStruct]
  split
  · next h => exact ⟨rfl, rfl, rfl, by rw [h, Nat.sub_self]; rfl, h⟩
  · exact ⟨rfl, rfl, rfl, rfl, Nat.add_sub_cancel' hb⟩

section
variable {name size : Nat} {fields : List (Nat × IRType)}

/-- the offsets of the layout of a structure, and its arrays and elements by those of its fields -/
theorem layoutOf_struct_eq (hfit : FieldsFit 0 fields size) :
    (layoutOf (struct name fields size)).subArrays =
        (fieldArrays fields).foldl (fun arrays x => insertSubArray x.1 x.2 arrays) [] ∧
      (layoutOf (struct name fields size)).maxLOffset =
        (endOffsets 0 0 fields).1 + (size - (endOffsets 0 0 fields).2) ∧
      (layoutOf (struct name fields size)).maxPOffset = size ∧
      ∀ l, l ∈ (layoutOf (struct name fields size)).elementLayout ↔
        ∃ k off T m, fields[k]? = some (off, T) ∧ m ∈ (layoutOf T).elementLayout ∧
          l = fieldLOffset 0 0 fields k + m := by
  have hend := buildFields_offsets (b := Building.startStruct) hfit
  have hl : (buildFields fields Building.startStruct).lOffset = (endOffsets 0 0 fields).1 :=
    congrArg Prod.fst hend
  have hp : (buildFields fields Building.startStruct).pOffset = (endOffsets 0 0 fields).2 :=
    congrArg Prod.snd hend
  have hle : (buildFields fields Building.startStruct).pOffset ≤ size := hp ▸ endOffsets_le hfit
  obtain ⟨h1, h2, -, h3, h4⟩ := finishStruct_spec hle
  rw [layoutOf_struct, h1, h2, h3, h4, hl, hp]
  refine ⟨buildFields_subArrays (b := Building.startStruct) hfit rfl, rfl, rfl, fun l => ?_⟩
  rw [buildFields_mem (B := MemLayout.elementLayout)
    (fun b T _ => Building.mem_setElementLayout b T) (b := Building.startStruct) hfit]
  exact or_iff_right (Finset.notMem_empty l)

/-- where no field shares the offset of an array with another one, all arrays are there -/
theorem fieldArrays_fits (hfields : ∀ f ∈ fields, Indexed f.2) {p : Nat}
    (hfit : FieldsFit p fields size) : Fits p (fieldArrays fields) size := by
  induction fields generalizing p with
  | nil => exact hfit
  | cons f rest ih =>
    have hhead : Fits f.1 (shift f.1 (layoutOf f.2).subArrays) (f.1 + f.2.allocSize) :=
      FieldsIndexed.fits_head (hfields f List.mem_cons_self)
    exact (hhead.append (ih (fun g hg => hfields g (List.mem_cons_of_mem f hg)) hfit.2)).mono_left
      hfit.1

/-- the layout of a structure -/
theorem layoutOf_struct_spec (hfields : ∀ f ∈ fields, Indexed f.2) (hfit : FieldsFit 0 fields size) :
    (layoutOf (struct name fields size)).subArrays = fieldArrays fields ∧
      (layoutOf (struct name fields size)).maxLOffset =
        (endOffsets 0 0 fields).1 + (size - (endOffsets 0 0 fields).2) ∧
      (layoutOf (struct name fields size)).maxPOffset = size ∧
      ∀ l, l ∈ (layoutOf (struct name fields size)).elementLayout ↔
        ∃ π p c, Slot (struct name fields size) π p c l := by
  obtain ⟨hsub, hmaxL, hmaxP, helem⟩ := @layoutOf_struct_eq name size fields hfit
  refine ⟨?_, hmaxL, hmaxP, fun l => ?_⟩
  · rw [hsub]
    have h := @foldl_insertSubArray _ [] _ _ 0 (fieldArrays_fits hfields hfit) le_rfl
    exact h.trans (List.map_id _)
  · rw [helem]
    constructor
    · rintro ⟨k, off, T, m, hk, hm, rfl⟩
      obtain ⟨π, p, c, hslot⟩ := ((hfields _ (List.mem_of_getElem? hk)).element m).mp hm
      exact ⟨_, _, _, .field hk hslot⟩
    · rintro ⟨π, p, c, hslot⟩
      cases hslot with
      | @field _ _ _ k off T π p c m hk hslot =>
        exact ⟨k, off, T, m, hk,
          ((hfields _ (List.mem_of_getElem? hk)).element m).mpr ⟨π, p, c, hslot⟩, rfl⟩

theorem Indexed.struct (hfields : ∀ f ∈ fields, Indexed f.2) (hfit : FieldsFit 0 fields size) :
    Indexed (struct name fields size) := by
  have h : FieldsIndexed 0 0 fields := fieldsIndexed hfields hfit
  have hend : (endOffsets 0 0 fields).2 ≤ size := endOffsets_le hfit
  obtain ⟨hA, hmax, -, helem⟩ := @layoutOf_struct_spec name size fields hfields hfit
  have hlost := h.lost
  have hzero : ((0 : Nat) : Int) - ((0 : Nat) : Int) = 0 := sub_zero _
  rw [hzero] at hlost
  have hbound : ∀ p, _ := fun p => h.bound p (Nat.zero_le p)
  have hback : ∀ p, _ := fun p => h.back p (Nat.zero_le p)
  have hslot := h.slot
  simp only [hzero] at hbound hback hslot
  -- the offsets behind the last field are padding
  have hpadding : ∀ p, (endOffsets 0 0 fields).2 ≤ p → between (fieldArrays fields) p 0 =
      ((p : Int) - ((endOffsets 0 0 fields).2 - (endOffsets 0 0 fields).1), p) := by
    intro p hp
    have hpast := between_past (B := []) h.fits.ordered hp
      (fun x hx => (h.fits.key_lt hx).2.trans_le hp) 0
    rw [List.append_nil] at hpast
    rw [hpast, hlost, zero_add, sub_zero]
    rfl
  refine ⟨?_, ?_, helem, ?_, ?_, ?_, ?_⟩
  · rw [hA]
    exact h.fits.mono_right hend
  · rw [hA, hmax, hlost]
    push_cast [Nat.cast_sub hend]
    show _ = (size : Int) - _
    ring
  · intro p hp
    change p < size at hp
    rw [hA, hmax]
    rcases Nat.lt_or_ge p (endOffsets 0 0 fields).2 with hin | hout
    · obtain ⟨h1, h2, h3⟩ := hbound p
      exact ⟨h1, (h2 hin).trans_le (Nat.cast_le.mpr (Nat.le_add_right _ _)), h3⟩
    · rw [hpadding p hout]
      dsimp only
      omega
  · intro π p c l hs
    obtain ⟨k, π', -, hs⟩ := slot_struct.mp hs
    obtain ⟨-, hp, -, hl, heq⟩ := hslot _ _ _ _ _ hs
    rw [hA, hmax]
    exact ⟨hp.trans_le hend, hl.trans_le (Nat.le_add_right _ _), heq⟩
  · intro p hp π' p' c' l hs hl
    rw [hA] at hl ⊢
    obtain ⟨k', π'', -, hs⟩ := slot_struct.mp hs
    obtain ⟨k, π, hπ⟩ := hback p _ _ _ _ _ hs hl
    exact ⟨_, slot_struct.mpr ⟨k, π, rfl, hπ⟩⟩
  · intro π p c l π' p' c' hs hs'
    obtain ⟨k, ρ, rfl, hf⟩ := slot_struct.mp hs
    obtain ⟨k', ρ', rfl, hf'⟩ := slot_struct.mp hs'
    obtain ⟨rfl, hz⟩ := h.inj _ _ _ _ _ _ _ _ _ hf hf'
    exact congrArg (Step.field k :: ·) hz

end

theorem IRType.Wf.indexed {T : IRType} (h : Wf T) : Indexed T := by
  induction h with
  | scalar hpos _ => exact indexed_scalar hpos
  | pointer hpos _ => exact indexed_pointer hpos
  | array hn hs hsize _ ih => exact .array ih hn hs hsize
  | struct hfit _ _ ih => exact .struct ih hfit

/-! ## indexing a block -/

namespace IRType

theorem endOffsets_lOffset_le {fields : List (Nat × IRType)}
    (hfields : ∀ f ∈ fields, (layoutOf f.2).maxLOffset ≤ f.2.allocSize) {l p size : Nat} (hl : l ≤ p)
    (hfit : FieldsFit p fields size) : (endOffsets l p fields).1 ≤ (endOffsets l p fields).2 := by
  induction fields generalizing l p with
  | nil => exact hl
  | cons f rest ih =>
    have hf := hfields f List.mem_cons_self
    have hoff := hfit.1
    exact ih (fun g hg => hfields g (List.mem_cons_of_mem f hg)) (by omega) hfit.2

/-- collapsing arrays does not make a type larger -/
theorem Wf.maxLOffset_le {T : IRType} (h : Wf T) : (layoutOf T).maxLOffset ≤ T.allocSize := by
  induction h with
  | scalar _ _ => rw [layoutOf_scalar]; exact le_rfl
  | pointer _ _ => rw [layoutOf_pointer]; exact le_rfl
  | array hn _ _ _ ih =>
    rw [layoutOf_array_maxLOffset]
    exact ih.trans (Nat.le_mul_of_pos_left _ hn)
  | @struct name fields size hfit _ hfields ih =>
    obtain ⟨-, hmax, -⟩ := @layoutOf_struct_spec name size fields
      (fun f hf => (hfields f hf).indexed) hfit
    have hle := endOffsets_lOffset_le ih (le_refl 0) hfit
    have hend : (endOffsets 0 0 fields).2 ≤ size := endOffsets_le hfit
    rw [hmax]
    show _ ≤ size
    omega

theorem Wf.maxPOffset {T : IRType} (h : Wf T) (hagg : T.isAggregate) :
    (layoutOf T).maxPOffset = T.allocSize := by
  cases h with
  | scalar _ _ => exact absurd hagg Bool.false_ne_true
  | pointer _ _ => exact absurd hagg Bool.false_ne_true
  | @array n e hn hs hsize _ =>
    have hle := Nat.le_mul_of_pos_right n hs
    rw [layoutOf_array_maxPOffset (by unfold sizeMax; omega) (by omega)]
    rfl
  | struct hfit _ hfields =>
    exact (layoutOf_struct_spec (fun f hf => (hfields f hf).indexed) hfit).2.2.1

/-- in the block the code's indexing is the loop -/
theorem Wf.indexPhysicalOffset {T : IRType} (h : Wf T) (hagg : T.isAggregate) {p : Nat}
    (hp : p < T.allocSize) : between (layoutOf T).subArrays p 0 =
      ((((layoutOf T).indexPhysicalOffset p).1 : Int), ((layoutOf T).indexPhysicalOffset p).2) := by
  rw [MemLayout.indexPhysicalOffset]
  split
  · next hnil =>
    rw [hnil]
    exact Prod.ext (sub_zero _) rfl
  · rw [if_neg (by rw [h.maxPOffset hagg]; omega)]
    have hlt := h.size_lt
    have hfrom := indexBetweenArraysFrom_eq h.indexed.fits.ordered (by omega) (Nat.zero_le 0)
      (Nat.zero_le p) (l := 0)
    rwa [Nat.cast_zero, sub_zero] at hfrom

/-- an offset behind the block is not the one of an element -/
theorem Wf.index_behind {T : IRType} (h : Wf T) (hagg : T.isAggregate) {p : Nat}
    (hp : T.allocSize ≤ p) :
    ((layoutOf T).indexPhysicalOffset p).1 ∉ (layoutOf T).elementLayout := by
  intro hmem
  obtain ⟨π, q, c, hslot⟩ := (h.indexed.element _).mp hmem
  have hl := (h.indexed.slot _ _ _ _ hslot).2.1
  have hle := h.maxLOffset_le
  have hlt := h.size_lt
  rw [MemLayout.indexPhysicalOffset] at hl
  split at hl
  · dsimp only at hl
    omega
  · rw [if_pos (by rw [h.maxPOffset hagg]; exact hp)] at hl
    unfold sizeMax at hl
    omega

section
variable {e : IRType}

/-- an unbounded array is indexed like its element -/
theorem Wf.index_unbounded (he : Wf e) {p : Nat} (hp : p < sizeMax) :
    between (layoutOf e).subArrays (p % e.allocSize) 0 =
      ((((layoutOf (.array sizeMax e)).indexPhysicalOffset p).1 : Int),
        ((layoutOf (.array sizeMax e)).indexPhysicalOffset p).2) := by
  have hmaxP : (layoutOf (.array sizeMax e)).maxPOffset = sizeMax := by
    rw [layoutOf_unbounded_maxPOffset]
  have hlt := he.size_lt
  have hA := layoutOf_array_subArrays (n := sizeMax) he.indexed.fits
  have hsize : (ArrayLayout.mk sizeMax e.allocSize (layoutOf e).maxLOffset
      (layoutOf e).subArrays).getArraySize = sizeMax := if_pos rfl
  rw [MemLayout.indexPhysicalOffset, hmaxP, hA, if_neg (List.cons_ne_nil _ _), if_neg (by omega),
    indexBetweenArrays]
  rw [he.indexed.indexPhysicalOffset (by omega) sizeMax (layoutOf e).maxLOffset, indexBetweenArraysFrom]
  by_cases h0 : p ≤ 0
  · obtain rfl : p = 0 := Nat.le_zero.mp h0
    have hzero := he.indexed.indexPhysicalOffset (by omega) sizeMax (layoutOf e).maxLOffset 0
    rw [Nat.zero_mod, between_before he.indexed.fits.ordered (le_refl 0)] at hzero
    rw [if_pos h0, ← hzero]
    rfl
  · rw [if_neg h0, hsize, if_neg (by rw [Nat.zero_add, Nat.mod_eq_of_lt (by decide)]; omega),
      Nat.sub_zero]
    exact Prod.ext rfl (Nat.zero_add _).symm

theorem Wf.index_unbounded_behind (he : Wf e) {p : Nat} (hp : sizeMax ≤ p) :
    ((layoutOf (.array sizeMax e)).indexPhysicalOffset p).1 ∉
      (layoutOf (.array sizeMax e)).elementLayout := by
  intro hmem
  rw [layoutOf_array_elementLayout] at hmem
  obtain ⟨π', p', c', hslot⟩ := (he.indexed.element _).mp hmem
  have hl := (he.indexed.slot _ _ _ _ hslot).2.1
  have hle := he.maxLOffset_le
  have hlt := he.size_lt
  rw [MemLayout.indexPhysicalOffset, layoutOf_array_subArrays he.indexed.fits,
    if_neg (List.cons_ne_nil _ _), layoutOf_unbounded_maxPOffset, if_pos hp] at hl
  unfold sizeMax at hl
  omega

end

/-- the offset of a leaf is indexed as the layout offset of the leaf, and the leaf of the first
elements is left of it -/
theorem BlockOk.index_slot {T : IRType} (h : BlockOk T) {π : List Step} {p c l : Nat}
    (hslot : Slot T π p c l) (hp : p < sizeMax) :
    (layoutOf T).indexPhysicalOffset p = (l, c) ∧ l ∈ (layoutOf T).elementLayout := by
  have hpair : ∀ r : Nat × Nat, (((l : Nat) : Int), c) = ((r.1 : Int), r.2) → r = (l, c) := by
    intro r hr
    obtain ⟨h1, h2⟩ := Prod.ext_iff.mp hr
    exact Prod.ext (Int.ofNat_inj.mp h1).symm h2.symm
  cases h with
  | bounded hagg h =>
    obtain ⟨hlt, -, heq⟩ := h.indexed.slot _ _ _ _ hslot
    refine ⟨hpair _ ?_, (h.indexed.element l).mpr ⟨π, p, c, hslot⟩⟩
    rw [← heq, h.indexPhysicalOffset hagg hlt]
  | @unbounded e hs he =>
    obtain ⟨i, -, π', q, -, hmod, -, -, hq⟩ := he.indexed.slot_elem hslot
    refine ⟨hpair _ ?_, ?_⟩
    · rw [← he.index_unbounded hp, hmod, (he.indexed.slot _ _ _ _ hq).2.2]
    · rw [layoutOf_array_elementLayout]
      exact (he.indexed.element l).mpr ⟨π', q, c, hq⟩

/-- an offset that is indexed as an element is the one of a leaf -/
theorem BlockOk.slot_of_element {T : IRType} (h : BlockOk T) {p : Nat}
    (hmem : ((layoutOf T).indexPhysicalOffset p).1 ∈ (layoutOf T).elementLayout) :
    ∃ π, Slot T π p ((layoutOf T).indexPhysicalOffset p).2
      ((layoutOf T).indexPhysicalOffset p).1 := by
  cases h with
  | bounded hagg h =>
    rcases Nat.lt_or_ge p T.allocSize with hp | hp
    · obtain ⟨π', p', c', hslot⟩ := (h.indexed.element _).mp hmem
      have heq := h.indexPhysicalOffset hagg hp
      obtain ⟨π, hπ⟩ := h.indexed.back p hp _ _ _ _ hslot (congrArg Prod.fst heq)
      rw [heq] at hπ
      exact ⟨π, hπ⟩
    · exact absurd hmem (h.index_behind hagg hp)
  | @unbounded e hs he =>
    rw [layoutOf_array_elementLayout] at hmem
    obtain ⟨π', p', c', hslot⟩ := (he.indexed.element _).mp hmem
    rcases Nat.lt_or_ge p sizeMax with hp | hp
    · have heq := he.index_unbounded hp
      obtain ⟨π, hπ⟩ := he.indexed.back _ (Nat.mod_lt p hs) _ _ _ _ hslot (congrArg Prod.fst heq)
      rw [heq] at hπ
      have hbound : p < sizeMax * e.allocSize := hp.trans_le (Nat.le_mul_of_pos_right _ hs)
      exact ⟨_, slot_div_mod hbound hπ⟩
    · rw [← layoutOf_array_elementLayout (n := sizeMax)] at hmem
      exact absurd hmem (he.index_unbounded_behind hp)

/-- the largest offset is behind every block -/
theorem BlockOk.index_behind {T : IRType} (h : BlockOk T) {p : Nat} (hp : sizeMax ≤ p) :
    ((layoutOf T).indexPhysicalOffset p).1 ∉ (layoutOf T).elementLayout := by
  cases h with
  | bounded hagg h =>
    have hlt := h.size_lt
    refine h.index_behind hagg ?_
    unfold sizeMax at hp
    omega
  | unbounded _ he => exact he.index_unbounded_behind hp

/-- leaves of one layout offset differ in array indices only -/
theorem BlockOk.inj {T : IRType} (h : BlockOk T) {π π' : List Step} {p c p' c' l : Nat}
    (hslot : Slot T π p c l) (hslot' : Slot T π' p' c' l) : zeroed π = zeroed π' := by
  cases h with
  | bounded _ h => exact h.indexed.inj _ _ _ _ _ _ _ hslot hslot'
  | unbounded _ he =>
    obtain ⟨i, -, ρ, q, rfl, -, hs⟩ := slot_array.mp hslot
    obtain ⟨i', -, ρ', q', rfl, -, hs'⟩ := slot_array.mp hslot'
    exact congrArg (Step.index 0 :: ·) (he.indexed.inj _ _ _ _ _ _ _ hs hs')

end IRType
end AserPTA
