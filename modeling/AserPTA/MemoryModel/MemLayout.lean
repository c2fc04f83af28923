import AserPTA.MemoryModel.IRType
import Mathlib.Data.Finset.Image
import Mathlib.Data.Finset.Card

/-!
# Memory layouts

What `ArrayLayout` and `MemLayout` hold and how a physical offset is indexed.  The layout offset of a
byte is its physical offset less what the arrays before it lose when they are collapsed to one element.
Arrays are values here: an `ArrayLayout` is not changed any more once another layout refers to it.

* `insertSubArray`                          `std::map::insert`, which keeps what stands at the key;
* `ArrayLayout`, `MemLayout`                the source's classes; a bit vector is the set of its bits;
* `indexBetweenArrays`, `indexPhysicalOffset`   the layout offset, and the physical offset as it is
                                            shrunk on the way;
* `getLogicalOffset`                        the number of the element at a layout offset, if one is there;
* `Narrow`, `getLogicalOffset_eq`           layouts that the code can store, where this is `elementNumber`;
* `isArrayExistAtOffset`                    the check of an index that is not constant.
-/

namespace AserPTA

/-- `std::map::insert` on a map in the order of its keys -/
def insertSubArray {α : Type} (pOffset : Nat) (subArray : α) : List (Nat × α) → List (Nat × α)
  | [] => [(pOffset, subArray)]
  | x :: rest =>
    if pOffset < x.1 then (pOffset, subArray) :: x :: rest
    else if pOffset = x.1 then x :: rest
    else x :: insertSubArray pOffset subArray rest

/-- the keys of `subArrays` are physical offsets -/
inductive ArrayLayout
  | mk (elementNum elementSize layoutSize : Nat) (subArrays : List (Nat × ArrayLayout))

namespace ArrayLayout

def elementNum : ArrayLayout → Nat
  | mk n _ _ _ => n

def elementSize : ArrayLayout → Nat
  | mk _ s _ _ => s

def layoutSize : ArrayLayout → Nat
  | mk _ _ l _ => l

def subArrays : ArrayLayout → List (Nat × ArrayLayout)
  | mk _ _ _ sub => sub

def getArraySize (arr : ArrayLayout) : Nat :=
  if arr.elementNum = sizeMax then sizeMax else arr.elementNum * arr.elementSize % 2 ^ 64

/-- `ArrayLayout(elementNum, elementSize)` -/
def new (elementNum elementSize : Nat) : ArrayLayout := mk elementNum elementSize 0 []

def setLayoutSize (arr : ArrayLayout) (size : Nat) : ArrayLayout :=
  mk arr.elementNum arr.elementSize size arr.subArrays

def mergeSubArrays (arr : ArrayLayout) (arrays : List (Nat × ArrayLayout)) (offset : Nat) :
    ArrayLayout :=
  mk arr.elementNum arr.elementSize arr.layoutSize
    (arrays.foldl (fun sub x => insertSubArray (x.1 + offset) x.2 sub) arr.subArrays)

end ArrayLayout

mutual

/-- `ArrayLayout::indexPhysicalOffset`: the layout offset and what is left of `pOffset` -/
def ArrayLayout.indexPhysicalOffset : ArrayLayout → Nat → Nat × Nat
  | .mk _ elementSize _ [], pOffset => (pOffset % elementSize, pOffset % elementSize)
  | .mk _ elementSize _ (x :: rest), pOffset =>
    indexBetweenArraysFrom (x :: rest) (pOffset % elementSize) 0 0

/-- the loop of `indexBetweenArrays` at `lOffset` and `curOffset` -/
def indexBetweenArraysFrom : List (Nat × ArrayLayout) → Nat → Nat → Nat → Nat × Nat
  | [], pOffset, lOffset, curOffset => (lOffset + (pOffset - curOffset), pOffset)
  | (arrayOffset, arr) :: rest, pOffset, lOffset, curOffset =>
    -- between two arrays
    if pOffset ≤ arrayOffset then (lOffset + (pOffset - curOffset), pOffset)
    -- past this array
    else if (arrayOffset + arr.getArraySize) % 2 ^ 64 ≤ pOffset then
      indexBetweenArraysFrom rest pOffset (lOffset + (arrayOffset - curOffset) + arr.layoutSize)
        ((arrayOffset + arr.getArraySize) % 2 ^ 64)
    else
      let r := arr.indexPhysicalOffset (pOffset - arrayOffset)
      (r.1 + (lOffset + (arrayOffset - curOffset)), arrayOffset + r.2)

end

def indexBetweenArrays (arrays : List (Nat × ArrayLayout)) (pOffset : Nat) : Nat × Nat :=
  indexBetweenArraysFrom arrays pOffset 0 0

/-- A bit vector is given by the offsets whose bits are set.  Each is cut to an `unsigned` when its bit is
set or tested (`setBits`). -/
structure MemLayout where
  pointerLayout : Finset Nat
  elementLayout : Finset Nat
  subArrays : List (Nat × ArrayLayout)
  maxLOffset : Nat
  maxPOffset : Nat
  isArray : Bool

namespace MemLayout

/-- `MemLayout(isArray)` -/
def new (isArray : Bool) : MemLayout where
  pointerLayout := ∅
  elementLayout := ∅
  subArrays := []
  maxLOffset := 0
  maxPOffset := 0
  isArray := isArray

def setElementOffset (L : MemLayout) (offset : Nat) : MemLayout :=
  { L with elementLayout := insert offset L.elementLayout }

def setPointerOffset (L : MemLayout) (offset : Nat) : MemLayout :=
  { L with pointerLayout := insert offset L.pointerLayout }

def setMaxOffsets (L : MemLayout) (lOffset pOffset : Nat) : MemLayout :=
  { L with maxLOffset := lOffset, maxPOffset := pOffset }

/-- the layout of an array changes its one array at offset 0 -/
def updateArray (L : MemLayout) (f : ArrayLayout → ArrayLayout) : MemLayout :=
  match L.subArrays with
  | [] => L
  | (off, arr) :: rest => { L with subArrays := (off, f arr) :: rest }

def mergeMemoryLayout (L subLayout : MemLayout) (pOffset lOffset : Nat) : MemLayout :=
  let L := { L with
    elementLayout := L.elementLayout ∪ subLayout.elementLayout.image (· + lOffset)
    pointerLayout := L.pointerLayout ∪ subLayout.pointerLayout.image (· + lOffset) }
  if L.isArray then L.updateArray (·.mergeSubArrays subLayout.subArrays 0)
  else { L with
    subArrays := subLayout.subArrays.foldl (fun arrays x => insertSubArray (x.1 + pOffset) x.2 arrays)
      L.subArrays }

variable (L : MemLayout)

/-- an offset behind the block is indexed as `sizeMax` -/
def indexPhysicalOffset (pOffset : Nat) : Nat × Nat :=
  if L.subArrays = [] then (pOffset, pOffset)
  else if L.maxPOffset ≤ pOffset then (sizeMax, pOffset)
  else indexBetweenArrays L.subArrays pOffset

/-- the bits that are set for these offsets -/
def setBits (offsets : Finset Nat) : Finset Nat := offsets.image (· % 2 ^ 32)

/-- what `cacheIntoBitVector` needs: the number of its entries is an `int` -/
def Cacheable : Prop := ∀ bit ∈ setBits L.elementLayout, bit + 1 < 2 ^ 31

instance : Decidable L.Cacheable := inferInstanceAs (Decidable (∀ bit ∈ _, _))

/-- `none` if the layout can not be cached: a vector with a negative size aborts.  The inner `none` is the
source's -1. -/
def getLogicalOffset (lOffset : Nat) : Option (Option Nat) := do
  guard L.Cacheable
  return if lOffset ∈ setBits L.elementLayout then
    some ((setBits L.elementLayout).filter (· < lOffset)).card else none

theorem getLogicalOffset_isSome (lOffset : Nat) :
    (L.getLogicalOffset lOffset).isSome ↔ L.Cacheable := by
  rw [getLogicalOffset]
  by_cases h : L.Cacheable
  · rw [guard, if_pos h]
    exact iff_of_true rfl h
  · rw [guard, if_neg h]
    exact iff_of_false Bool.false_ne_true h

def getNumIndexableElem : Nat := (setBits L.elementLayout).card

def offsetIsPtr (lOffset : Nat) : Bool := lOffset % 2 ^ 32 ∈ setBits L.pointerLayout

/-! ### layouts that the code can store -/

/-- no offset is cut, and the layout can be cached -/
def Narrow : Prop := ∀ l ∈ L.elementLayout ∪ L.pointerLayout, l + 1 < 2 ^ 31

instance : Decidable L.Narrow := inferInstanceAs (Decidable (∀ l ∈ _, _))

/-- the number of an offset among some -/
def numberIn (offsets : Finset Nat) (lOffset : Nat) : Option Nat :=
  if lOffset ∈ offsets then some (offsets.filter (· < lOffset)).card else none

/-- the number of the element at an offset, whatever its size -/
def elementNumber (lOffset : Nat) : Option Nat := numberIn L.elementLayout lOffset

/-- the number of its bit -/
def bitNumber (lOffset : Nat) : Option Nat := numberIn (setBits L.elementLayout) lOffset

variable {L} in
theorem Cacheable.getLogicalOffset_eq (h : L.Cacheable) (lOffset : Nat) :
    L.getLogicalOffset lOffset = some (L.bitNumber lOffset) := by
  rw [getLogicalOffset, guard, if_pos h]
  rfl

theorem getLogicalOffset_eq_some {lOffset : Nat} {f : Option Nat} :
    L.getLogicalOffset lOffset = some f ↔
      L.Cacheable ∧ L.bitNumber lOffset = f := by
  by_cases h : L.Cacheable
  · rw [h.getLogicalOffset_eq, Option.some.injEq, and_iff_right h]
  · refine iff_of_false (fun heq => h ?_) fun hf => h hf.1
    rw [← L.getLogicalOffset_isSome lOffset, heq]
    rfl

theorem setBits_eq {offsets : Finset Nat} (h : ∀ l ∈ offsets, l + 1 < 2 ^ 31) :
    setBits offsets = offsets := by
  have hmod : ∀ l ∈ offsets, l % 2 ^ 32 = l := fun l hl => Nat.mod_eq_of_lt (by have := h l hl; omega)
  rw [setBits, Finset.image_congr hmod, Finset.image_id']

/-- the loop of `mergeMemoryLayout` goes over the bits of the other layout -/
theorem setBits_image_add (offsets : Finset Nat) (lOffset : Nat) :
    setBits (offsets.image (· + lOffset)) =
      (setBits offsets).image fun bit => (bit + lOffset) % 2 ^ 32 := by
  unfold setBits
  rw [Finset.image_image, Finset.image_image]
  refine Finset.image_congr fun l _ => ?_
  exact (Nat.mod_add_mod l (2 ^ 32) lOffset).symm

namespace Narrow

variable {L}

theorem setBits_elementLayout (h : L.Narrow) : setBits L.elementLayout = L.elementLayout :=
  setBits_eq fun l hl => h l (Finset.mem_union_left _ hl)

theorem cacheable (h : L.Narrow) : L.Cacheable := by
  rw [Cacheable, h.setBits_elementLayout]
  exact fun l hl => h l (Finset.mem_union_left _ hl)

theorem bitNumber_eq (h : L.Narrow) (lOffset : Nat) :
    L.bitNumber lOffset = L.elementNumber lOffset := by
  rw [bitNumber, h.setBits_elementLayout, elementNumber]

theorem getLogicalOffset_eq (h : L.Narrow) (lOffset : Nat) :
    L.getLogicalOffset lOffset = some (L.elementNumber lOffset) := by
  rw [h.cacheable.getLogicalOffset_eq, h.bitNumber_eq]

/-- an element stores a pointer if its offset is one of a pointer -/
theorem offsetIsPtr_eq (h : L.Narrow) {l : Nat} (hl : l ∈ L.elementLayout) :
    L.offsetIsPtr l = decide (l ∈ L.pointerLayout) := by
  have hlt := h l (Finset.mem_union_left _ hl)
  rw [offsetIsPtr, setBits_eq fun l hl => h l (Finset.mem_union_right _ hl),
    Nat.mod_eq_of_lt (by omega)]

end Narrow

/-- where the last bit is too large nothing can be looked up -/
theorem getLogicalOffset_eq_none {l : Nat} (hl : l ∈ L.elementLayout)
    (hbig : 2 ^ 31 ≤ l % 2 ^ 32 + 1) (lOffset : Nat) : L.getLogicalOffset lOffset = none := by
  rw [← Option.not_isSome_iff_eq_none, getLogicalOffset_isSome]
  intro h
  have := h _ (Finset.mem_image_of_mem _ hl)
  omega

end MemLayout

/-! ## an index that is not constant -/

mutual

/-- the branch of `isArrayExistAtOffset` for an array at `pOffset` -/
def isArrayExistAt : List (Nat × ArrayLayout) → Nat → Nat → Bool
  | [], _, _ => false
  | (arrOffset, arr) :: rest, pOffset, elementSize =>
    if arrOffset = pOffset then
      if arr.elementSize = elementSize then true
      else if arr.elementSize < elementSize then false
      -- the array may be nested inside and start at offset zero
      else arr.existAtOffset 0 elementSize
    else isArrayExistAt rest pOffset elementSize

/-- the loop of `isArrayExistAtOffset`, when no array is at `pOffset` -/
def isArrayExistAround : List (Nat × ArrayLayout) → Nat → Nat → Bool
  | [], _, _ => false
  | (arrOffset, arr) :: rest, pOffset, elementSize =>
    if arrOffset < pOffset ∧ elementSize ≤ (arrOffset + arr.getArraySize) % 2 ^ 64 then
      arr.existAtOffset (pOffset - arrOffset) elementSize
    else isArrayExistAround rest pOffset elementSize

/-- `isArrayExistAtOffset` on the arrays in an array -/
def ArrayLayout.existAtOffset : ArrayLayout → Nat → Nat → Bool
  | .mk _ _ _ sub, pOffset, elementSize =>
    if pOffset ∈ sub.map Prod.fst then isArrayExistAt sub pOffset elementSize
    else isArrayExistAround sub pOffset elementSize

end

def isArrayExistAtOffset (arrayMap : List (Nat × ArrayLayout)) (pOffset elementSize : Nat) : Bool :=
  if pOffset ∈ arrayMap.map Prod.fst then isArrayExistAt arrayMap pOffset elementSize
  else isArrayExistAround arrayMap pOffset elementSize

end AserPTA
