import AserPTA.Loop.Fold
import AserPTA.MemoryModel.PointerLayout
import AserPTA.PreProcessing.CanonicalizeGEP
import Mathlib.Data.Set.Basic

/-!
# Lowering `memcpy`

`LoweringMemCpyPass` copies an aggregate pointer by pointer.  It goes through the fields of
structures and the first elements of arrays, which is what the memory model tells apart.

* `LoadStore`, `lowerMemCpyForType`     what the pass emits for a type;
* `lowerMemCpyForType_eq`               one pair for each of `pointerPaths`;
* `LoadStore.Holds`                     what a pair asks of a solution of the pointer analysis;
* `lowerMemCpyForType_spec`             the pairs are the pointers of the layout, and every pointer
                                        object of the destination gets what the source's has.
-/

namespace AserPTA
open IRType

/-- the constant `i` of `idxType` -/
def idxConst (i : Nat) : Idx Empty := .const 32 i

/-- a load from `srcGEP` whose result is stored to `dstGEP` -/
structure LoadStore where
  srcGEP : GEP Empty
  dstGEP : GEP Empty

namespace LoweringMemCpy

mutual

/-- `lowerMemCpyForType`; the two pointers point to the type `root` -/
def lowerMemCpyForType (root : IRType) : IRType → List (Idx Empty) → List LoadStore
  | struct _ fields _, idx => lowerFields root 0 fields idx
  | array _ e, idx => lowerMemCpyForType root e (idx ++ [idxConst 0])
  | pointer _, idx => [⟨⟨root, idx⟩, ⟨root, idx⟩⟩]
  -- non-pointer scalar type, make no difference to pointer analysis
  | scalar _, _ => []

/-- the loop over the fields from number `i` on -/
def lowerFields (root : IRType) : Nat → List (Nat × IRType) → List (Idx Empty) → List LoadStore
  | _, [], _ => []
  | i, f :: rest, idx =>
    lowerMemCpyForType root f.2 (idx ++ [idxConst i]) ++ lowerFields root (i + 1) rest idx

end

/-- what `runOnModule` emits for a `memcpy` between two pointers to the type -/
def lowerMemCpy (T : IRType) : List LoadStore := lowerMemCpyForType T T [idxConst 0]

/-! ## the index lists -/

/-- the index of a step -/
def stepIdx : Step → Idx Empty
  | .index i => idxConst i
  | .field k => idxConst k

/-- the pair for the pointer that the steps lead to -/
def pairAt (root : IRType) (idx : List (Idx Empty)) (π : List Step) : LoadStore :=
  ⟨⟨root, idx ++ π.map stepIdx⟩, ⟨root, idx ++ π.map stepIdx⟩⟩

theorem pairAt_cons (root : IRType) (idx : List (Idx Empty)) (s : Step) (π : List Step) :
    pairAt root (idx ++ [stepIdx s]) π = pairAt root idx (s :: π) := by
  simp [pairAt]

mutual

/-- the pass emits one pair for each pointer, in the order of the type -/
theorem lowerMemCpyForType_eq (root : IRType) : ∀ (T : IRType) (idx : List (Idx Empty)),
    lowerMemCpyForType root T idx = (pointerPaths T).map (pairAt root idx)
  | scalar _, _ => rfl
  | pointer _, idx => by simp [lowerMemCpyForType, pointerPaths, pairAt]
  | array _ e, idx => by
    rw [lowerMemCpyForType, lowerMemCpyForType_eq root e, pointerPaths, List.map_map]
    exact List.map_congr_left fun π _ => pairAt_cons root idx (.index 0) π
  | struct _ fields _, idx => by
    rw [lowerMemCpyForType, lowerFields_eq root fields, pointerPaths]

theorem lowerFields_eq (root : IRType) : ∀ (fields : List (Nat × IRType)) (i : Nat)
    (idx : List (Idx Empty)),
    lowerFields root i fields idx = (fieldPaths i fields).map (pairAt root idx)
  | [], _, _ => rfl
  | f :: rest, i, idx => by
    rw [lowerFields, lowerMemCpyForType_eq root f.2, lowerFields_eq root rest, fieldPaths,
      List.map_append, List.map_map]
    refine congrArg (· ++ _) (List.map_congr_left fun π _ => ?_)
    exact pairAt_cons root idx (.field i) π

end

/-- the index list of a leaf adds its physical offset -/
theorem offsetInto_leaf (v : Empty → Int) {T : IRType} {π : List Step} {p : Nat} (h : Leaf T π p) :
    GEP.offsetInto v T (π.map stepIdx) = p := by
  induction h with
  | scalar => rfl
  | pointer => rfl
  | @elem n e i π p _ _ ih =>
    rw [List.map_cons, GEP.offsetInto]
    simp only [indexedOffset, indexedType, stepIdx, idxConst, Idx.value, Option.map_some,
      Option.getD_some, ih]
    push_cast
    rfl
  | @field name fields size k off T π p hk _ ih =>
    rw [List.map_cons, GEP.offsetInto]
    simp only [indexedOffset, indexedType, stepIdx, idxConst, Int.natCast_nonneg, if_true,
      Int.toNat_natCast, hk, Option.map_some, Option.getD_some, ih]
    push_cast
    rfl

end LoweringMemCpy

namespace LoadStore

variable (c : LoadStore)

/-- the constant offset of the pointer that is loaded -/
def srcOffset : Int := c.srcGEP.offset nofun

def dstOffset : Int := c.dstGEP.offset nofun

/-- the layout offset of the pointer in a block of the type -/
def layoutOffset (T : IRType) : Nat := ((layoutOf T).indexPhysicalOffset c.srcOffset.toNat).1

/-- In a solution of the pointer analysis, where the two pointers of the copy point to the first
objects of two blocks: what the loaded object points to, the stored one points to.  The sets are
given by the place of the object in its block. -/
def Holds {Loc : Type} (src dst : MemBlock) (srcPts dstPts : Nat → Set Loc) : Prop :=
  ∀ f g src' dst', src.indexObject 0 (.const c.srcOffset) = some (some f, src') →
    dst.indexObject 0 (.const c.dstOffset) = some (some g, dst') → srcPts f ⊆ dstPts g

end LoadStore

namespace LoweringMemCpy

theorem srcOffset_pairAt {T : IRType} {π : List Step} {p : Nat} (h : Leaf T π p) :
    (pairAt T [idxConst 0] π).srcOffset = p := by
  rw [LoadStore.srcOffset, pairAt]
  simp only [GEP.offset, List.singleton_append, idxConst, Idx.value]
  rw [offsetInto_leaf _ h]
  push_cast
  omega

/-- the pair of a pointer of the first elements: its two offsets are those of the leaf, and its layout
offset is the leaf's -/
theorem pairAt_slot {T : IRType} (h : Wf T) (hagg : T.isAggregate) {π : List Step}
    (hπ : π ∈ pointerPaths T) :
    ∃ p l, Slot T π p p l ∧ p < sizeMax ∧ (pairAt T [idxConst 0] π).srcOffset = p ∧
      (pairAt T [idxConst 0] π).dstOffset = p ∧ (pairAt T [idxConst 0] π).layoutOffset T = l := by
  obtain ⟨hz, size, hat⟩ := mem_pointerPaths.mp hπ
  obtain ⟨q, hleaf⟩ := Leaf.of_pointer h hz hat
  obtain ⟨p, l, hslot⟩ := hleaf.slot
  have hp := hslot.leaf_zeroed
  rw [hz] at hp
  have hlt := (h.indexed.slot _ _ _ _ hp).1
  have hbig := h.size_lt
  have hmax : p < sizeMax := by unfold sizeMax; omega
  refine ⟨p, l, hp, hmax, srcOffset_pairAt hp.leaf, srcOffset_pairAt hp.leaf, ?_⟩
  rw [LoadStore.layoutOffset, srcOffset_pairAt hp.leaf, Int.toNat_natCast,
    ((BlockOk.bounded hagg h).index_slot hp hmax).1]

theorem mem_lowerMemCpy {T : IRType} {c : LoadStore} :
    c ∈ lowerMemCpy T ↔ ∃ π ∈ pointerPaths T, pairAt T [idxConst 0] π = c := by
  rw [lowerMemCpy, lowerMemCpyForType_eq, List.mem_map]

/-- the first object of a block stays in its place -/
theorem object_zero_blockAfter {Ts : List IRType} {T : IRType} {qs : List Query} {b : AggregateMemBlock}
    (h : blockAfter Ts T qs = some b) : b.object 0 = some ⟨0, 0⟩ :=
  AggregateMemBlock.queries_inv (I := fun b => b.object 0 = some ⟨0, 0⟩)
    (fun _ _ _ _ hb => Objects.object_objectIn hb) (by rw [Objects.object_new, if_pos rfl]) h

/-- from the first object of a block, an offset is asked for as it is -/
theorem indexObject_zero {b : AggregateMemBlock} (hfirst : b.object 0 = some ⟨0, 0⟩) {p : Nat}
    (hp : p < 2 ^ 64) :
    (MemBlock.aggregate b).indexObject 0 (.const p) = (MemBlock.aggregate b).getObjectAt p := by
  have hmod : (((0 : Nat) + (p : Int)) % 2 ^ 64).toNat = p := by omega
  have hobj : (MemBlock.aggregate b).object 0 = some ⟨0, 0⟩ := hfirst
  rw [MemBlock.indexObject, hobj]
  dsimp only
  rw [hmod]

/-- the offset of a leaf gives the object of its layout offset -/
theorem indexObject_slot {T : IRType} (hT : BlockOk T) (hnarrow : T.Narrow) {b : AggregateMemBlock}
    (hlayout : b.layout = layoutOf T) (hfirst : b.object 0 = some ⟨0, 0⟩) {π : List Step}
    {p c l : Nat} (hslot : Slot T π p c l) (hp : p < sizeMax) :
    (MemBlock.aggregate b).indexObject 0 (.const p) =
      some ((layoutOf T).elementNumber l, .aggregate (b.lookup p).2) := by
  have hbig : p < 2 ^ 64 := by
    unfold sizeMax at hp
    omega
  have hplain := AggregateMemBlock.indexMemoryBlock_eq (show b.layout.Narrow by rwa [hlayout]) p
  rw [indexObject_zero hfirst hbig, MemBlock.getObjectAt, hplain]
  show some ((b.lookup p).1, _) = _
  refine congrArg some (Prod.ext ?_ rfl)
  rw [AggregateMemBlock.lookup]
  by_cases h0 : p = 0
  · subst h0
    obtain ⟨rfl, rfl⟩ := Objects.slot_zero hT hslot
    rw [if_pos rfl, Objects.elementNumber_zero hT ⟨π, hslot.leaf⟩]
  · obtain ⟨hindex, hmem⟩ := hT.index_slot hslot hp
    rw [if_neg h0, hlayout, hindex]
    dsimp only
    obtain ⟨f, hf⟩ := Option.isSome_iff_exists.mp (MemLayout.elementNumber_isSome.mpr hmem)
    rw [hf]

/-- For an aggregate type whose layout the code can store the pass emits one load/store pair for each
pointer of the layout: the two offsets of a pair are equal, different pairs have different layout
offsets, and these are the pointers of the layout.  Between blocks of the type, after any queries, every
pointer object of the destination points to what the same object of the source points to once all pairs
hold. -/
theorem lowerMemCpyForType_spec {T : IRType} (h : Wf T) (hagg : T.isAggregate) (hnarrow : T.Narrow)
    (Ts : List IRType) :
    let layout := ((MemLayoutManager.afterCalls Ts).getLayoutForType T).1
    (∀ c ∈ lowerMemCpy T, 0 ≤ c.srcOffset ∧ c.srcOffset = c.dstOffset) ∧
    ((lowerMemCpy T).map (·.layoutOffset T)).Nodup ∧
    (∀ l, l ∈ (lowerMemCpy T).map (·.layoutOffset T) ↔ l ∈ MemLayout.setBits layout.pointerLayout) ∧
    ∀ qs qs' : List Query, ∃ src dst, blockAfter Ts T qs = some src ∧ blockAfter Ts T qs' = some dst ∧
      ∀ (Loc : Type) (srcPts dstPts : Nat → Set Loc),
        (∀ c ∈ lowerMemCpy T, c.Holds (.aggregate src) (.aggregate dst) srcPts dstPts) →
        ∀ l ∈ MemLayout.setBits layout.pointerLayout, ∃ f, layout.getLogicalOffset l = some (some f) ∧
          srcPts f ⊆ dstPts f := by
  intro layout
  have hlayout : layout = layoutOf T := MemLayoutManager.getLayoutForType_eq Ts T
  have hT : BlockOk T := .bounded hagg h
  have hbits : MemLayout.setBits layout.pointerLayout = (layoutOf T).pointerLayout := by
    rw [hlayout]
    exact MemLayout.setBits_eq fun l hl => hnarrow l (Finset.mem_union_right _ hl)
  have hmem : ∀ l, l ∈ (lowerMemCpy T).map (·.layoutOffset T) ↔
      l ∈ MemLayout.setBits layout.pointerLayout := by
    intro l
    rw [hbits, h.pointerLayout, List.mem_map]
    constructor
    · rintro ⟨c, hc, rfl⟩
      obtain ⟨π, hπ, rfl⟩ := mem_lowerMemCpy.mp hc
      obtain ⟨p, l, hslot, -, -, -, hl⟩ := pairAt_slot h hagg hπ
      exact ⟨π, hπ, p, hl ▸ hslot⟩
    · rintro ⟨π, hπ, p, hslot⟩
      obtain ⟨p', l', hslot', hp', -, -, hl'⟩ := pairAt_slot h hagg hπ
      obtain rfl := hslot.leaf.offset_unique hslot'.leaf
      have heq := (hT.index_slot hslot hp').1.symm.trans (hT.index_slot hslot' hp').1
      exact ⟨_, mem_lowerMemCpy.mpr ⟨π, hπ, rfl⟩, hl'.trans (congrArg Prod.fst heq).symm⟩
  refine ⟨fun c hc => ?_, ?_, hmem, ?_⟩
  · obtain ⟨π, hπ, rfl⟩ := mem_lowerMemCpy.mp hc
    obtain ⟨p, l, -, -, hsrc, hdst, -⟩ := pairAt_slot h hagg hπ
    rw [hsrc, hdst]
    exact ⟨Int.natCast_nonneg p, rfl⟩
  · -- one layout offset is that of one pointer of the first elements
    rw [lowerMemCpy, lowerMemCpyForType_eq, List.map_map]
    refine (nodup_pointerPaths T).map_on fun π hπ π' hπ' heq => ?_
    obtain ⟨p, l, hslot, -, -, -, hl⟩ := pairAt_slot h hagg hπ
    obtain ⟨p', l', hslot', -, -, -, hl'⟩ := pairAt_slot h hagg hπ'
    obtain rfl : l = l' := hl.symm.trans (Eq.trans heq hl')
    have hz := hT.inj hslot hslot'
    rwa [(mem_pointerPaths.mp hπ).1, (mem_pointerPaths.mp hπ').1] at hz
  · intro qs qs'
    obtain ⟨src, hsrc⟩ := blockAfter_isSome hnarrow Ts qs
    obtain ⟨dst, hdst⟩ := blockAfter_isSome hnarrow Ts qs'
    refine ⟨src, dst, hsrc, hdst, fun Loc srcPts dstPts hold l hl => ?_⟩
    obtain ⟨c, hc, rfl⟩ := List.mem_map.mp ((hmem l).mpr hl)
    obtain ⟨π, hπ, rfl⟩ := mem_lowerMemCpy.mp hc
    obtain ⟨p, l, hslot, hp, hcs, hcd, hlc⟩ := pairAt_slot h hagg hπ
    have hin := (hT.index_slot hslot hp).2
    obtain ⟨f, hf⟩ := Option.isSome_iff_exists.mp (MemLayout.elementNumber_isSome.mpr hin)
    refine ⟨f, ?_, hold _ hc f f (.aggregate (src.lookup p).2)
      (.aggregate (dst.lookup p).2) ?_ ?_⟩
    · rw [hlayout, hlc, MemLayout.Narrow.getLogicalOffset_eq hnarrow, hf]
    · rw [hcs, indexObject_slot hT hnarrow (blockAfter_layout hsrc) (object_zero_blockAfter hsrc) hslot
        hp, hf]
    · rw [hcd, indexObject_slot hT hnarrow (blockAfter_layout hdst) (object_zero_blockAfter hdst) hslot
        hp, hf]

/-- `{i32, [3 x {i8*, i64}], i8*}` -/
def arrayOfPairs : IRType :=
  .struct 0 [(0, .scalar 4), (8, .array 3 (.struct 1 [(0, .pointer 8), (8, .scalar 8)] 16)),
    (56, .pointer 8)] 64

theorem wf_arrayOfPairs : Wf arrayOfPairs := by
  refine .struct (by decide) (by decide) fun f hf => ?_
  rcases List.mem_cons.mp hf with rfl | hf
  · exact .scalar (by decide) (by decide)
  · rcases List.mem_pair.mp hf with rfl | rfl
    · refine .array (by decide) (by decide) (by decide) (.struct (by decide) (by decide) ?_)
      intro g hg
      rcases List.mem_pair.mp hg with rfl | rfl
      · exact .pointer (by decide) (by decide)
      · exact .scalar (by decide) (by decide)
    · exact .pointer (by decide) (by decide)

/-- two pairs, at the physical offsets 8 and 56 -/
theorem lowerMemCpy_arrayOfPairs :
    (lowerMemCpy arrayOfPairs).map LoadStore.srcOffset = [8, 56] ∧
      ((lowerMemCpy arrayOfPairs).map (·.layoutOffset arrayOfPairs)).Nodup :=
  ⟨by decide, (lowerMemCpyForType_spec wf_arrayOfPairs rfl (by decide +kernel) []).2.1⟩

/-- 2 GiB of integers, and a pointer -/
def widePointer : IRType :=
  .struct 1 ((List.range 32).map (fun i => (i * 2 ^ 26, wideInts)) ++ [(2 ^ 31, .pointer 8)]) (2 ^ 31 + 8)

theorem wf_widePointer : Wf widePointer := by
  refine .struct (by decide +kernel) (by decide) fun f hf => ?_
  rcases List.mem_append.mp hf with hf | hf
  · obtain ⟨i, -, rfl⟩ := List.mem_map.mp hf
    exact wf_wideInts
  · obtain rfl := List.mem_singleton.mp hf
    exact .pointer (by decide) (by decide)

/-- the pair for the pointer is emitted, but a block has no object for it: the layout can not be cached -/
theorem lowerMemCpy_widePointer : Wf widePointer ∧ ∃ c ∈ lowerMemCpy widePointer,
    c.srcOffset = 2 ^ 31 ∧ ∀ Ts, ∃ b, blockAfter Ts widePointer [] = some b ∧
      (MemBlock.aggregate b).indexObject 0 (.const c.srcOffset) = none := by
  have hleaf : Leaf widePointer [.field 32] (2 ^ 31 + 0) := .field rfl .pointer
  have hsrc : (pairAt widePointer [idxConst 0] [.field 32]).srcOffset = 2 ^ 31 := srcOffset_pairAt hleaf
  have hpath : [Step.field 32] ∈ pointerPaths widePointer := by decide +kernel
  refine ⟨wf_widePointer, _, mem_lowerMemCpy.mpr ⟨_, hpath, rfl⟩, hsrc, fun Ts => ?_⟩
  obtain ⟨c, l, hslot⟩ := hleaf.slot
  obtain ⟨hindex, hmem⟩ := (BlockOk.bounded rfl wf_widePointer).index_slot hslot (by decide)
  have hnil : (layoutOf widePointer).subArrays = [] := by rfl
  rw [MemLayout.indexPhysicalOffset, if_pos hnil] at hindex
  obtain rfl : 2 ^ 31 = l := congrArg Prod.fst hindex
  obtain ⟨b, hb⟩ : ∃ b, blockAfter Ts widePointer [] = some b := ⟨_, rfl⟩
  rw [← blockAfter_layout hb] at hmem
  have hnone := AggregateMemBlock.indexMemoryBlock_eq_none hmem (by decide) (by decide : 2 ^ 31 ≠ 0)
  refine ⟨b, hb, ?_⟩
  rw [hsrc]
  refine (indexObject_zero (p := 2 ^ 31) (object_zero_blockAfter hb) (by decide)).trans ?_
  rw [MemBlock.getObjectAt, hnone]
  rfl

end LoweringMemCpy

end AserPTA
