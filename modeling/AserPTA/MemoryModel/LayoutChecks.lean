import AserPTA.MemoryModel.SizedType

/-!
# The assertions of the layout code

The layout builder and the loop of `indexBetweenArrays` again, as a debug build runs them: `none` is an
assertion that fails or a division by zero.

* `Debug.getLayoutForType`     the builder;
* `Collides`                   a field comes to a bit that is set already: offsets are cut to an `unsigned`;
* `dfsTypeTree_eq`, `dfsTypeTree_some`   on sized types the builder fails exactly then;
* `Debug.getObjectAt`          the object at an offset: an array whose elements have no scalar has no
                               layout size, and the loop must not pass it;
* `Stuck`                      the loop comes to such an array, at the offset or on the way down to it;
* `getObjectAt_total_iff`      when building and lookup do not fail.
-/

namespace AserPTA
open IRType

namespace Debug

/-! ## building -/

def setElementOffset (L : MemLayout) (offset : Nat) : Option MemLayout := do
  guard (offset % 2 ^ 32 ∉ MemLayout.setBits L.elementLayout)
  return L.setElementOffset offset

def setPointerOffset (L : MemLayout) (offset : Nat) : Option MemLayout := do
  guard (offset % 2 ^ 32 ∉ MemLayout.setBits L.pointerLayout)
  let L := L.setPointerOffset offset
  guard (MemLayout.setBits L.pointerLayout ⊆ MemLayout.setBits L.elementLayout)
  return L

def insertSubArray (L : MemLayout) (pOffset : Nat) (subArray : ArrayLayout) : Option MemLayout := do
  guard (pOffset ∉ L.subArrays.map Prod.fst)
  return { L with subArrays := AserPTA.insertSubArray pOffset subArray L.subArrays }

def setMaxOffsets (L : MemLayout) (lOffset pOffset : Nat) : Option MemLayout := do
  guard (L.maxLOffset = 0 ∧ L.maxPOffset = 0)
  return L.setMaxOffsets lOffset pOffset

def setLayoutSize (arr : ArrayLayout) (size : Nat) : Option ArrayLayout := do
  guard (arr.layoutSize = 0)
  return arr.setLayoutSize size

def mergeMemoryLayout (L subLayout : MemLayout) (pOffset lOffset : Nat) : Option MemLayout := do
  let merged := L.mergeMemoryLayout subLayout pOffset lOffset
  guard (MemLayout.setBits merged.pointerLayout ⊆ MemLayout.setBits merged.elementLayout)
  guard (L.isArray = true → L.subArrays.map Prod.fst = [0])
  return merged

def setElementLayout (b : Building) (elementType : IRType) (subLayout : MemLayout) :
    Option Building :=
  match elementType with
  | array _ _ | struct _ _ _ => do
    let layout ← mergeMemoryLayout b.layout subLayout b.pOffset b.lOffset
    return ⟨layout, b.lOffset + subLayout.maxLOffset, b.pOffset + elementType.allocSize⟩
  | pointer size => do
    let layout ← setElementOffset b.layout b.lOffset
    let layout ← setPointerOffset layout b.lOffset
    return ⟨layout, b.lOffset + size, b.pOffset + size⟩
  | scalar size => do
    let layout ← setElementOffset b.layout b.lOffset
    return ⟨layout, b.lOffset + size, b.pOffset + size⟩

/-- the start of `getArrayLayout` -/
def startArray (elementNum elementSize : Nat) : Option Building := do
  let layout ← insertSubArray (MemLayout.new true) 0 (ArrayLayout.new elementNum elementSize)
  return ⟨layout, 0, 0⟩

/-- the end of `getArrayLayout` -/
def finishArray (elementNum : Nat) (elementType : IRType) (b : Building) : Option MemLayout := do
  let pOffset := if elementNum = sizeMax then sizeMax
    else (b.pOffset + elementType.allocSize * ((elementNum + sizeMax) % 2 ^ 64)) % 2 ^ 64
  guard (elementNum ≠ sizeMax → pOffset = (array elementNum elementType).allocSize)
  let layout ← setMaxOffsets b.layout b.lOffset pOffset
  match layout.subArrays with
  | [] => return layout
  | (off, arr) :: rest => do
    let arr ← setLayoutSize arr b.lOffset
    return { layout with subArrays := (off, arr) :: rest }

def padTo (b : Building) (elemOffset : Nat) : Option Building := do
  guard (b.pOffset ≤ elemOffset)
  return b.padTo elemOffset

def finishStruct (b : Building) (size : Nat) : Option MemLayout := do
  guard (b.pOffset ≠ size → b.pOffset < size)
  let b := if b.pOffset = size then b else b.padTo size
  setMaxOffsets b.layout b.lOffset b.pOffset

/-- a layout is cached once -/
def insert (m : MemLayoutManager) (T : IRType) (layout : MemLayout) : Option MemLayoutManager := do
  guard ((m.find T).isNone = true)
  return m.insert T layout

mutual

def dfsTypeTree : IRType → MemLayoutManager → Option (MemLayout × MemLayoutManager)
  | scalar size, m => return (scalarLayout size false, m)
  | pointer size, m => return (scalarLayout size true, m)
  | array n e, m =>
    match m.find (array n e) with
    | some layout => return (layout, m)
    | none => do
      let b ← startArray n e.allocSize
      let (subLayout, m) ← dfsTypeTree e m
      let b ← setElementLayout b e subLayout
      let layout ← finishArray n e b
      let m ← insert m (array n e) layout
      return (layout, m)
  | struct name fields size, m =>
    match m.find (struct name fields size) with
    | some layout => return (layout, m)
    | none => do
      let (b, m) ← dfsFields fields Building.startStruct m
      let layout ← finishStruct b size
      let m ← insert m (struct name fields size) layout
      return (layout, m)

def dfsFields : List (Nat × IRType) → Building → MemLayoutManager →
    Option (Building × MemLayoutManager)
  | [], b, m => return (b, m)
  | (elemOffset, T) :: rest, b, m => do
    let b ← padTo b elemOffset
    let (subLayout, m) ← dfsTypeTree T m
    let b ← setElementLayout b T subLayout
    dfsFields rest b m

end

def getLayoutForType (m : MemLayoutManager) (T : IRType) :
    Option (MemLayout × MemLayoutManager) := do
  guard (T.isAggregate = true)
  dfsTypeTree T m

/-! ## indexing -/

def getLayoutSize (arr : ArrayLayout) : Option Nat := do
  guard (arr.layoutSize ≠ 0)
  return arr.layoutSize

mutual

def indexPhysicalOffsetArray : ArrayLayout → Nat → Option (Nat × Nat)
  | .mk n elementSize l [], pOffset => do
    guard (pOffset ≤ (ArrayLayout.mk n elementSize l []).getArraySize)
    guard (elementSize ≠ 0)
    return (pOffset % elementSize, pOffset % elementSize)
  | .mk _ elementSize _ (x :: rest), pOffset => do
    guard (elementSize ≠ 0)
    indexBetweenArraysFrom (x :: rest) (pOffset % elementSize) 0 0

def indexBetweenArraysFrom : List (Nat × ArrayLayout) → Nat → Nat → Nat → Option (Nat × Nat)
  | [], pOffset, lOffset, curOffset => return (lOffset + (pOffset - curOffset), pOffset)
  | (arrayOffset, arr) :: rest, pOffset, lOffset, curOffset =>
    if pOffset ≤ arrayOffset then return (lOffset + (pOffset - curOffset), pOffset)
    else do
      guard (curOffset ≤ arrayOffset)
      if (arrayOffset + arr.getArraySize) % 2 ^ 64 ≤ pOffset then
        let layoutSize ← getLayoutSize arr
        indexBetweenArraysFrom rest pOffset (lOffset + (arrayOffset - curOffset) + layoutSize)
          ((arrayOffset + arr.getArraySize) % 2 ^ 64)
      else
        let r ← indexPhysicalOffsetArray arr (pOffset - arrayOffset)
        return (r.1 + (lOffset + (arrayOffset - curOffset)), arrayOffset + r.2)

end

def indexPhysicalOffset (L : MemLayout) (pOffset : Nat) : Option (Nat × Nat) :=
  if L.subArrays = [] then return (pOffset, pOffset)
  else if L.maxPOffset ≤ pOffset then return (sizeMax, pOffset)
  else indexBetweenArraysFrom L.subArrays pOffset 0 0

/-- the outer `none` is the failure, the inner one the null pointer -/
def getObjectAt (b : AggregateMemBlock) (pOffset : Nat) :
    Option (Option Nat × AggregateMemBlock) :=
  if pOffset = 0 then return (some 0, b)
  else do
    let r ← indexPhysicalOffset b.layout pOffset
    match ← b.layout.getLogicalOffset r.1 with
    | some fieldNum => return (some fieldNum, b.objectIn fieldNum r.2 r.1)
    | none => return (none, b)

/-- the pointer object at an offset -/
def getPtrObjectAt (b : AggregateMemBlock) (pOffset : Nat) :
    Option (Option Nat × AggregateMemBlock) :=
  if pOffset = 0 then return (some 0, b)
  else do
    let r ← indexPhysicalOffset b.layout pOffset
    match ← b.layout.getLogicalOffset r.1 with
    | some fieldNum =>
      return if b.layout.offsetIsPtr r.1 then (some fieldNum, b.objectIn fieldNum r.2 r.1) else (none, b)
    | none => return (none, b)

/-- its place, by the layout -/
def ptrPlace (L : MemLayout) (pOffset : Nat) : Option Nat :=
  if pOffset = 0 then some 0
  else do
    let r ← indexPhysicalOffset L pOffset
    let fieldNum ← L.getLogicalOffset r.1
    if L.offsetIsPtr r.1 then fieldNum else none

theorem getPtrObjectAt_place (b : AggregateMemBlock) (pOffset : Nat) :
    (getPtrObjectAt b pOffset).bind Prod.fst = ptrPlace b.layout pOffset ∧
      ∀ r, getPtrObjectAt b pOffset = some r → r.2.layout = b.layout := by
  rw [getPtrObjectAt, ptrPlace]
  by_cases h0 : pOffset = 0
  · rw [if_pos h0, if_pos h0]
    refine ⟨rfl, ?_⟩
    rintro r ⟨⟩
    rfl
  · rw [if_neg h0, if_neg h0]
    cases indexPhysicalOffset b.layout pOffset with
    | none => exact ⟨rfl, by exact nofun⟩
    | some q =>
      simp only [Option.bind_eq_bind, Option.bind_some]
      cases b.layout.getLogicalOffset q.1 with
      | none => exact ⟨rfl, by exact nofun⟩
      | some fieldNum =>
        simp only [Option.bind_some]
        cases fieldNum with
        | none =>
          refine ⟨(ite_self none).symm, ?_⟩
          rintro r ⟨⟩
          rfl
        | some f =>
          dsimp only
          split
          · refine ⟨rfl, ?_⟩
            rintro r ⟨⟩
            exact b.objectIn_layout _ _ _
          · refine ⟨rfl, ?_⟩
            rintro r ⟨⟩
            rfl

end Debug

/-! ## bits that are set twice -/

namespace IRType

mutual

/-- in a structure of the type, a field that is no aggregate comes to the bit of an element before it -/
def Collides : IRType → Prop
  | scalar _ => False
  | pointer _ => False
  | array _ e => Collides e
  | struct _ fields _ => FieldsCollide ∅ 0 0 fields

/-- among the fields from two offsets on, behind elements at the layout offsets `elements` -/
def FieldsCollide : Finset Nat → Nat → Nat → List (Nat × IRType) → Prop
  | _, _, _, [] => False
  | elements, lOffset, pOffset, (off, T) :: rest =>
    Collides T ∨
    (T.isAggregate = false ∧ (lOffset + (off - pOffset)) % 2 ^ 32 ∈ MemLayout.setBits elements) ∨
    FieldsCollide (elements ∪ (layoutOf T).elementLayout.image (· + (lOffset + (off - pOffset))))
      (lOffset + (off - pOffset) + (layoutOf T).maxLOffset) (off + T.allocSize) rest

end

end IRType

namespace Building

/-- the fields that are still to be built -/
def Collides (b : Building) (fields : List (Nat × IRType)) : Prop :=
  FieldsCollide b.layout.elementLayout b.lOffset b.pOffset fields

theorem collides_cons {b : Building} {off : Nat} {T : IRType} {rest : List (Nat × IRType)}
    (hoff : b.pOffset ≤ off) : b.Collides ((off, T) :: rest) ↔ T.Collides ∨
      (T.isAggregate = false ∧
        (b.padTo off).lOffset % 2 ^ 32 ∈ MemLayout.setBits (b.padTo off).layout.elementLayout) ∨
      ((b.padTo off).setElementLayout T (layoutOf T)).Collides rest := by
  obtain ⟨hp, hl⟩ := padTo_setElementLayout T hoff
  rw [Collides, FieldsCollide, Collides, hp, hl, setElementLayout_elementLayout]
  rfl

end Building

/-- where every layout offset is an `unsigned` no bit is set twice -/
theorem not_fieldsCollide {fields : List (Nat × IRType)} (hfields : ∀ f ∈ fields, Sized f.2)
    (ih : ∀ f ∈ fields, (∀ l ∈ (layoutOf f.2).elementLayout, l < 2 ^ 32) → ¬ f.2.Collides)
    {b : Building} {size : Nat} (hfit : FieldsFit b.pOffset fields size)
    (hb : ∀ l ∈ b.layout.elementLayout, l < b.lOffset)
    (hroom : ∀ l ∈ (buildFields fields b).layout.elementLayout, l < 2 ^ 32) :
    ¬ b.Collides fields := by
  induction fields generalizing b with
  | nil => exact not_false
  | cons f rest ihrest =>
    obtain ⟨off, T⟩ := f
    have hT : Sized T := hfields _ List.mem_cons_self
    rw [buildFields] at hroom
    have hfit' : FieldsFit ((b.padTo off).setElementLayout T (layoutOf T)).pOffset rest size := by
      rw [(padTo_setElementLayout T hfit.1).1]
      exact hfit.2
    -- the elements of this field are among those at the end
    have hroom' : ∀ l ∈ ((b.padTo off).setElementLayout T (layoutOf T)).layout.elementLayout,
        l < 2 ^ 32 := fun l hl => hroom l ((buildFields_mem (B := MemLayout.elementLayout)
      (fun b T _ => Building.mem_setElementLayout b T) hfit').mpr (.inl hl))
    have hnew : ∀ l ∈ (layoutOf T).elementLayout, (b.padTo off).lOffset + l < 2 ^ 32 := fun l hl =>
      hroom' _ ((Building.mem_setElementLayout (b.padTo off) T).mpr (.inr ⟨l, hl, rfl⟩))
    have hpad : ∀ l ∈ (b.padTo off).layout.elementLayout, l < (b.padTo off).lOffset :=
      fun l hl => (hb l hl).trans_le (Nat.le_add_right _ _)
    rw [Building.collides_cons hfit.1]
    rintro (h | ⟨hagg, hmem⟩ | h)
    · exact ih _ List.mem_cons_self (fun l hl => (Nat.le_add_left _ _).trans_lt (hnew l hl)) h
    · obtain ⟨l, hl, heq⟩ := Finset.mem_image.mp hmem
      have hlt := hpad l hl
      have hzero : (0 : Nat) ∈ (layoutOf T).elementLayout := by
        cases T with
        | scalar _ => exact Finset.mem_singleton_self 0
        | pointer _ => exact Finset.mem_singleton_self 0
        | array _ _ => cases hagg
        | struct _ _ _ => cases hagg
      have := hnew 0 hzero
      omega
    · refine ihrest (fun g hg => hfields g (.tail _ hg)) (fun g hg => ih g (.tail _ hg)) hfit' ?_ hroom h
      intro l hl
      rw [Building.setElementLayout_lOffset]
      rcases (Building.mem_setElementLayout (b.padTo off) T).mp hl with hl | ⟨m, hm, rfl⟩
      · have := hpad l hl
        omega
      · have := hT.bits.1 m hm
        omega

theorem IRType.Sized.not_collides {T : IRType} (hT : Sized T)
    (hroom : ∀ l ∈ (layoutOf T).elementLayout, l < 2 ^ 32) : ¬ T.Collides := by
  induction hT with
  | scalar _ _ => exact not_false
  | pointer _ _ => exact not_false
  | array _ _ _ ih =>
    rw [layoutOf_array_elementLayout] at hroom
    exact ih hroom
  | @struct name fields size hfit _ _ hfields ih =>
    have hend := congrArg Prod.snd (buildFields_offsets (b := Building.startStruct) hfit)
    have hle : (buildFields fields Building.startStruct).pOffset ≤ size :=
      hend.trans_le (endOffsets_le hfit)
    rw [layoutOf_struct, (finishStruct_spec hle).2.1] at hroom
    exact not_fieldsCollide hfields ih hfit (fun l hl => absurd hl (Finset.notMem_empty l)) hroom

namespace Debug

/-! ## building keeps the assertions -/

theorem guard_bind {c : Prop} [Decidable c] {β : Type} (h : c) (f : Unit → Option β) :
    (guard c >>= f) = f () := by
  rw [guard, if_pos h]
  rfl

theorem guard_bind_neg {c : Prop} [Decidable c] {β : Type} (h : ¬ c) (f : Unit → Option β) :
    (guard c >>= f) = none := by
  rw [guard, if_neg h]
  rfl

/-- what a layout under construction satisfies -/
structure Sound (b : Building) : Prop where
  pointer : b.layout.pointerLayout ⊆ b.layout.elementLayout
  fresh : b.layout.maxLOffset = 0 ∧ b.layout.maxPOffset = 0
  array : b.layout.isArray = true → b.layout.subArrays.map Prod.fst = [0]

theorem mergeMemoryLayout_max (L sub : MemLayout) (p l : Nat) :
    (L.mergeMemoryLayout sub p l).maxLOffset = L.maxLOffset ∧
      (L.mergeMemoryLayout sub p l).maxPOffset = L.maxPOffset := by
  rw [MemLayout.mergeMemoryLayout, MemLayout.updateArray]
  dsimp only
  split
  · split <;> exact ⟨rfl, rfl⟩
  · exact ⟨rfl, rfl⟩

theorem mergeMemoryLayout_keys (L sub : MemLayout) (p l : Nat) (hL : L.isArray = true) :
    (L.mergeMemoryLayout sub p l).subArrays.map Prod.fst = L.subArrays.map Prod.fst := by
  rw [MemLayout.mergeMemoryLayout, MemLayout.updateArray]
  dsimp only
  rw [if_pos hL]
  split
  · next h => rw [h]
  · next h => rw [h]; rfl

section
variable {b : Building} {T : IRType}

/-- the next element of a sized type -/
theorem Sound.next (hb : Sound b) (hT : Sized T) : Sound (b.setElementLayout T (layoutOf T)) where
  pointer l hl := by
    rw [Building.mem_setElementLayout]
    rcases (Building.mem_setElementLayout_pointerLayout b T).mp hl with hl | ⟨m, hm, rfl⟩
    · exact .inl (hb.pointer hl)
    · exact .inr ⟨m, hT.bits.2 hm, rfl⟩
  fresh := by
    cases T with
    | scalar _ => exact hb.fresh
    | pointer _ => exact hb.fresh
    | array _ _ =>
      obtain ⟨h1, h2⟩ := mergeMemoryLayout_max b.layout _ b.pOffset b.lOffset
      exact ⟨h1.trans hb.fresh.1, h2.trans hb.fresh.2⟩
    | struct _ _ _ =>
      obtain ⟨h1, h2⟩ := mergeMemoryLayout_max b.layout _ b.pOffset b.lOffset
      exact ⟨h1.trans hb.fresh.1, h2.trans hb.fresh.2⟩
  array h := by
    rw [Building.setElementLayout_isArray] at h
    cases T with
    | scalar _ => exact hb.array h
    | pointer _ => exact hb.array h
    | array _ _ => exact (mergeMemoryLayout_keys _ _ _ _ h).trans (hb.array h)
    | struct _ _ _ => exact (mergeMemoryLayout_keys _ _ _ _ h).trans (hb.array h)

/-- only the bit of an element that is no aggregate has to be new -/
theorem setElementLayout_eq (hb : Sound b) (hT : Sized T) (hnew : T.isAggregate = false →
      b.lOffset % 2 ^ 32 ∉ MemLayout.setBits b.layout.elementLayout) :
    setElementLayout b T (layoutOf T) = some (b.setElementLayout T (layoutOf T)) := by
  have hsub : ∀ {A B : Finset Nat}, A ⊆ B → MemLayout.setBits A ⊆ MemLayout.setBits B :=
    fun h => Finset.image_subset_image h
  have hptr := hsub (hb.next hT).pointer
  have hmerge : ∀ sub,
      MemLayout.setBits (b.layout.mergeMemoryLayout sub b.pOffset b.lOffset).pointerLayout ⊆
      MemLayout.setBits (b.layout.mergeMemoryLayout sub b.pOffset b.lOffset).elementLayout →
      mergeMemoryLayout b.layout sub b.pOffset b.lOffset =
        some (b.layout.mergeMemoryLayout sub b.pOffset b.lOffset) := by
    intro sub hsub
    rw [mergeMemoryLayout, guard_bind hsub, guard_bind hb.array]
    rfl
  cases T with
  | scalar size =>
    rw [setElementLayout, setElementOffset, guard_bind (hnew rfl)]
    rfl
  | pointer size =>
    have hnew := hnew rfl
    rw [setElementLayout, setElementOffset, guard_bind hnew]
    show (setPointerOffset (b.layout.setElementOffset b.lOffset) b.lOffset >>= _) = _
    have hptr' : MemLayout.setBits ((b.layout.setElementOffset b.lOffset).setPointerOffset
        b.lOffset).pointerLayout ⊆ MemLayout.setBits ((b.layout.setElementOffset
          b.lOffset).setPointerOffset b.lOffset).elementLayout := hptr
    rw [setPointerOffset, guard_bind (show b.lOffset % 2 ^ 32 ∉ MemLayout.setBits
      (b.layout.setElementOffset b.lOffset).pointerLayout from fun h => hnew (hsub hb.pointer h)),
      guard_bind hptr']
    rfl
  | array n e =>
    rw [setElementLayout, hmerge _ hptr]
    rfl
  | struct name fields size =>
    rw [setElementLayout, hmerge _ hptr]
    rfl

end

theorem Sound.startStruct : Sound Building.startStruct where
  pointer := Finset.Subset.refl _
  fresh := ⟨rfl, rfl⟩
  array h := absurd h Bool.false_ne_true

/-- the layout of an array at the start -/
def newArray (n : Nat) (e : IRType) : Building :=
  ⟨{ MemLayout.new true with subArrays := [(0, ArrayLayout.new n e.allocSize)] }, 0, 0⟩

theorem Sound.newArray (n : Nat) (e : IRType) : Sound (newArray n e) where
  pointer := Finset.Subset.refl _
  fresh := ⟨rfl, rfl⟩
  array _ := rfl

theorem startArray_eq (n : Nat) (e : IRType) : startArray n e.allocSize = some (newArray n e) := by
  rw [startArray, insertSubArray, guard_bind (by exact List.not_mem_nil)]
  rfl

/-- the end of an array -/
theorem finishArray_eq {n : Nat} {e : IRType} (he : Sized e)
    (hn : n ≠ sizeMax → n < sizeMax ∧ n * e.allocSize < 2 ^ 64) :
    finishArray n e ((newArray n e).setElementLayout e (layoutOf e)) =
      some (layoutOf (array n e)) := by
  -- the array has no layout size before the end
  have harr : ∃ arr : ArrayLayout, arr.layoutSize = 0 ∧
      ((newArray n e).setElementLayout e (layoutOf e)).layout.subArrays = [(0, arr)] := by
    cases e with
    | scalar _ => exact ⟨_, rfl, rfl⟩
    | pointer _ => exact ⟨_, rfl, rfl⟩
    | array _ _ => exact ⟨_, rfl, mergeMemoryLayout_array _ _ _ rfl rfl _ _⟩
    | struct _ _ _ => exact ⟨_, rfl, mergeMemoryLayout_array _ _ _ rfl rfl _ _⟩
  obtain ⟨arr, hsize, harr⟩ := harr
  have hend := Building.setElementLayout_pOffset (newArray n e) e
  rw [finishArray, guard_bind, setMaxOffsets, guard_bind ((Sound.newArray n e).next he).fresh]
  · show (match MemLayout.subArrays _ with | [] => _ | (off, arr) :: rest => _) = _
    dsimp only [MemLayout.setMaxOffsets]
    rw [harr]
    dsimp only
    have hfinish : layoutOf (array n e) =
        let b := (newArray n e).setElementLayout e (layoutOf e)
        let pOffset := if n = sizeMax then sizeMax
          else (b.pOffset + e.allocSize * ((n + sizeMax) % 2 ^ 64)) % 2 ^ 64
        (b.layout.setMaxOffsets b.lOffset pOffset).updateArray (·.setLayoutSize b.lOffset) := by
      rw [layoutOf_array]
      rfl
    rw [setLayoutSize, guard_bind hsize, hfinish, MemLayout.updateArray]
    dsimp only [MemLayout.setMaxOffsets]
    rw [harr]
    rfl
  · intro hne
    obtain ⟨hlt, hsize⟩ := hn hne
    have hmax := layoutOf_array_maxPOffset hlt hsize
    rw [layoutOf_array_maxPOffset_eq, if_neg hne] at hmax
    rw [if_neg hne, hend]
    show (0 + e.allocSize + _) % 2 ^ 64 = _
    rw [Nat.zero_add]
    exact hmax

theorem finishStruct_eq {b : Building} (hb : Sound b) {size : Nat} (hle : b.pOffset ≤ size) :
    finishStruct b size = some (b.finishStruct size) := by
  rw [finishStruct, guard_bind (fun hne => by omega)]
  have hfresh : ∀ b' : Building, b'.layout = b.layout →
      setMaxOffsets b'.layout b'.lOffset b'.pOffset =
        some (b'.layout.setMaxOffsets b'.lOffset b'.pOffset) := by
    intro b' hb'
    rw [setMaxOffsets, hb', guard_bind hb.fresh]
    rfl
  rw [Building.finishStruct]
  split
  · exact hfresh b rfl
  · exact hfresh _ rfl

/-! ### the table -/

mutual

/-- types that are built for a type are no larger -/
theorem mem_dfsTypeTree {x : IRType × MemLayout} : ∀ (T : IRType) (m : MemLayoutManager),
    x ∈ (MemLayoutManager.dfsTypeTree T m).2.memLayoutMap →
      x ∈ m.memLayoutMap ∨ sizeOf x.1 ≤ sizeOf T
  | scalar _, _, hx => .inl hx
  | pointer _, _, hx => .inl hx
  | array n e, m, hx => by
    rw [MemLayoutManager.dfsTypeTree] at hx
    split at hx
    · exact .inl hx
    · rcases List.mem_cons.mp hx with rfl | hx
      · exact .inr le_rfl
      · refine (mem_dfsTypeTree e m hx).imp_right fun hle => ?_
        simp only [array.sizeOf_spec]
        omega
  | struct name fields size, m, hx => by
    rw [MemLayoutManager.dfsTypeTree] at hx
    split at hx
    · exact .inl hx
    · rcases List.mem_cons.mp hx with rfl | hx
      · exact .inr le_rfl
      · refine (mem_dfsFields fields _ m hx).imp_right fun hle => ?_
        simp only [struct.sizeOf_spec]
        omega

theorem mem_dfsFields {x : IRType × MemLayout} : ∀ (fields : List (Nat × IRType)) (b : Building)
    (m : MemLayoutManager), x ∈ (MemLayoutManager.dfsFields fields b m).2.memLayoutMap →
      x ∈ m.memLayoutMap ∨ sizeOf x.1 ≤ sizeOf fields
  | [], _, _, hx => .inl hx
  | (off, T) :: rest, b, m, hx => by
    rw [MemLayoutManager.dfsFields] at hx
    have hsize : sizeOf T ≤ sizeOf ((off, T) :: rest) ∧ sizeOf rest ≤ sizeOf ((off, T) :: rest) := by
      simp only [List.cons.sizeOf_spec, Prod.mk.sizeOf_spec]
      omega
    rcases mem_dfsFields rest _ _ hx with hx | hle
    · exact (mem_dfsTypeTree T m hx).imp_right fun hle => hle.trans hsize.1
    · exact .inr (hle.trans hsize.2)

end

/-- a type is not found after building smaller ones, if it was not before -/
theorem insert_eq {m n : MemLayoutManager} {T : IRType} (hT : m.find T = none)
    (hn : ∀ x ∈ n.memLayoutMap, x ∈ m.memLayoutMap ∨ sizeOf x.1 < sizeOf T) (layout : MemLayout) :
    insert n T layout = some (n.insert T layout) := by
  have hnone : n.find T = none := by
    rw [MemLayoutManager.find, List.lookup_eq_none_iff] at hT ⊢
    intro x hx
    rcases hn x hx with hx | hlt
    · exact hT x hx
    · refine bne_iff_ne.mpr fun heq => ?_
      rw [heq] at hlt
      exact lt_irrefl _ hlt
  rw [insert, guard_bind (by rw [hnone]; rfl)]
  rfl

theorem dfsArray_eq {n : Nat} {e : IRType} (he : Sized e)
    (hn : n ≠ sizeMax → n < sizeMax ∧ n * e.allocSize < 2 ^ 64) {m : MemLayoutManager}
    (hm : m.Consistent) (ih : dfsTypeTree e m = some (MemLayoutManager.dfsTypeTree e m)) :
    dfsTypeTree (array n e) m = some (MemLayoutManager.dfsTypeTree (array n e) m) := by
  rw [dfsTypeTree, MemLayoutManager.dfsTypeTree]
  cases hfind : m.find (array n e) with
  | some layout => rfl
  | none =>
    have hlayout := (hm.dfsTypeTree e).1
    have hinsert := insert_eq (n := (MemLayoutManager.dfsTypeTree e m).2) hfind (fun x hx => by
      refine (mem_dfsTypeTree e m hx).imp_right fun hle => ?_
      simp only [array.sizeOf_spec]
      omega) (layoutOf (array n e))
    rw [startArray_eq, ih]
    show (setElementLayout (newArray n e) e (MemLayoutManager.dfsTypeTree e m).1 >>= _) =
      some (getArrayLayout n e (MemLayoutManager.dfsTypeTree e m).1, _)
    rw [hlayout, ← layoutOf_array,
      setElementLayout_eq (.newArray n e) he fun _ => Finset.notMem_empty _]
    show (finishArray n e _ >>= _) = _
    rw [finishArray_eq he hn]
    show (insert (MemLayoutManager.dfsTypeTree e m).2 _ _ >>= _) = _
    rw [hinsert]
    rfl

theorem dfsFields_eq {fields : List (Nat × IRType)} (hfields : ∀ f ∈ fields, Sized f.2)
    (ih : ∀ f ∈ fields, ¬ f.2.Collides → ∀ m : MemLayoutManager,
      m.Consistent → dfsTypeTree f.2 m = some (MemLayoutManager.dfsTypeTree f.2 m))
    {b : Building} (hb : Sound b) {size : Nat} (hfit : FieldsFit b.pOffset fields size)
    (hno : ¬ b.Collides fields) {m : MemLayoutManager} (hm : m.Consistent) :
    dfsFields fields b m = some (MemLayoutManager.dfsFields fields b m) ∧
      Sound (buildFields fields b) := by
  induction fields generalizing b m with
  | nil => exact ⟨rfl, hb⟩
  | cons f rest ihrest =>
    obtain ⟨off, T⟩ := f
    have hpad : padTo b off = some (b.padTo off) := by
      rw [padTo, guard_bind hfit.1]
      rfl
    have hbpad : Sound (b.padTo off) := ⟨hb.pointer, hb.fresh, hb.array⟩
    have hT : Sized T := hfields _ List.mem_cons_self
    obtain ⟨hlayout, hm'⟩ := hm.dfsTypeTree T
    rw [Building.collides_cons hfit.1, not_or, not_or] at hno
    obtain ⟨hnoT, hnew, hno⟩ := hno
    have hfit' : FieldsFit ((b.padTo off).setElementLayout T (layoutOf T)).pOffset rest size := by
      rw [(padTo_setElementLayout T hfit.1).1]
      exact hfit.2
    have hrest := ihrest (fun g hg => hfields g (.tail _ hg)) (fun g hg => ih g (.tail _ hg))
      (hbpad.next hT) hfit' hno hm'
    rw [dfsFields, hpad]
    show (dfsTypeTree T m >>= _) = _ ∧ _
    rw [ih _ List.mem_cons_self hnoT m hm]
    show (setElementLayout (b.padTo off) T _ >>= _) = _ ∧ _
    rw [hlayout, setElementLayout_eq hbpad hT (fun hagg hmem => hnew ⟨hagg, hmem⟩),
      MemLayoutManager.dfsFields]
    dsimp only
    rw [hlayout]
    exact hrest

theorem dfsTypeTree_eq {T : IRType} (hT : Sized T) (hno : ¬ T.Collides) {m : MemLayoutManager}
    (hm : m.Consistent) :
    dfsTypeTree T m = some (MemLayoutManager.dfsTypeTree T m) := by
  induction hT generalizing m with
  | scalar _ _ =>
    rw [dfsTypeTree, MemLayoutManager.dfsTypeTree]
    rfl
  | pointer _ _ =>
    rw [dfsTypeTree, MemLayoutManager.dfsTypeTree]
    rfl
  | array hn hsize he ih => exact dfsArray_eq he (fun _ => ⟨hn, hsize⟩) hm (ih hno hm)
  | @struct name fields size hfit _ _ hfields ih =>
    rw [dfsTypeTree, MemLayoutManager.dfsTypeTree]
    cases hfind : m.find (struct name fields size) with
    | some layout => rfl
    | none =>
      obtain ⟨hbuild, -⟩ := hm.dfsFields fields Building.startStruct
      have hend := congrArg Prod.snd (buildFields_offsets (b := Building.startStruct) hfit)
      have hle : (buildFields fields Building.startStruct).pOffset ≤ size :=
        hend.trans_le (endOffsets_le hfit)
      obtain ⟨heq, hsound⟩ := dfsFields_eq hfields (fun f hf hno m hm => ih f hf hno hm) .startStruct
        hfit hno hm
      have hinsert := insert_eq
        (n := (MemLayoutManager.dfsFields fields Building.startStruct m).2) hfind (fun x hx => by
          refine (mem_dfsFields fields _ m hx).imp_right fun hle => ?_
          simp only [struct.sizeOf_spec]
          omega) ((buildFields fields Building.startStruct).finishStruct size)
      rw [heq]
      show (finishStruct _ size >>= _) = _
      dsimp only
      rw [hbuild, finishStruct_eq hsound hle]
      show (insert _ _ _ >>= _) = _
      rw [hinsert]
      rfl

/-! ## indexing -/

theorem indexPhysicalOffsetArray_eq_none {arr : ArrayLayout} {r : Nat} (hr : r ≤ arr.getArraySize) :
    indexPhysicalOffsetArray arr r = none ↔ arr.elementSize = 0 ∨
      indexBetweenArraysFrom arr.subArrays (r % arr.elementSize) 0 0 = none := by
  obtain ⟨n, s, l, sub⟩ := arr
  show _ ↔ s = 0 ∨ indexBetweenArraysFrom sub (r % s) 0 0 = none
  cases sub with
  | nil =>
    rw [indexPhysicalOffsetArray, guard_bind hr, indexBetweenArraysFrom]
    by_cases hs : s = 0
    · rw [guard_bind_neg (not_not.mpr hs)]
      exact iff_of_true rfl (.inl hs)
    · rw [guard_bind hs]
      exact iff_of_false (by exact nofun) (by rintro (h | h); exacts [hs h, nomatch h])
  | cons x rest =>
    rw [indexPhysicalOffsetArray]
    by_cases hs : s = 0
    · rw [guard_bind_neg (not_not.mpr hs)]
      exact iff_of_true rfl (.inl hs)
    · rw [guard_bind hs]
      exact (or_iff_right hs).symm

/-- the loop fails where it passes an array without layout size, or in the array that the offset is in -/
theorem indexBetweenArraysFrom_eq_none {A : List (Nat × ArrayLayout)} {lo hi : Nat}
    (h : Ordered lo A hi) (hhi : hi < 2 ^ 64) {p l cur : Nat} (hcur : cur ≤ lo) :
    indexBetweenArraysFrom A p l cur = none ↔ ∃ x ∈ A, x.1 < p ∧
      ((x.1 + x.2.getArraySize ≤ p ∧ x.2.layoutSize = 0) ∨
        (p < x.1 + x.2.getArraySize ∧ indexPhysicalOffsetArray x.2 (p - x.1) = none)) := by
  induction A generalizing lo l cur with
  | nil =>
    rw [indexBetweenArraysFrom]
    exact iff_of_false (by exact nofun) (by rintro ⟨x, hx, -⟩; exact absurd hx List.not_mem_nil)
  | cons x rest ih =>
    obtain ⟨off, arr⟩ := x
    obtain ⟨hlo, hrest⟩ := h
    have hend : (off + arr.getArraySize) % 2 ^ 64 = off + arr.getArraySize :=
      Nat.mod_eq_of_lt (hrest.le.trans_lt hhi)
    have hkey : ∀ x ∈ rest, off + arr.getArraySize ≤ x.1 := fun x hx => (hrest.key_le hx).1
    rw [indexBetweenArraysFrom, hend, List.exists_mem_cons_iff]
    dsimp only
    by_cases hp : p ≤ off
    · rw [if_pos hp]
      refine iff_of_false (by exact nofun) ?_
      rintro (⟨hlt, -⟩ | ⟨x, hx, hlt, -⟩)
      · omega
      · have := hkey x hx
        omega
    · rw [if_neg hp, guard_bind (hcur.trans hlo)]
      by_cases hpast : off + arr.getArraySize ≤ p
      · rw [if_pos hpast, getLayoutSize]
        by_cases hsize : arr.layoutSize = 0
        · rw [guard_bind_neg (not_not.mpr hsize)]
          exact iff_of_true rfl (.inl ⟨by omega, .inl ⟨hpast, hsize⟩⟩)
        · rw [guard_bind hsize]
          show indexBetweenArraysFrom rest p _ _ = none ↔ _
          rw [ih hrest le_rfl, or_iff_right]
          rintro ⟨-, ⟨-, h⟩ | ⟨h, -⟩⟩
          · exact hsize h
          · omega
      · rw [if_neg hpast]
        have hbind : (indexPhysicalOffsetArray arr (p - off) >>= fun r =>
            some (r.1 + (l + (off - cur)), off + r.2)) = none ↔
              indexPhysicalOffsetArray arr (p - off) = none := by
          cases indexPhysicalOffsetArray arr (p - off) with
          | none => exact iff_of_true rfl rfl
          | some r => exact iff_of_false (by exact nofun) (by exact nofun)
        refine hbind.trans ⟨fun h => .inl ⟨by omega, .inr ⟨by omega, h⟩⟩, ?_⟩
        rintro (⟨-, ⟨h, -⟩ | ⟨-, h⟩⟩ | ⟨x, hx, hlt, -⟩)
        · omega
        · exact h
        · have := hkey x hx
          omega

theorem bind_eq_some {α β : Type} {x : Option α} {f : α → Option β} {b : β} :
    (x >>= f) = some b ↔ ∃ a, x = some a ∧ f a = some b := Option.bind_eq_some_iff

mutual

/-- where nothing fails, the result is the one of the plain loop -/
theorem indexPhysicalOffsetArray_eq {r : Nat × Nat} : ∀ (arr : ArrayLayout) (p : Nat),
    indexPhysicalOffsetArray arr p = some r → arr.indexPhysicalOffset p = r
  | .mk n s l [], p, h => by
    rw [indexPhysicalOffsetArray, bind_eq_some] at h
    obtain ⟨-, -, h⟩ := h
    obtain ⟨-, -, h⟩ := bind_eq_some.mp h
    rw [ArrayLayout.indexPhysicalOffset]
    exact Option.some.inj h
  | .mk n s l (x :: rest), p, h => by
    rw [indexPhysicalOffsetArray, bind_eq_some] at h
    obtain ⟨-, -, h⟩ := h
    rw [ArrayLayout.indexPhysicalOffset]
    exact indexBetweenArraysFrom_eq (x :: rest) _ _ _ h

theorem indexBetweenArraysFrom_eq {r : Nat × Nat} : ∀ (A : List (Nat × ArrayLayout)) (p l cur : Nat),
    indexBetweenArraysFrom A p l cur = some r → AserPTA.indexBetweenArraysFrom A p l cur = r
  | [], p, l, cur, h => by
    rw [indexBetweenArraysFrom] at h
    rw [AserPTA.indexBetweenArraysFrom]
    exact Option.some.inj h
  | (off, arr) :: rest, p, l, cur, h => by
    rw [indexBetweenArraysFrom] at h
    rw [AserPTA.indexBetweenArraysFrom]
    split at h
    · next hp =>
      rw [if_pos hp]
      exact Option.some.inj h
    · next hp =>
      rw [if_neg hp]
      obtain ⟨-, -, h⟩ := bind_eq_some.mp h
      split at h
      · next hpast =>
        obtain ⟨size, hsize, h⟩ := bind_eq_some.mp h
        obtain ⟨-, -, hsize⟩ := bind_eq_some.mp hsize
        obtain rfl := Option.some.inj hsize
        rw [if_pos hpast]
        exact indexBetweenArraysFrom_eq rest _ _ _ h
      · next hpast =>
        obtain ⟨q, hq, h⟩ := bind_eq_some.mp h
        rw [if_neg hpast, indexPhysicalOffsetArray_eq arr _ hq]
        exact Option.some.inj h

end

end Debug

/-! ## where it fails -/

namespace IRType

/-- the type of an aggregate block; only the outermost array may be unbounded -/
inductive SizedBlock : IRType → Prop
  | bounded {T} : T.isAggregate → Sized T → SizedBlock T
  | unbounded {e} : Sized e → SizedBlock (array sizeMax e)

/-- the size of the block -/
def blockSize : IRType → Nat
  | array n e => arraySize n e
  | T => T.allocSize

/-- among the first arrays at their offsets, one whose elements have no scalar starts before `p`, or
`p` is inside one that has no element size or in whose elements the loop fails -/
inductive Stuck : IRType → Nat → Prop
  | pass {T p x} : x ∈ taken none (topArrays T) → x.1 < p → Leafless x.2.2 → Stuck T p
  | divide {T p x} : x ∈ taken none (topArrays T) → x.1 < p → p < x.1 + arraySize x.2.1 x.2.2 →
      x.2.2.allocSize = 0 → Stuck T p
  | inside {T p x} : x ∈ taken none (topArrays T) → x.1 < p → p < x.1 + arraySize x.2.1 x.2.2 →
      Stuck x.2.2 ((p - x.1) % x.2.2.allocSize) → Stuck T p

end IRType

namespace Debug

/-- the loop in a type, by what it does in the elements of the outermost arrays -/
theorem stuck_iff {T : IRType} {hi : Nat}
    (hA : (layoutOf T).subArrays = (taken none (topArrays T)).map arrayOf)
    (hord : Ordered 0 (layoutOf T).subArrays hi) (hhi : hi < 2 ^ 64)
    (helem : ∀ x ∈ topArrays T, Sized x.2.2 ∧
      (arrayOf x).2.getArraySize = arraySize x.2.1 x.2.2 ∧
      ∀ p, indexBetweenArraysFrom (layoutOf x.2.2).subArrays p 0 0 = none ↔ Stuck x.2.2 p)
    (p : Nat) : indexBetweenArraysFrom (layoutOf T).subArrays p 0 0 = none ↔ Stuck T p := by
  have htop : ∀ x ∈ taken none (topArrays T), x ∈ topArrays T :=
    fun x hx => (taken_sublist _ _).subset hx
  have hindex : ∀ x ∈ topArrays T, p < x.1 + arraySize x.2.1 x.2.2 →
      (indexPhysicalOffsetArray (arrayOf x).2 (p - x.1) = none ↔
        x.2.2.allocSize = 0 ∨ Stuck x.2.2 ((p - x.1) % x.2.2.allocSize)) := by
    intro x hx hp
    obtain ⟨-, hsize, hstuck⟩ := helem x hx
    rw [indexPhysicalOffsetArray_eq_none (by rw [hsize]; omega), ← hstuck]
    rfl
  rw [indexBetweenArraysFrom_eq_none hord hhi le_rfl, hA]
  constructor
  · rintro ⟨_, hmem, hlt, h⟩
    obtain ⟨x, hx, rfl⟩ := List.mem_map.mp hmem
    obtain ⟨hsized, hsize, -⟩ := helem x (htop x hx)
    rw [hsize] at h
    rcases h with ⟨-, hzero⟩ | ⟨hp, h⟩
    · exact .pass hx hlt (hsized.maxLOffset_eq_zero.mp hzero)
    · rcases (hindex x (htop x hx) hp).mp h with hs | h
      · exact .divide hx hlt hp hs
      · exact .inside hx hlt hp h
  · intro h
    cases h with
    | @pass _ _ x hx hlt hleafless =>
      obtain ⟨hsized, hsize, -⟩ := helem x (htop x hx)
      refine ⟨_, List.mem_map_of_mem hx, hlt, ?_⟩
      rw [hsize]
      rcases Nat.lt_or_ge p (x.1 + arraySize x.2.1 x.2.2) with hp | hp
      · exact .inr ⟨hp, (hindex x (htop x hx) hp).mpr (.inl (hleafless.allocSize hsized))⟩
      · exact .inl ⟨hp, hsized.maxLOffset_eq_zero.mpr hleafless⟩
    | @divide _ _ x hx hlt hp hs =>
      refine ⟨_, List.mem_map_of_mem hx, hlt, .inr ?_⟩
      rw [(helem x (htop x hx)).2.1]
      exact ⟨hp, (hindex x (htop x hx) hp).mpr (.inl hs)⟩
    | @inside _ _ x hx hlt hp h =>
      refine ⟨_, List.mem_map_of_mem hx, hlt, .inr ?_⟩
      rw [(helem x (htop x hx)).2.1]
      exact ⟨hp, (hindex x (htop x hx) hp).mpr (.inr h)⟩

/-- in a sized type -/
theorem stuck_sized (T : IRType) : Sized T →
    ∀ p, indexBetweenArraysFrom (layoutOf T).subArrays p 0 0 = none ↔ Stuck T p := by
  induction T using nesting_induction with
  | h T ih =>
    intro hT
    have hA := hT.subArrays_eq
    refine stuck_iff hA hT.ordered_subArrays hT.size_lt fun x hx => ?_
    obtain ⟨hsized, harray, hsize⟩ := hT.mem_topArrays hx
    exact ⟨hsized, hsize.trans harray.symm, ih x hx hsized⟩

/-- the loop fails in the block exactly where it is stuck -/
theorem indexPhysicalOffset_eq_none {T : IRType} (hT : SizedBlock T) (p : Nat) :
    indexPhysicalOffset (layoutOf T) p = none ↔ p < blockSize T ∧ Stuck T p := by
  -- both kinds of blocks: the arrays of the layout end at its maximum
  have h : (layoutOf T).maxPOffset = blockSize T →
      (indexBetweenArraysFrom (layoutOf T).subArrays p 0 0 = none ↔ Stuck T p) →
      (indexPhysicalOffset (layoutOf T) p = none ↔ p < blockSize T ∧ Stuck T p) := by
    intro hmax hstuck
    rw [indexPhysicalOffset, hmax]
    split
    · next hnil =>
      refine iff_of_false (by exact nofun) ?_
      rintro ⟨-, hs⟩
      rw [← hstuck, hnil, indexBetweenArraysFrom] at hs
      cases hs
    · split
      · next hle => exact iff_of_false (by exact nofun) fun h => absurd h.1 (Nat.not_lt.mpr hle)
      · next hlt => exact hstuck.trans (and_iff_right (Nat.lt_of_not_le hlt)).symm
  cases hT with
  | bounded hagg hT =>
    refine h ?_ (stuck_sized T hT p)
    rw [hT.maxPOffset]
    cases hT with
    | scalar _ _ => rfl
    | pointer _ _ => rfl
    | array hn _ _ => exact (if_neg hn.ne).symm
    | struct _ _ _ _ => rfl
  | @unbounded e he =>
    have htop : topArrays (array sizeMax e) = [(0, sizeMax, e)] := by rw [topArrays]
    have hA : (layoutOf (array sizeMax e)).subArrays =
        (taken none (topArrays (array sizeMax e))).map arrayOf := by
      rw [htop, he.layoutOf_array_subArrays]
      rfl
    have hsize : (arrayOf (0, sizeMax, e)).2.getArraySize = sizeMax := if_pos rfl
    have hlt : sizeMax < 2 ^ 64 := by decide
    refine h ?_ (stuck_iff hA ?_ hlt (fun x hx => ?_) p)
    · rw [layoutOf_unbounded_maxPOffset, blockSize, arraySize, if_pos rfl]
    · rw [hA, htop]
      refine ⟨le_rfl, ?_⟩
      show 0 + (arrayOf (0, sizeMax, e)).2.getArraySize ≤ sizeMax
      rw [hsize, Nat.zero_add]
    · rw [htop] at hx
      obtain rfl := List.mem_singleton.mp hx
      exact ⟨he, hsize.trans (if_pos rfl).symm, stuck_sized e he⟩

theorem indexPhysicalOffset_eq {L : MemLayout} {p : Nat} {r : Nat × Nat}
    (h : indexPhysicalOffset L p = some r) : L.indexPhysicalOffset p = r := by
  rw [indexPhysicalOffset] at h
  rw [MemLayout.indexPhysicalOffset]
  split at h
  · next hA =>
    rw [if_pos hA]
    exact Option.some.inj h
  · next hA =>
    rw [if_neg hA]
    split at h
    · next hp =>
      rw [if_pos hp]
      exact Option.some.inj h
    · next hp =>
      rw [if_neg hp]
      exact indexBetweenArraysFrom_eq _ _ _ _ h

/-- an offset behind 0 can be looked up as by the plain code iff the loop is not stuck and the layout can
be cached -/
theorem getObjectAt_eq {T : IRType} (hT : SizedBlock T) {b : AggregateMemBlock}
    (hb : b.layout = layoutOf T) (p : Nat) :
    (∃ x, getObjectAt b p = some x ∧ b.indexMemoryBlock p = some x) ↔
      (p = 0 ∨ (layoutOf T).Cacheable) ∧ ¬ (p < blockSize T ∧ Stuck T p) := by
  rw [← indexPhysicalOffset_eq_none hT p, getObjectAt, AggregateMemBlock.indexMemoryBlock, hb]
  by_cases h0 : p = 0
  · rw [if_pos h0, if_pos h0]
    refine iff_of_true ⟨_, rfl, rfl⟩ ⟨.inl h0, ?_⟩
    rw [indexPhysicalOffset_eq_none hT]
    rintro ⟨-, hs⟩
    cases hs <;> omega
  · rw [if_neg h0, if_neg h0, or_iff_right h0]
    cases hr : indexPhysicalOffset (layoutOf T) p with
    | none => exact iff_of_false (by rintro ⟨x, hx, -⟩; cases hx) fun h => h.2 rfl
    | some r =>
      rw [indexPhysicalOffset_eq hr, ← MemLayout.getLogicalOffset_isSome _ r.1]
      simp only [Option.bind_eq_bind, Option.bind_some]
      cases (layoutOf T).getLogicalOffset r.1 with
      | none => exact iff_of_false (by rintro ⟨x, hx, -⟩; cases hx) fun h => absurd h.1 Bool.false_ne_true
      | some f =>
        cases f with
        | none => exact iff_of_true ⟨_, rfl, rfl⟩ ⟨rfl, Option.some_ne_none r⟩
        | some f => exact iff_of_true ⟨_, rfl, rfl⟩ ⟨rfl, Option.some_ne_none r⟩

/-- building a layout fails nowhere unless a bit is set twice -/
theorem getLayoutForType_eq {T : IRType} (hT : SizedBlock T) (hno : ¬ T.Collides) {m : MemLayoutManager}
    (hm : m.Consistent) : getLayoutForType m T = some (m.getLayoutForType T) := by
  cases hT with
  | bounded hagg hT =>
    rw [getLayoutForType, guard_bind hagg]
    exact dfsTypeTree_eq hT hno hm
  | unbounded he =>
    rw [getLayoutForType, guard_bind (by exact rfl)]
    exact dfsArray_eq he (fun h => absurd rfl h) hm (dfsTypeTree_eq he hno hm)

/-! ## what has been built -/

theorem guard_bind_eq_some {c : Prop} [Decidable c] {β : Type} {f : Unit → Option β} {r : β} :
    (guard c >>= f) = some r ↔ c ∧ f () = some r := by
  by_cases h : c
  · rw [guard_bind h, and_iff_right h]
  · rw [guard_bind_neg h]
    exact iff_of_false (by exact nofun) fun hf => h hf.1

section
variable {b b' : Building} {T : IRType} {layout : MemLayout}

theorem setElementLayout_some (h : setElementLayout b T layout = some b') :
    b' = b.setElementLayout T layout ∧
      (T.isAggregate = false → b.lOffset % 2 ^ 32 ∉ MemLayout.setBits b.layout.elementLayout) := by
  cases T with
  | scalar size =>
    obtain ⟨L, hL, h⟩ := bind_eq_some.mp h
    obtain ⟨hnew, hL⟩ := guard_bind_eq_some.mp hL
    cases hL
    cases h
    exact ⟨rfl, fun _ => hnew⟩
  | pointer size =>
    obtain ⟨L, hL, h⟩ := bind_eq_some.mp h
    obtain ⟨hnew, hL⟩ := guard_bind_eq_some.mp hL
    cases hL
    obtain ⟨L', hL', h⟩ := bind_eq_some.mp h
    obtain ⟨-, hL'⟩ := guard_bind_eq_some.mp hL'
    obtain ⟨-, hL'⟩ := guard_bind_eq_some.mp hL'
    cases hL'
    cases h
    exact ⟨rfl, fun _ => hnew⟩
  | array n e =>
    obtain ⟨L, hL, h⟩ := bind_eq_some.mp h
    obtain ⟨-, hL⟩ := guard_bind_eq_some.mp hL
    obtain ⟨-, hL⟩ := guard_bind_eq_some.mp hL
    cases hL
    cases h
    exact ⟨rfl, by exact nofun⟩
  | struct name fields size =>
    obtain ⟨L, hL, h⟩ := bind_eq_some.mp h
    obtain ⟨-, hL⟩ := guard_bind_eq_some.mp hL
    obtain ⟨-, hL⟩ := guard_bind_eq_some.mp hL
    cases hL
    cases h
    exact ⟨rfl, by exact nofun⟩

theorem finishArray_some {n : Nat} (h : finishArray n T b = some layout) :
    layout = (b.layout.setMaxOffsets b.lOffset (if n = sizeMax then sizeMax
      else (b.pOffset + T.allocSize * ((n + sizeMax) % 2 ^ 64)) % 2 ^ 64)).updateArray
        (·.setLayoutSize b.lOffset) := by
  obtain ⟨-, h⟩ := guard_bind_eq_some.mp h
  obtain ⟨L, hL, h⟩ := bind_eq_some.mp h
  obtain ⟨-, hL⟩ := guard_bind_eq_some.mp hL
  cases hL
  generalize b.layout.setMaxOffsets b.lOffset _ = L at h ⊢
  rw [MemLayout.updateArray]
  cases hA : L.subArrays with
  | nil =>
    rw [hA] at h
    exact (Option.some.inj h).symm
  | cons x rest =>
    obtain ⟨off, arr⟩ := x
    rw [hA] at h
    obtain ⟨arr', harr, h⟩ := bind_eq_some.mp h
    obtain ⟨-, harr⟩ := guard_bind_eq_some.mp harr
    cases harr
    exact (Option.some.inj h).symm

theorem finishStruct_some {size : Nat} (h : finishStruct b size = some layout) :
    layout = b.finishStruct size := by
  obtain ⟨-, h⟩ := guard_bind_eq_some.mp h
  obtain ⟨-, h⟩ := guard_bind_eq_some.mp h
  exact (Option.some.inj h).symm

end

/-- nothing in the table collides -/
def Settled (m : MemLayoutManager) : Prop :=
  m.Consistent ∧ ∀ x ∈ m.memLayoutMap, ¬ x.1.Collides

theorem Settled.find {m : MemLayoutManager} (hm : Settled m) {T : IRType} {layout : MemLayout}
    (h : m.find T = some layout) : ¬ T.Collides := by
  rw [MemLayoutManager.find, List.lookup_eq_some_iff] at h
  obtain ⟨before, after, hmap, -⟩ := h
  exact hm.2 (T, layout) (hmap ▸ List.mem_append_right before List.mem_cons_self)

theorem Settled.insert {m m' : MemLayoutManager} (hm : Settled m) {T : IRType} (hT : ¬ T.Collides)
    (h : insert m T (layoutOf T) = some m') : m' = m.insert T (layoutOf T) ∧ Settled m' := by
  obtain ⟨-, h⟩ := guard_bind_eq_some.mp h
  cases h
  refine ⟨rfl, hm.1.insert T, fun x hx => ?_⟩
  rcases List.mem_cons.mp hx with rfl | hx
  · exact hT
  · exact hm.2 x hx

mutual

/-- what could be built does not collide -/
theorem dfsTypeTree_some {r : MemLayout × MemLayoutManager} : ∀ (T : IRType) (m : MemLayoutManager),
    Settled m → dfsTypeTree T m = some r →
      r = MemLayoutManager.dfsTypeTree T m ∧ ¬ T.Collides ∧ Settled r.2
  | scalar _, m, hm, h => by
    cases h
    exact ⟨rfl, not_false, hm⟩
  | pointer _, m, hm, h => by
    cases h
    exact ⟨rfl, not_false, hm⟩
  | array n e, m, hm, h => by
    rw [dfsTypeTree] at h
    rw [MemLayoutManager.dfsTypeTree]
    cases hfind : m.find (array n e) with
    | some layout =>
      rw [hfind] at h
      cases h
      exact ⟨rfl, hm.find hfind, hm⟩
    | none =>
      rw [hfind] at h
      dsimp only at h ⊢
      rw [startArray_eq, Option.bind_eq_bind, Option.bind_some] at h
      obtain ⟨re, he, h⟩ := bind_eq_some.mp h
      obtain ⟨rfl, hno, hme⟩ := dfsTypeTree_some e m hm he
      obtain ⟨b, hb, h⟩ := bind_eq_some.mp h
      obtain ⟨rfl, -⟩ := setElementLayout_some hb
      obtain ⟨layout, hlayout, h⟩ := bind_eq_some.mp h
      obtain ⟨m', hm', h⟩ := bind_eq_some.mp h
      have heq : layout = layoutOf (array n e) := by
        rw [finishArray_some hlayout, layoutOf_array, ← (hm.1.dfsTypeTree e).1]
        rfl
      subst heq
      obtain ⟨rfl, hm'⟩ := hme.insert (T := array n e) hno hm'
      cases h
      rw [layoutOf_array, ← (hm.1.dfsTypeTree e).1]
      exact ⟨rfl, hno, by rwa [(hm.1.dfsTypeTree e).1, ← layoutOf_array]⟩
  | struct name fields size, m, hm, h => by
    rw [dfsTypeTree] at h
    rw [MemLayoutManager.dfsTypeTree]
    cases hfind : m.find (struct name fields size) with
    | some layout =>
      rw [hfind] at h
      cases h
      exact ⟨rfl, hm.find hfind, hm⟩
    | none =>
      rw [hfind] at h
      dsimp only at h ⊢
      obtain ⟨rb, hb, h⟩ := bind_eq_some.mp h
      obtain ⟨rfl, hno, hmb⟩ := dfsFields_some fields Building.startStruct m hm hb
      obtain ⟨layout, hlayout, h⟩ := bind_eq_some.mp h
      obtain ⟨m', hm', h⟩ := bind_eq_some.mp h
      obtain ⟨hbuild, -⟩ := hm.1.dfsFields fields Building.startStruct
      have heq : layout = layoutOf (struct name fields size) := by
        rw [finishStruct_some hlayout, layoutOf_struct, ← hbuild]
      subst heq
      obtain ⟨rfl, hm'⟩ := hmb.insert (T := struct name fields size) hno hm'
      cases h
      refine ⟨?_, hno, hm'⟩
      rw [hbuild, layoutOf_struct]

theorem dfsFields_some {r : Building × MemLayoutManager} : ∀ (fields : List (Nat × IRType))
    (b : Building) (m : MemLayoutManager), Settled m → dfsFields fields b m = some r →
      r = MemLayoutManager.dfsFields fields b m ∧ ¬ b.Collides fields ∧ Settled r.2
  | [], b, m, hm, h => by
    cases h
    exact ⟨rfl, not_false, hm⟩
  | (off, T) :: rest, b, m, hm, h => by
    rw [dfsFields] at h
    obtain ⟨b₁, hpad, h⟩ := bind_eq_some.mp h
    obtain ⟨hoff, hpad⟩ := guard_bind_eq_some.mp hpad
    cases hpad
    obtain ⟨rT, hT, h⟩ := bind_eq_some.mp h
    obtain ⟨rfl, hnoT, hmT⟩ := dfsTypeTree_some T m hm hT
    obtain ⟨b₂, hset, h⟩ := bind_eq_some.mp h
    obtain ⟨rfl, hnew⟩ := setElementLayout_some hset
    obtain ⟨rfl, hno, hmr⟩ := dfsFields_some rest _ _ hmT h
    rw [MemLayoutManager.dfsFields, Building.collides_cons hoff, not_or, not_or]
    rw [(hm.1.dfsTypeTree T).1] at hno
    exact ⟨rfl, ⟨hnoT, fun h => hnew h.1 h.2, hno⟩, hmr⟩

end

/-- the table after some calls -/
def afterCalls (Ts : List IRType) : Option MemLayoutManager :=
  Ts.foldlM (fun m T => (getLayoutForType m T).map Prod.snd) MemLayoutManager.empty

theorem settled_afterCalls {Ts : List IRType} {m : MemLayoutManager} (h : afterCalls Ts = some m) :
    m = MemLayoutManager.afterCalls Ts ∧ Settled m := by
  have hrun : ∀ m₀ : MemLayoutManager, Settled m₀ →
      Ts.foldlM (fun m T => (getLayoutForType m T).map Prod.snd) m₀ = some m →
      m = Ts.foldl (fun m T => (m.getLayoutForType T).2) m₀ ∧ Settled m := by
    clear h
    induction Ts with
    | nil =>
      intro m₀ hm₀ h
      cases h
      exact ⟨rfl, hm₀⟩
    | cons T Ts ih =>
      intro m₀ hm₀ h
      obtain ⟨m₁, h₁, h⟩ := Option.bind_eq_some_iff.mp h
      obtain ⟨r, hr, rfl⟩ := Option.map_eq_some_iff.mp h₁
      obtain ⟨-, hr⟩ := guard_bind_eq_some.mp hr
      obtain ⟨rfl, -, hsettled⟩ := dfsTypeTree_some T m₀ hm₀ hr
      exact ih _ hsettled h
  exact hrun _ ⟨.empty, fun x hx => absurd hx List.not_mem_nil⟩ h

end Debug

/-- a layout that the code can store is built -/
theorem IRType.SizedBlock.not_collides {T : IRType} (hT : SizedBlock T) (h : T.Narrow) : ¬ T.Collides := by
  have hroom : ∀ l ∈ (layoutOf T).elementLayout, l < 2 ^ 32 := by
    intro l hl
    have := h l (Finset.mem_union_left _ hl)
    omega
  cases hT with
  | bounded _ hT => exact hT.not_collides hroom
  | unbounded he =>
    rw [layoutOf_array_elementLayout] at hroom
    exact he.not_collides hroom

/-- After any layouts that a debug build has built, no assertion of the layout code fails and nothing is
divided by zero while the layout of the type is built and a block of it, after any queries, is asked for
an offset, and the results are those of the plain code, exactly when no bit is set twice, the layout can
be cached unless the offset is 0, and the loop is not stuck. -/
theorem getObjectAt_total_iff {T : IRType} (hT : SizedBlock T) (Ts : List IRType) {m : MemLayoutManager}
    (hm : Debug.afterCalls Ts = some m) (p : Nat) :
    (Debug.getLayoutForType m T = some (m.getLayoutForType T) ∧
      ∀ qs b, blockAfter Ts T qs = some b →
        ∃ x, Debug.getObjectAt b p = some x ∧ b.indexMemoryBlock p = some x) ↔
      ¬ T.Collides ∧ (p = 0 ∨ (layoutOf T).Cacheable) ∧ ¬ (p < blockSize T ∧ Stuck T p) := by
  obtain ⟨rfl, hsettled⟩ := Debug.settled_afterCalls hm
  constructor
  · rintro ⟨hlayout, hget⟩
    obtain ⟨-, hdfs⟩ := Debug.guard_bind_eq_some.mp hlayout
    obtain ⟨-, hno, -⟩ := Debug.dfsTypeTree_some T _ hsettled hdfs
    exact ⟨hno, (Debug.getObjectAt_eq hT (MemLayoutManager.getLayoutForType_eq Ts T) p).mp (hget [] _ rfl)⟩
  · rintro ⟨hno, h⟩
    exact ⟨Debug.getLayoutForType_eq hT hno hsettled.1, fun qs b hb =>
      (Debug.getObjectAt_eq hT (blockAfter_layout hb) p).mpr h⟩

/-! ### an array of empty structures -/

/-- `{ i64, [4 x {}], i8*, i8* }` -/
def emptiesStruct : IRType :=
  struct 0 [(0, scalar 8), (8, array 4 (struct 1 [] 0)), (8, pointer 8), (16, pointer 8)] 24

theorem sizedBlock_emptiesStruct : SizedBlock emptiesStruct := by
  refine .bounded rfl (.struct (by decide) (by decide) (by decide) fun f hf => ?_)
  rcases List.mem_cons.mp hf with rfl | hf
  · exact .scalar (by decide) (by decide)
  · rcases List.mem_cons.mp hf with rfl | hf
    · exact .array (by decide) (by decide)
        (.struct (Nat.le_refl 0) rfl (by decide) fun g hg => absurd hg List.not_mem_nil)
    · rcases List.mem_pair.mp hf with rfl | rfl <;> exact .pointer (by decide) (by decide)

/-- the pointer at 8 has an object: the array starts there, so the loop does not pass it -/
theorem getObjectAt_total_emptiesStruct : ∃ b x, blockAfter [] emptiesStruct [.object 0] = some b ∧
    Debug.getObjectAt b 8 = some x ∧ b.indexMemoryBlock 8 = some x := by
  have hnarrow : emptiesStruct.Narrow := by decide +kernel
  obtain ⟨b, hb⟩ := blockAfter_isSome hnarrow [] [.object 0]
  have htotal := (getObjectAt_total_iff sizedBlock_emptiesStruct [] rfl 8).mpr
    ⟨sizedBlock_emptiesStruct.not_collides hnarrow, .inr hnarrow.cacheable, ?_⟩
  · obtain ⟨x, hx⟩ := htotal.2 [.object 0] b hb
    exact ⟨b, x, hb, hx⟩
  rintro ⟨-, hs⟩
  have hkey : ∀ x ∈ taken none (topArrays emptiesStruct), x.1 = 8 := by decide
  cases hs with
  | pass hx hlt _ => exact absurd (hkey _ hx) hlt.ne
  | divide hx hlt _ _ => exact absurd (hkey _ hx) hlt.ne
  | inside hx hlt _ _ => exact absurd (hkey _ hx) hlt.ne

/-- the pointer at 16 is behind the array, which has no layout size -/
theorem getObjectAt_passesEmpties : SizedBlock emptiesStruct ∧
    ((Debug.getLayoutForType (MemLayoutManager.afterCalls []) emptiesStruct).bind fun r =>
      Debug.getObjectAt (AggregateMemBlock.new r.1) 16).isNone = true :=
  ⟨sizedBlock_emptiesStruct, by decide +kernel⟩

end AserPTA
