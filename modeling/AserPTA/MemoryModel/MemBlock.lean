import AserPTA.MemoryModel.Indexing

/-!
# Memory blocks

An aggregate block makes the object of an element when it is first asked for, and keeps it.  An object
is known by its place in `fieldObjs`: what stands there is not replaced.

* `FieldObj`, `AggregateMemBlock`, `MemBlock`   the source's `FSObject` and its blocks;
* `lookup`, `lookupPtr`   the object at a physical offset;
* `indexObject`                                 the object that a GEP makes of one;
* `Placed`, `Placed.query`                      the objects a block has made, kept by every query;
* `Objects.index`, `Objects.not_leaf`           what a query gives in a layout that the code can store;
* `indexMemoryBlock_canonical`                  after any calls and any queries.
-/

namespace AserPTA
open IRType

/-- an `FSObject`, without the block that it belongs to -/
structure FieldObj where
  pOffset : Nat
  lOffset : Nat
  deriving DecidableEq

structure AggregateMemBlock where
  layout : MemLayout
  fieldObjs : List (Option FieldObj)

namespace AggregateMemBlock

/-- `AggregateMemBlock(layout)`; a block without elements has one object all the same -/
def new (layout : MemLayout) : AggregateMemBlock where
  layout := layout
  fieldObjs := (List.replicate
    (if layout.getNumIndexableElem = 0 then 1 else layout.getNumIndexableElem) none).set 0
      (some ⟨0, 0⟩)

variable (b : AggregateMemBlock)

/-- the object in `fieldObjs[fieldNum]`, made if there is none yet -/
def objectIn (fieldNum : Nat) (pOffset lOffset : Nat) : AggregateMemBlock :=
  if b.fieldObjs[fieldNum]? = some none then
    { b with fieldObjs := b.fieldObjs.set fieldNum (some ⟨pOffset, lOffset⟩) }
  else b

/-- The place of the object, `none` for the null pointer.  The outer `none` is the abort of
`getLogicalOffset`. -/
def indexMemoryBlock (pOffset : Nat) : Option (Option Nat × AggregateMemBlock) :=
  if pOffset = 0 then some (some 0, b)
  else do
    let r := b.layout.indexPhysicalOffset pOffset
    match ← b.layout.getLogicalOffset r.1 with
    | some fieldNum => return (some fieldNum, b.objectIn fieldNum r.2 r.1)
    | none => return (none, b)

def indexPtrInMemoryBlock (pOffset : Nat) : Option (Option Nat × AggregateMemBlock) :=
  if pOffset = 0 then some (some 0, b)
  else do
    let r := b.layout.indexPhysicalOffset pOffset
    match ← b.layout.getLogicalOffset r.1 with
    | some fieldNum =>
      return if b.layout.offsetIsPtr r.1 then (some fieldNum, b.objectIn fieldNum r.2 r.1) else (none, b)
    | none => return (none, b)

def validateStepSize (pOffset stepSize : Nat) : Bool :=
  isArrayExistAtOffset b.layout.subArrays pOffset stepSize

/-- the object at a place -/
def object (fieldNum : Nat) : Option FieldObj := b.fieldObjs[fieldNum]?.join

/-- `indexMemoryBlock` of a layout that the code can store -/
def lookup (pOffset : Nat) : Option Nat × AggregateMemBlock :=
  if pOffset = 0 then (some 0, b)
  else
    let r := b.layout.indexPhysicalOffset pOffset
    match b.layout.elementNumber r.1 with
    | some fieldNum => (some fieldNum, b.objectIn fieldNum r.2 r.1)
    | none => (none, b)

def lookupPtr (pOffset : Nat) : Option Nat × AggregateMemBlock :=
  if pOffset = 0 then (some 0, b)
  else
    let r := b.layout.indexPhysicalOffset pOffset
    match b.layout.elementNumber r.1 with
    | some fieldNum =>
      if r.1 ∈ b.layout.pointerLayout then (some fieldNum, b.objectIn fieldNum r.2 r.1) else (none, b)
    | none => (none, b)

end AggregateMemBlock

/-! ## blocks of every kind -/

inductive MemBlock
  | aggregate (block : AggregateMemBlock)
  -- a block with unknown type
  | fiBlock (object : FieldObj)
  | scalar (object : FieldObj)

namespace MemBlock

def getObjectAt : MemBlock → Nat → Option (Option Nat × MemBlock)
  | aggregate b, offset => (b.indexMemoryBlock offset).map fun r => (r.1, aggregate r.2)
  | fiBlock o, _ => some (some 0, fiBlock o)
  | scalar o, offset => some (if offset = 0 then some 0 else none, scalar o)

def getPtrObjectAt : MemBlock → Nat → Option (Option Nat × MemBlock)
  | aggregate b, offset => (b.indexPtrInMemoryBlock offset).map fun r => (r.1, aggregate r.2)
  | fiBlock o, _ => some (some 0, fiBlock o)
  | scalar o, offset => some (if offset = 0 then some 0 else none, scalar o)

def validateStepSize : MemBlock → Nat → Nat → Bool
  | aggregate b, pOffset, stepSize => b.validateStepSize pOffset stepSize
  | fiBlock _, _, _ => true
  | scalar _, _, _ => false

/-- the object at a place; the blocks of the other kinds have one -/
def object : MemBlock → Nat → Option FieldObj
  | aggregate b, fieldNum => b.object fieldNum
  | fiBlock o, fieldNum => if fieldNum = 0 then some o else none
  | scalar o, fieldNum => if fieldNum = 0 then some o else none

/-- what a GEP adds: a constant offset, or a variable index with its step size -/
inductive GepIndex
  | const (offset : Int)
  | var (stepSize : Nat)

/-- `getObjIndexedByVar` of the object at a place -/
def getObjIndexedByVar (b : MemBlock) (fieldNum : Nat) (stepSize : Nat) : Option Nat :=
  match b.object fieldNum with
  | some obj => if b.validateStepSize obj.pOffset stepSize then some fieldNum else none
  | none => none

/-- `indexObject` on the object at a place; the sum is one of `size_t` -/
def indexObject (b : MemBlock) (fieldNum : Nat) : GepIndex → Option (Option Nat × MemBlock)
  | .const offset =>
    match b.object fieldNum with
    | some obj => b.getObjectAt ((obj.pOffset + offset) % 2 ^ 64).toNat
    | none => some (none, b)
  | .var stepSize => some (b.getObjIndexedByVar fieldNum stepSize, b)

/-- every block has an object at offset 0 -/
theorem getObjectAt_zero (b : MemBlock) : b.getObjectAt 0 = some (some 0, b) := by
  cases b with
  | aggregate b => rw [getObjectAt, AggregateMemBlock.indexMemoryBlock, if_pos rfl]; rfl
  | fiBlock o => rfl
  | scalar o => rfl

/-- the block can be asked for an offset: behind 0 an aggregate looks up its cached layout -/
def Askable : MemBlock → Nat → Prop
  | aggregate b, offset => offset = 0 ∨ b.layout.Cacheable
  | fiBlock _, _ => True
  | scalar _, _ => True

theorem getObjectAt_isSome (b : MemBlock) {offset : Nat} :
    (b.getObjectAt offset).isSome ↔ b.Askable offset := by
  cases b with
  | aggregate b =>
    rw [getObjectAt, Option.isSome_map, AggregateMemBlock.indexMemoryBlock, Askable]
    by_cases h0 : offset = 0
    · rw [if_pos h0]
      exact iff_of_true rfl (.inl h0)
    · rw [if_neg h0, or_iff_right h0]
      dsimp only
      rw [← b.layout.getLogicalOffset_isSome (b.layout.indexPhysicalOffset offset).1]
      cases b.layout.getLogicalOffset (b.layout.indexPhysicalOffset offset).1 with
      | none => exact Iff.rfl
      | some f => cases f <;> exact Iff.rfl
  | fiBlock o => exact iff_of_true rfl trivial
  | scalar o => exact iff_of_true rfl trivial

end MemBlock

/-- what asks a block for an object -/
inductive Query
  | object (pOffset : Nat)
  | ptrObject (pOffset : Nat)

namespace AggregateMemBlock

/-- the block after the query -/
def query (b : AggregateMemBlock) : Query → Option AggregateMemBlock
  | .object p => (b.indexMemoryBlock p).map Prod.snd
  | .ptrObject p => (b.indexPtrInMemoryBlock p).map Prod.snd

/-- of a layout that the code can store -/
def asked (b : AggregateMemBlock) : Query → AggregateMemBlock
  | .object p => (b.lookup p).2
  | .ptrObject p => (b.lookupPtr p).2

variable {b b' : AggregateMemBlock}

theorem objectIn_layout (b : AggregateMemBlock) (f p l : Nat) : (b.objectIn f p l).layout = b.layout := by
  rw [objectIn]
  split <;> rfl

theorem indexMemoryBlock_eq (h : b.layout.Narrow) (pOffset : Nat) :
    b.indexMemoryBlock pOffset = some (b.lookup pOffset) := by
  rw [indexMemoryBlock, lookup]
  split
  · rfl
  · dsimp only
    rw [h.getLogicalOffset_eq, Option.bind_eq_bind, Option.bind_some]
    split <;> rfl

theorem indexPtrInMemoryBlock_eq (h : b.layout.Narrow) (pOffset : Nat) :
    b.indexPtrInMemoryBlock pOffset = some (b.lookupPtr pOffset) := by
  rw [indexPtrInMemoryBlock, lookupPtr]
  split
  · rfl
  · dsimp only
    rw [h.getLogicalOffset_eq, Option.bind_eq_bind, Option.bind_some]
    cases hn : b.layout.elementNumber (b.layout.indexPhysicalOffset pOffset).1 with
    | none => rfl
    | some f =>
      have hmem : (b.layout.indexPhysicalOffset pOffset).1 ∈ b.layout.elementLayout := by
        by_contra hno
        rw [MemLayout.elementNumber, MemLayout.numberIn, if_neg hno] at hn
        cases hn
      rw [h.offsetIsPtr_eq hmem]
      exact congrArg some (if_congr decide_eq_true_iff rfl rfl)

theorem query_eq (h : b.layout.Narrow) (q : Query) : b.query q = some (b.asked q) := by
  cases q with
  | object p => rw [query, indexMemoryBlock_eq h]; rfl
  | ptrObject p => rw [query, indexPtrInMemoryBlock_eq h]; rfl

/-- a query makes an object at most, in the place of its layout offset -/
theorem query_cases {q : Query} (h : b.query q = some b') : b' = b ∨ ∃ f p,
    b.layout.bitNumber (b.layout.indexPhysicalOffset p).1 = some f ∧
    b' = b.objectIn f (b.layout.indexPhysicalOffset p).2 (b.layout.indexPhysicalOffset p).1 := by
  cases q with
  | object p =>
    obtain ⟨r, hr, rfl⟩ := Option.map_eq_some_iff.mp h
    unfold indexMemoryBlock at hr
    split at hr
    · cases hr
      exact .inl rfl
    · obtain ⟨f?, hf, hr⟩ := Option.bind_eq_some_iff.mp hr
      split at hr <;> cases hr
      · exact .inr ⟨_, p, (b.layout.getLogicalOffset_eq_some.mp hf).2, rfl⟩
      · exact .inl rfl
  | ptrObject p =>
    obtain ⟨r, hr, rfl⟩ := Option.map_eq_some_iff.mp h
    unfold indexPtrInMemoryBlock at hr
    split at hr
    · cases hr
      exact .inl rfl
    · obtain ⟨f?, hf, hr⟩ := Option.bind_eq_some_iff.mp hr
      split at hr <;> cases hr
      · split
        · exact .inr ⟨_, p, (b.layout.getLogicalOffset_eq_some.mp hf).2, rfl⟩
        · exact .inl rfl
      · exact .inl rfl

/-- what every new object keeps is kept by queries -/
theorem queries_inv {I : AggregateMemBlock → Prop} (hI : ∀ b f p l, I b → I (b.objectIn f p l))
    {qs : List Query} (hb : I b) (h : qs.foldlM query b = some b') : I b' := by
  induction qs generalizing b with
  | nil =>
    cases h
    exact hb
  | cons q qs ih =>
    obtain ⟨c, hc, h⟩ := Option.bind_eq_some_iff.mp h
    refine ih ?_ h
    rcases query_cases hc with rfl | ⟨f, p, -, rfl⟩
    · exact hb
    · exact hI _ _ _ _ hb

theorem queries_layout {qs : List Query} (h : qs.foldlM query b = some b') : b'.layout = b.layout :=
  queries_inv (I := fun c => c.layout = b.layout) (fun c f p l hc => (objectIn_layout c f p l).trans hc)
    rfl h

theorem asked_layout (b : AggregateMemBlock) (q : Query) (h : b.layout.Narrow) :
    (b.asked q).layout = b.layout := by
  have hquery : [q].foldlM query b = some (b.asked q) := by
    rw [List.foldlM_cons, query_eq h]
    rfl
  exact queries_layout hquery

theorem queries_eq (h : b.layout.Narrow) (qs : List Query) :
    qs.foldlM query b = some (qs.foldl asked b) := by
  induction qs generalizing b with
  | nil => rfl
  | cons q qs ih =>
    rw [List.foldlM_cons, query_eq h]
    exact ih ((asked_layout b q h).symm ▸ h)

/-- where a bit is too large for an `int` only the object at offset 0 can be asked for -/
theorem indexMemoryBlock_eq_none {l : Nat} (hl : l ∈ b.layout.elementLayout)
    (hbig : 2 ^ 31 ≤ l % 2 ^ 32 + 1) {pOffset : Nat} (h0 : pOffset ≠ 0) :
    b.indexMemoryBlock pOffset = none := by
  rw [indexMemoryBlock, if_neg h0]
  dsimp only
  rw [b.layout.getLogicalOffset_eq_none hl hbig]
  rfl

end AggregateMemBlock

/-- a block of the type, after any layouts and any queries -/
def blockAfter (Ts : List IRType) (T : IRType) (qs : List Query) : Option AggregateMemBlock :=
  qs.foldlM AggregateMemBlock.query
    (AggregateMemBlock.new ((MemLayoutManager.afterCalls Ts).getLayoutForType T).1)

theorem blockAfter_layout {Ts : List IRType} {T : IRType} {qs : List Query} {b : AggregateMemBlock}
    (h : blockAfter Ts T qs = some b) : b.layout = layoutOf T :=
  (AggregateMemBlock.queries_layout h).trans (MemLayoutManager.getLayoutForType_eq Ts T)

/-- the code can store the layout of the type -/
def IRType.Narrow (T : IRType) : Prop := (layoutOf T).Narrow

instance (T : IRType) : Decidable T.Narrow := inferInstanceAs (Decidable (layoutOf T).Narrow)

theorem blockAfter_isSome {T : IRType} (h : T.Narrow) (Ts : List IRType) (qs : List Query) :
    ∃ b, blockAfter Ts T qs = some b := by
  refine ⟨_, AggregateMemBlock.queries_eq ?_ qs⟩
  show MemLayout.Narrow (MemLayoutManager.getLayoutForType _ T).1
  rw [MemLayoutManager.getLayoutForType_eq]
  exact h

/-- what such a block gives for an offset -/
def objectAfter (Ts : List IRType) (T : IRType) (qs : List Query) (pOffset : Nat) :
    Option (Option Nat) := do
  let b ← blockAfter Ts T qs
  let r ← b.indexMemoryBlock pOffset
  return r.1

theorem objectAfter_eq {T : IRType} (h : T.Narrow) (Ts : List IRType) (qs : List Query) :
    ∃ b : AggregateMemBlock, b.layout = layoutOf T ∧
      ∀ p, objectAfter Ts T qs p = some (b.lookup p).1 := by
  obtain ⟨b, hb⟩ := blockAfter_isSome h Ts qs
  refine ⟨b, blockAfter_layout hb, fun p => ?_⟩
  rw [objectAfter, hb, Option.bind_eq_bind, Option.bind_some,
    AggregateMemBlock.indexMemoryBlock_eq ((blockAfter_layout hb).symm ▸ h)]
  rfl

/-! ## logical offsets -/

namespace MemLayout

section
variable {offsets : Finset Nat} {l l' f : Nat}

theorem numberIn_isSome : (numberIn offsets l).isSome ↔ l ∈ offsets := by
  rw [numberIn]
  split
  · next h => exact iff_of_true rfl h
  · next h => exact iff_of_false Bool.false_ne_true h

theorem numberIn_eq_some :
    numberIn offsets l = some f ↔ l ∈ offsets ∧ (offsets.filter (· < l)).card = f := by
  rw [numberIn]
  split
  · next h => rw [Option.some.injEq, and_iff_right h]
  · next h => exact iff_of_false (by exact nofun) fun h' => h h'.1

/-- the number of an offset is below the number of offsets -/
theorem numberIn_lt (h : numberIn offsets l = some f) : f < offsets.card := by
  obtain ⟨hmem, rfl⟩ := numberIn_eq_some.mp h
  refine Finset.card_lt_card (Finset.filter_ssubset.mpr ⟨l, hmem, lt_irrefl l⟩)

/-- different offsets have different numbers -/
theorem numberIn_inj (h : numberIn offsets l = some f) (h' : numberIn offsets l' = some f) : l = l' := by
  have hlt : ∀ {l l' : Nat}, l ∈ offsets → l < l' →
      (offsets.filter (· < l)).card < (offsets.filter (· < l')).card := by
    intro l l' hmem hll
    refine Finset.card_lt_card (Finset.ssubset_iff_subset_ne.mpr ⟨?_, fun heq => ?_⟩)
    · intro x hx
      rw [Finset.mem_filter] at hx ⊢
      exact ⟨hx.1, hx.2.trans hll⟩
    · have hin : l ∈ offsets.filter (· < l') := Finset.mem_filter.mpr ⟨hmem, hll⟩
      rw [← heq] at hin
      exact lt_irrefl l (Finset.mem_filter.mp hin).2
  obtain ⟨hmem, hcard⟩ := numberIn_eq_some.mp h
  obtain ⟨hmem', hcard'⟩ := numberIn_eq_some.mp h'
  rcases Nat.lt_trichotomy l l' with hll | hll | hll
  · have := hlt hmem hll
    omega
  · exact hll
  · have := hlt hmem' hll
    omega

variable {L : MemLayout}

theorem elementNumber_isSome : (L.elementNumber l).isSome ↔ l ∈ L.elementLayout := numberIn_isSome

theorem elementNumber_eq_some : L.elementNumber l = some f ↔
    l ∈ L.elementLayout ∧ (L.elementLayout.filter (· < l)).card = f := numberIn_eq_some

theorem elementNumber_inj (h : L.elementNumber l = some f) (h' : L.elementNumber l' = some f) :
    l = l' := numberIn_inj h h'

/-- 0 is the first one -/
theorem numberIn_zero (h : 0 ∈ offsets) : numberIn offsets 0 = some 0 := by
  refine numberIn_eq_some.mpr ⟨h, ?_⟩
  rw [Finset.card_eq_zero, Finset.filter_eq_empty_iff]
  exact fun x _ => Nat.not_lt_zero x

end

end MemLayout

/-! ## the objects of a block -/

/-- the objects that a block of the type has made, each in the place that its layout offset has among the
bits of the layout; the first one is made with the block -/
structure Placed (T : IRType) (b : AggregateMemBlock) : Prop where
  layout : b.layout = layoutOf T
  length : (MemLayout.setBits (layoutOf T).elementLayout).card ≤ b.fieldObjs.length
  first : b.object 0 = some ⟨0, 0⟩
  place : ∀ f o, b.object f = some o →
    (∃ q, (layoutOf T).indexPhysicalOffset q = (o.lOffset, o.pOffset)) ∧
    (layoutOf T).bitNumber o.lOffset = some f

/-- in a layout that the code can store, they are those of leaves -/
structure Objects (T : IRType) (b : AggregateMemBlock) : Prop extends Placed T b where
  narrow : T.Narrow

namespace Objects

variable {T : IRType} {b : AggregateMemBlock}

/-- offset 0 is indexed as 0 -/
theorem index_zero (hT : BlockOk T) : (layoutOf T).indexPhysicalOffset 0 = (0, 0) := by
  have hzero : ∀ A, indexBetweenArrays A 0 = (0, 0) := by
    intro A
    cases A with
    | nil => rfl
    | cons x rest => rw [indexBetweenArrays, indexBetweenArraysFrom, if_pos (Nat.zero_le x.1)]
  have hpos : ∀ A hi, Fits 0 A hi → A ≠ [] → 0 < hi := by
    intro A hi hA hne
    obtain ⟨x, rest, rfl⟩ := List.exists_cons_of_ne_nil hne
    exact Nat.zero_lt_of_lt (hA.key_lt List.mem_cons_self).2
  rw [MemLayout.indexPhysicalOffset]
  split
  · rfl
  · next hne =>
    cases hT with
    | bounded hagg h =>
      have h0 := hpos _ _ h.indexed.fits hne
      rw [if_neg (by rw [h.maxPOffset hagg]; omega)]
      exact hzero _
    | unbounded hs he =>
      rw [layoutOf_unbounded_maxPOffset, if_neg (by decide)]
      exact hzero _

/-- the leaf at offset 0 is element 0 -/
theorem slot_zero (hT : BlockOk T) {π : List Step} {c l : Nat} (h : Slot T π 0 c l) :
    c = 0 ∧ l = 0 := by
  have heq := (hT.index_slot h (by decide)).1
  rw [index_zero hT] at heq
  obtain ⟨h1, h2⟩ := Prod.ext_iff.mp heq
  exact ⟨h2.symm, h1.symm⟩

theorem elementNumber_zero (hT : BlockOk T) (h0 : ∃ π, Leaf T π 0) :
    (layoutOf T).elementNumber 0 = some 0 := by
  obtain ⟨π, hπ⟩ := h0
  obtain ⟨c, l, hslot⟩ := hπ.slot
  obtain ⟨rfl, rfl⟩ := slot_zero hT hslot
  exact MemLayout.numberIn_zero (hT.index_slot hslot (by decide)).2

theorem object_new (L : MemLayout) (f : Nat) :
    (AggregateMemBlock.new L).object f = if f = 0 then some ⟨0, 0⟩ else none := by
  have h : ∀ n, 0 < n → ((List.replicate n none).set 0 (some (FieldObj.mk 0 0)))[f]?.join =
      if f = 0 then some ⟨0, 0⟩ else none := by
    intro n hn
    rw [List.getElem?_set, List.length_replicate]
    by_cases hf : f = 0
    · rw [if_pos hf.symm, if_pos hn, if_pos hf]
      rfl
    · rw [if_neg (Ne.symm hf), if_neg hf, List.getElem?_replicate]
      split <;> rfl
  exact h _ (by split <;> omega)

/-- an object is kept when another one is made -/
theorem object_objectIn {f g p l : Nat} {o : FieldObj} (h : b.object g = some o) :
    (b.objectIn f p l).object g = some o := by
  rw [AggregateMemBlock.objectIn]
  split
  · next hnone =>
    rw [AggregateMemBlock.object] at h ⊢
    have hne : f ≠ g := by
      rintro rfl
      rw [hnone] at h
      cases h
    dsimp only
    rw [List.getElem?_set_ne hne]
    exact h
  · exact h

end Objects

namespace Placed

variable {T : IRType} {b b' : AggregateMemBlock} {f p c l : Nat} {π : List Step}

/-- the leaf at offset 0 has the first bit -/
theorem first_bit (hT : BlockOk T) (h0 : ∃ π, Leaf T π 0) :
    (layoutOf T).bitNumber 0 = some 0 := by
  obtain ⟨π, hπ⟩ := h0
  obtain ⟨c, l, hslot⟩ := hπ.slot
  obtain ⟨rfl, rfl⟩ := Objects.slot_zero hT hslot
  exact MemLayout.numberIn_zero
    (Finset.mem_image.mpr ⟨0, (hT.index_slot hslot (by decide)).2, rfl⟩)

theorem new (hT : BlockOk T) (h0 : ∃ π, Leaf T π 0) : Placed T (AggregateMemBlock.new (layoutOf T)) where
  layout := rfl
  length := by
    rw [AggregateMemBlock.new, MemLayout.getNumIndexableElem]
    dsimp only
    rw [List.length_set, List.length_replicate]
    split <;> omega
  first := by rw [Objects.object_new, if_pos rfl]
  place f o h := by
    rw [Objects.object_new] at h
    split at h
    · next hf =>
      subst hf
      obtain rfl : FieldObj.mk 0 0 = o := Option.some.inj h
      exact ⟨⟨0, Objects.index_zero hT⟩, first_bit hT h0⟩
    · cases h

theorem objectIn (hb : Placed T b) {q : Nat} (hq : (layoutOf T).indexPhysicalOffset q = (l, c))
    (hf : (layoutOf T).bitNumber l = some f) :
    Placed T (b.objectIn f c l) where
  layout := (b.objectIn_layout f c l).trans hb.layout
  length := by
    rw [AggregateMemBlock.objectIn]
    split
    · dsimp only
      rw [List.length_set]
      exact hb.length
    · exact hb.length
  first := Objects.object_objectIn hb.first
  place g o h := by
    rw [AggregateMemBlock.objectIn] at h
    split at h
    · rw [AggregateMemBlock.object] at h
      dsimp only at h
      rw [List.getElem?_set] at h
      split at h
      · next hfg =>
        subst hfg
        split at h
        · obtain rfl : FieldObj.mk c l = o := Option.some.inj h
          exact ⟨⟨q, hq⟩, hf⟩
        · cases h
      · exact hb.place g o h
    · exact hb.place g o h

/-- queries keep the invariant -/
theorem query (hb : Placed T b) {q : Query} (h : b.query q = some b') : Placed T b' := by
  rcases AggregateMemBlock.query_cases h with rfl | ⟨f, p, hf, rfl⟩
  · exact hb
  · rw [hb.layout] at hf ⊢
    exact hb.objectIn rfl hf

theorem queries (hb : Placed T b) {qs : List Query}
    (h : qs.foldlM AggregateMemBlock.query b = some b') : Placed T b' := by
  induction qs generalizing b with
  | nil =>
    cases h
    exact hb
  | cons q qs ih =>
    obtain ⟨c, hc, h⟩ := Option.bind_eq_some_iff.mp h
    exact ih (hb.query hc) h

/-- a block of the layout that the manager has, after any layouts and any queries -/
theorem blockAfter (hT : BlockOk T) (h0 : ∃ π, Leaf T π 0) {Ts : List IRType} {qs : List Query}
    (h : blockAfter Ts T qs = some b) : Placed T b := by
  rw [AserPTA.blockAfter, MemLayoutManager.getLayoutForType_eq] at h
  exact (new hT h0).queries h

/-- an object with the layout offset of a leaf has the offset of the leaf of the first elements -/
theorem offset_of_slot (hb : Placed T b) (hT : BlockOk T) (hslot : Slot T π p c l)
    (hmem : l ∈ (layoutOf T).elementLayout) {o : FieldObj} (ho : b.object f = some o)
    (hl : o.lOffset = l) : o = ⟨c, l⟩ := by
  obtain ⟨⟨q, hq⟩, -⟩ := hb.place f o ho
  obtain ⟨oc, ol⟩ := o
  obtain rfl : ol = l := hl
  obtain ⟨ρ, hρ⟩ := hT.slot_of_element (p := q) (by rw [hq]; exact hmem)
  rw [hq] at hρ
  obtain ⟨rfl, -⟩ := hslot.unique_zeroed hρ (hT.inj hslot hρ)
  rfl

/-- the object of an element is the one of the leaf of the first elements -/
theorem object_in_place (hb : Placed T b) (hT : BlockOk T) (hslot : Slot T π p c l)
    (hmem : l ∈ (layoutOf T).elementLayout) (hf : (layoutOf T).bitNumber l = some f) :
    (b.objectIn f c l).object f = some ⟨c, l⟩ := by
  have hlen := (MemLayout.numberIn_lt hf).trans_le hb.length
  rw [AggregateMemBlock.objectIn]
  split
  · rw [AggregateMemBlock.object]
    dsimp only
    rw [List.getElem?_set_self hlen]
    rfl
  · next hnone =>
    cases hobj : b.fieldObjs[f] with
    | none => exact absurd (by rw [List.getElem?_eq_getElem hlen, hobj]) hnone
    | some o =>
      have hobject : b.object f = some o := by
        rw [AggregateMemBlock.object, List.getElem?_eq_getElem hlen, hobj]
        rfl
      rw [hobject, hb.offset_of_slot hT hslot hmem hobject
        (MemLayout.numberIn_inj (hb.place f o hobject).2 hf)]

/-- what an offset gives when the layout can be cached -/
theorem getObjectAt (hb : Placed T b) (hT : BlockOk T) (h0 : ∃ π, Leaf T π 0)
    (hc : (layoutOf T).Cacheable) (p : Nat) : ∃ b', (MemBlock.aggregate b).getObjectAt p =
        some ((layoutOf T).bitNumber ((layoutOf T).indexPhysicalOffset p).1, .aggregate b') ∧
      Placed T b' ∧ ∀ π c l f, Slot T π p c l → p < sizeMax → (layoutOf T).bitNumber l = some f →
        b'.object f = some ⟨c, l⟩ := by
  rw [MemBlock.getObjectAt, AggregateMemBlock.indexMemoryBlock]
  by_cases hzero : p = 0
  · subst hzero
    refine ⟨b, ?_, hb, fun π c l f hs _ hf => ?_⟩
    · rw [if_pos rfl, Objects.index_zero hT, first_bit hT h0]
      rfl
    · obtain ⟨rfl, rfl⟩ := Objects.slot_zero hT hs
      obtain rfl := Option.some.inj ((first_bit hT h0).symm.trans hf)
      exact hb.first
  · rw [if_neg hzero]
    dsimp only
    rw [hb.layout, hc.getLogicalOffset_eq, Option.bind_eq_bind, Option.bind_some]
    cases hf : (layoutOf T).bitNumber ((layoutOf T).indexPhysicalOffset p).1 with
    | none =>
      refine ⟨b, rfl, hb, fun π c l f hs hp hl => ?_⟩
      rw [(hT.index_slot hs hp).1, hl] at hf
      cases hf
    | some f =>
      refine ⟨_, rfl, hb.objectIn rfl hf, fun π c l g hs hp hl => ?_⟩
      rw [(hT.index_slot hs hp).1] at hf ⊢
      obtain rfl := Option.some.inj (hf.symm.trans hl)
      exact hb.object_in_place hT hs (hT.index_slot hs hp).2 hl

end Placed

namespace Objects

variable {T : IRType} {b : AggregateMemBlock}

theorem new (hT : BlockOk T) (h0 : ∃ π, Leaf T π 0) (hnarrow : T.Narrow) :
    Objects T (AggregateMemBlock.new (layoutOf T)) := ⟨.new hT h0, hnarrow⟩

theorem canonical (hb : Objects T b) (hT : BlockOk T) (f : Nat) (o : FieldObj)
    (h : b.object f = some o) : (∃ π, Slot T π o.pOffset o.pOffset o.lOffset) ∧
      (layoutOf T).elementNumber o.lOffset = some f := by
  obtain ⟨⟨q, hq⟩, hf⟩ := hb.place f o h
  rw [hb.narrow.bitNumber_eq] at hf
  obtain ⟨π, hπ⟩ := hT.slot_of_element (p := q) (by rw [hq]; exact (MemLayout.numberIn_eq_some.mp hf).1)
  rw [hq] at hπ
  exact ⟨⟨_, hπ.leaf_zeroed⟩, hf⟩

/-- the object of an element is the one of the leaf of the first elements -/
theorem object_in_place (hb : Objects T b) (hT : BlockOk T) {π : List Step} {p c l f : Nat}
    (hslot : Slot T π p c l) (hf : (layoutOf T).elementNumber l = some f) :
    (b.objectIn f c l).object f = some ⟨c, l⟩ := by
  refine hb.toPlaced.object_in_place hT hslot (MemLayout.elementNumber_eq_some.mp hf).1 ?_
  rw [hb.narrow.bitNumber_eq]
  exact hf

/-- the offset of a leaf gives the object of the leaf of the first elements -/
theorem index (hb : Objects T b) (hT : BlockOk T) {π : List Step} {p c l : Nat}
    (hslot : Slot T π p c l) (hp : p < sizeMax) :
    ∃ f, (layoutOf T).elementNumber l = some f ∧ (b.lookup p).1 = some f ∧
      (b.lookup p).2.object f = some ⟨c, l⟩ := by
  obtain ⟨hindex, hmem⟩ := hT.index_slot hslot hp
  obtain ⟨f, hf⟩ : ∃ f, (layoutOf T).elementNumber l = some f :=
    Option.isSome_iff_exists.mp (MemLayout.numberIn_isSome.mpr hmem)
  refine ⟨f, hf, ?_⟩
  rw [AggregateMemBlock.lookup]
  by_cases h0 : p = 0
  · subst h0
    obtain ⟨rfl, rfl⟩ := slot_zero hT hslot
    rw [elementNumber_zero hT ⟨π, hslot.leaf⟩] at hf
    obtain rfl : 0 = f := Option.some.inj hf
    rw [if_pos rfl]
    exact ⟨rfl, hb.first⟩
  · rw [if_neg h0, hb.layout, hindex]
    dsimp only
    rw [hf]
    exact ⟨rfl, hb.object_in_place hT hslot hf⟩

/-- every other offset gives the null pointer -/
theorem not_leaf (hb : Objects T b) (hT : BlockOk T) (h0 : ∃ π, Leaf T π 0) {p : Nat}
    (hp : ∀ π, ¬ Leaf T π p) : (b.lookup p).1 = none := by
  rw [AggregateMemBlock.lookup]
  by_cases hzero : p = 0
  · obtain ⟨π, hπ⟩ := h0
    exact absurd (hzero ▸ hπ) (hp π)
  · rw [if_neg hzero, hb.layout]
    dsimp only
    cases hf : (layoutOf T).elementNumber ((layoutOf T).indexPhysicalOffset p).1 with
    | none => rfl
    | some f =>
      obtain ⟨π, hπ⟩ := hT.slot_of_element (MemLayout.numberIn_eq_some.mp hf).1
      exact absurd hπ.leaf (hp π)

/-- an object is given at the offsets of leaves that are not behind every block -/
theorem isSome_iff (hb : Objects T b) (hT : BlockOk T) (h0 : ∃ π, Leaf T π 0) {p : Nat} :
    (b.lookup p).1.isSome ↔ p < sizeMax ∧ ∃ π, Leaf T π p := by
  constructor
  · intro h
    refine ⟨Nat.lt_of_not_le fun hp => ?_, ?_⟩
    · have hzero : p ≠ 0 := by
        rintro rfl
        exact absurd hp (by decide)
      have hnone : (layoutOf T).elementNumber ((layoutOf T).indexPhysicalOffset p).1 = none :=
        if_neg (hT.index_behind hp)
      rw [AggregateMemBlock.lookup, if_neg hzero, hb.layout] at h
      dsimp only at h
      rw [hnone] at h
      exact absurd h Bool.false_ne_true
    · by_contra hno
      rw [hb.not_leaf hT h0 (not_exists.mp hno)] at h
      exact absurd h Bool.false_ne_true
  · rintro ⟨hp, π, hπ⟩
    obtain ⟨c, l, hslot⟩ := hπ.slot
    obtain ⟨f, -, hindex, -⟩ := hb.index hT hslot hp
    rw [hindex]
    rfl

/-- the code's lookups are these -/
theorem layout_narrow (hb : Objects T b) : b.layout.Narrow := hb.layout ▸ hb.narrow

/-- queries keep the invariant -/
theorem asked (hb : Objects T b) (q : Query) : Objects T (b.asked q) :=
  ⟨hb.query (AggregateMemBlock.query_eq hb.layout_narrow q), hb.narrow⟩

theorem queries (hb : Objects T b) (qs : List Query) :
    ∃ b', qs.foldlM AggregateMemBlock.query b = some b' ∧ Objects T b' := by
  refine ⟨_, AggregateMemBlock.queries_eq hb.layout_narrow qs, ?_⟩
  induction qs generalizing b with
  | nil => exact hb
  | cons q qs ih => exact ih (hb.asked q)

/-- a block of the layout that the manager has, after any layouts and any queries -/
theorem blockAfter (hT : BlockOk T) (h0 : ∃ π, Leaf T π 0) (hnarrow : T.Narrow) (Ts : List IRType)
    (qs : List Query) : ∃ b, blockAfter Ts T qs = some b ∧ Objects T b := by
  rw [AserPTA.blockAfter, MemLayoutManager.getLayoutForType_eq]
  exact (new hT h0 hnarrow).queries qs

/-- two leaves have one object iff they differ in array indices only -/
theorem same_iff (hb : Objects T b) {b' : AggregateMemBlock} (hb' : Objects T b') (hT : BlockOk T)
    {π π' : List Step} {p p' : Nat} (hπ : Leaf T π p) (hπ' : Leaf T π' p') (hp : p < sizeMax)
    (hp' : p' < sizeMax) :
    (b.lookup p).1 = (b'.lookup p').1 ↔ zeroed π = zeroed π' := by
  obtain ⟨c, l, hslot⟩ := hπ.slot
  obtain ⟨c', l', hslot'⟩ := hπ'.slot
  obtain ⟨f, hf, hindex, -⟩ := hb.index hT hslot hp
  obtain ⟨f', hf', hindex', -⟩ := hb'.index hT hslot' hp'
  rw [hindex, hindex', Option.some.injEq]
  constructor
  · rintro rfl
    obtain rfl := MemLayout.numberIn_inj hf hf'
    exact hT.inj hslot hslot'
  · intro hz
    obtain ⟨rfl, rfl⟩ := hslot.unique_zeroed hslot' hz
    exact Option.some.inj (hf.symm.trans hf')

end Objects

/-- After any layouts and any queries a block whose layout the code can store gives an object at the
offsets of the leaves only, the same one for leaves that differ in array indices and another one for
others, and the object has the offset of the leaf with all indices 0. -/
theorem indexMemoryBlock_canonical {T : IRType} (hT : BlockOk T) (h0 : ∃ π, Leaf T π 0)
    (hnarrow : T.Narrow) (Ts : List IRType) (qs : List Query) {p : Nat} (hp : p < 2 ^ 63) :
    ∃ b obj b₁, blockAfter Ts T qs = some b ∧ b.indexMemoryBlock p = some (obj, b₁) ∧
      (obj.isSome ↔ ∃ π, Leaf T π p) ∧
      (∀ π c, Leaf T π p → Leaf T (zeroed π) c → ∃ f l, obj = some f ∧ b₁.object f = some ⟨c, l⟩) ∧
      ∀ qs' : List Query, ∀ p' < 2 ^ 63, ∃ b' obj' b₂, qs'.foldlM AggregateMemBlock.query b₁ = some b' ∧
        b'.indexMemoryBlock p' = some (obj', b₂) ∧
        ∀ π π', Leaf T π p → Leaf T π' p' → (obj = obj' ↔ zeroed π = zeroed π') := by
  obtain ⟨b, hb, hobjects⟩ := Objects.blockAfter hT h0 hnarrow Ts qs
  have hp' : p < sizeMax := by unfold sizeMax; omega
  refine ⟨b, (b.lookup p).1, (b.lookup p).2, hb,
    AggregateMemBlock.indexMemoryBlock_eq hobjects.layout_narrow p, ?_,
    fun π c hπ hc => ?_, fun qs' p' hlt => ?_⟩
  · rw [hobjects.isSome_iff hT h0, and_iff_right hp']
  · obtain ⟨c', l, hslot⟩ := hπ.slot
    obtain rfl := hc.offset_unique hslot.leaf_zeroed.leaf
    obtain ⟨f, -, hindex, hobj⟩ := hobjects.index hT hslot hp'
    exact ⟨f, l, hindex, hobj⟩
  · obtain ⟨b', hb', hobjects'⟩ := (hobjects.asked (.object p)).queries qs'
    refine ⟨b', (b'.lookup p').1, (b'.lookup p').2, hb',
      AggregateMemBlock.indexMemoryBlock_eq hobjects'.layout_narrow p', ?_⟩
    intro π π' hπ hπ'
    exact hobjects.same_iff hobjects' hT hπ hπ' hp' (by unfold sizeMax; omega)

/-! ### a structure with nested arrays -/

def innerArrayStruct : IRType :=
  struct 0 [(0, array 10 (scalar 4)), (40, scalar 1), (48, scalar 8)] 56

def midArrayStruct : IRType :=
  struct 1 [(0, scalar 1), (8, array 5 innerArrayStruct), (288, array 20 (scalar 8))] 448

def arrayStruct : IRType :=
  struct 2 [(0, scalar 4), (4, scalar 1), (8, midArrayStruct), (456, scalar 4)] 464

theorem wf_innerArrayStruct : Wf innerArrayStruct := by
  refine .struct (by decide) (by decide) fun f hf => ?_
  rcases List.mem_cons.mp hf with rfl | hf
  · exact .array (by decide) (by decide) (by decide) (.scalar (by decide) (by decide))
  · rcases List.mem_pair.mp hf with rfl | rfl <;> exact .scalar (by decide) (by decide)

theorem wf_midArrayStruct : Wf midArrayStruct := by
  refine .struct (by decide) (by decide) fun f hf => ?_
  rcases List.mem_cons.mp hf with rfl | hf
  · exact .scalar (by decide) (by decide)
  · rcases List.mem_pair.mp hf with rfl | rfl
    · exact .array (by decide) (by decide) (by decide) wf_innerArrayStruct
    · exact .array (by decide) (by decide) (by decide) (.scalar (by decide) (by decide))

theorem blockOk_arrayStruct : BlockOk arrayStruct := by
  refine .bounded rfl (.struct (by decide) (by decide) fun f hf => ?_)
  rcases List.mem_cons.mp hf with rfl | hf
  · exact .scalar (by decide) (by decide)
  · rcases List.mem_cons.mp hf with rfl | hf
    · exact .scalar (by decide) (by decide)
    · rcases List.mem_pair.mp hf with rfl | rfl
      · exact wf_midArrayStruct
      · exact .scalar (by decide) (by decide)

/-- the leaf `mid.inner[i].a[j]` -/
theorem leaf_arrayStruct {i j : Nat} (hi : i < 5) (hj : j < 10) :
    Leaf arrayStruct [.field 2, .field 1, .index i, .field 0, .index j]
      (8 + (8 + (i * 56 + (0 + (j * 4 + 0))))) :=
  .field rfl (.field rfl (.elem hi (.field rfl (.elem hj .scalar))))

/-- `mid.inner[1].a[3]` and `mid.inner[0].a[0]` are one object, whose offset is the one of the latter -/
theorem indexMemoryBlock_arrayStruct :
    ∃ b f b₁ b₂ l, blockAfter [innerArrayStruct] arrayStruct [.object 456] = some b ∧
      b.indexMemoryBlock 84 = some (some f, b₁) ∧ b₁.object f = some ⟨16, l⟩ ∧
      b₁.indexMemoryBlock 16 = some (some f, b₂) := by
  obtain ⟨b, obj, b₁, hb, hindex, -, hobj, hsame⟩ := indexMemoryBlock_canonical blockOk_arrayStruct
    ⟨[.field 0], .field rfl .scalar⟩ (by decide) [innerArrayStruct] [.object 456] (p := 84) (by decide)
  have h84 := leaf_arrayStruct (i := 1) (j := 3) (by decide) (by decide)
  have h16 := leaf_arrayStruct (i := 0) (j := 0) (by decide) (by decide)
  obtain ⟨f, l, rfl, hl⟩ := hobj _ 16 h84 h16
  obtain ⟨b', obj', b₂, hb', hindex', hsame⟩ := hsame [] 16 (by decide)
  cases hb'
  obtain rfl := (hsame _ _ h84 h16).mpr rfl
  exact ⟨b, f, b₁, b₂, l, hb, hindex, hl, hindex'⟩

/-! ### a structure of 2 GiB -/

/-- 32 integers of 16777215 bits -/
def wideInts : IRType := struct 0 ((List.range 32).map fun i => (i * 2 ^ 21, scalar (2 ^ 21))) (2 ^ 26)

/-- 32 of them, and a byte -/
def wideStruct : IRType :=
  struct 1 ((List.range 32).map (fun i => (i * 2 ^ 26, wideInts)) ++ [(2 ^ 31, scalar 1)]) (2 ^ 31 + 8)

theorem wf_wideInts : Wf wideInts := by
  refine .struct (by decide +kernel) (by decide) fun f hf => ?_
  obtain ⟨i, -, rfl⟩ := List.mem_map.mp hf
  exact .scalar (by decide) (by decide)

theorem blockOk_wideStruct : BlockOk wideStruct := by
  refine .bounded rfl (.struct (by decide +kernel) (by decide) fun f hf => ?_)
  rcases List.mem_append.mp hf with hf | hf
  · obtain ⟨i, -, rfl⟩ := List.mem_map.mp hf
    exact wf_wideInts
  · obtain rfl := List.mem_singleton.mp hf
    exact .scalar (by decide) (by decide)

theorem leaf_wideStruct_zero : Leaf wideStruct [.field 0, .field 0] (0 * 2 ^ 26 + (0 * 2 ^ 21 + 0)) :=
  .field rfl (.field rfl .scalar)

/-- the byte is a leaf, but the layout can not be cached: its number of entries does not fit an `int` -/
theorem indexMemoryBlock_wideStruct : BlockOk wideStruct ∧ (∃ π, Leaf wideStruct π 0) ∧
    Leaf wideStruct [.field 32] (2 ^ 31) ∧
    ∀ Ts, ∃ b, blockAfter Ts wideStruct [] = some b ∧ b.indexMemoryBlock (2 ^ 31) = none := by
  have hleaf : Leaf wideStruct [.field 32] (2 ^ 31 + 0) := .field rfl .scalar
  refine ⟨blockOk_wideStruct, ⟨_, leaf_wideStruct_zero⟩, hleaf, fun Ts => ⟨_, rfl, ?_⟩⟩
  obtain ⟨c, l, hslot⟩ := hleaf.slot
  obtain ⟨hindex, hmem⟩ := blockOk_wideStruct.index_slot hslot (by decide)
  have hnil : (layoutOf wideStruct).subArrays = [] := by rfl
  rw [MemLayout.indexPhysicalOffset, if_pos hnil] at hindex
  obtain rfl : 2 ^ 31 = l := congrArg Prod.fst hindex
  refine AggregateMemBlock.indexMemoryBlock_eq_none ?_
    (by decide : 2 ^ 31 ≤ 2 ^ 31 % 2 ^ 32 + 1) (by decide)
  show 2 ^ 31 ∈ (MemLayoutManager.getLayoutForType _ wideStruct).1.elementLayout
  rw [MemLayoutManager.getLayoutForType_eq]
  exact hmem

end AserPTA
