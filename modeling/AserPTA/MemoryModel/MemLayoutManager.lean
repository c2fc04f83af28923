import AserPTA.MemoryModel.MemLayout

/-!
# The layouts of types

`MemLayoutManager` builds the layout of a type from the layouts of its elements and fields and keeps
every layout it has built.

* `Building`                         a layout under construction, with its two offsets;
* `setElementLayout`, `getArrayLayout`, `finishStruct`   the steps of the construction;
* `dfsTypeTree`, `getLayoutForType`  the recursion, with the table of layouts;
* `layoutOf`                         the recursion without the table;
* `getLayoutForType_eq`              after any calls the table gives the same layouts.
-/

namespace AserPTA
open IRType

/-- a layout under construction, with `lOffset` and `pOffset` -/
structure Building where
  layout : MemLayout
  lOffset : Nat
  pOffset : Nat

namespace Building

/-- `setElementLayout`; `subLayout` is what `DFSTypeTree` has for `elementType`, which is asked for
aggregates only -/
def setElementLayout (b : Building) (elementType : IRType) (subLayout : MemLayout) : Building :=
  match elementType with
  | array _ _ | struct _ _ _ =>
    { layout := b.layout.mergeMemoryLayout subLayout b.pOffset b.lOffset
      lOffset := b.lOffset + subLayout.maxLOffset
      pOffset := b.pOffset + elementType.allocSize }
  | pointer size =>
    { layout := (b.layout.setElementOffset b.lOffset).setPointerOffset b.lOffset
      lOffset := b.lOffset + size
      pOffset := b.pOffset + size }
  | scalar size =>
    { layout := b.layout.setElementOffset b.lOffset
      lOffset := b.lOffset + size
      pOffset := b.pOffset + size }

/-- the padding before the field at `elemOffset` -/
def padTo (b : Building) (elemOffset : Nat) : Building :=
  { b with
    lOffset := b.lOffset + (elemOffset - b.pOffset)
    pOffset := b.pOffset + (elemOffset - b.pOffset) }

/-- the padding at the end of a structure, and its layout -/
def finishStruct (b : Building) (size : Nat) : MemLayout :=
  let b := if b.pOffset = size then b else b.padTo size
  b.layout.setMaxOffsets b.lOffset b.pOffset

def startStruct : Building := ⟨MemLayout.new false, 0, 0⟩

end Building

/-- the end of `getArrayLayout`, with the layout of the elements; the arithmetic is that of `size_t`,
where an array without elements ends at 0 -/
def getArrayLayout (elementNum : Nat) (elementType : IRType) (subLayout : MemLayout) : MemLayout :=
  let layout := { MemLayout.new true with
    subArrays := [(0, ArrayLayout.new elementNum elementType.allocSize)] }
  let b := (Building.mk layout 0 0).setElementLayout elementType subLayout
  let pOffset := if elementNum = sizeMax then sizeMax
    else (b.pOffset + elementType.allocSize * ((elementNum + sizeMax) % 2 ^ 64)) % 2 ^ 64
  (b.layout.setMaxOffsets b.lOffset pOffset).updateArray (·.setLayoutSize b.lOffset)

/-- one scalar; the source has no layout for it -/
def scalarLayout (size : Nat) (isPtr : Bool) : MemLayout where
  pointerLayout := if isPtr then {0} else ∅
  elementLayout := {0}
  subArrays := []
  maxLOffset := size
  maxPOffset := size
  isArray := false

/-! ## with the table -/

structure MemLayoutManager where
  memLayoutMap : List (IRType × MemLayout)

namespace MemLayoutManager

def empty : MemLayoutManager := ⟨[]⟩

def find (m : MemLayoutManager) (T : IRType) : Option MemLayout := m.memLayoutMap.lookup T

/-- the source asserts that the type is new -/
def insert (m : MemLayoutManager) (T : IRType) (layout : MemLayout) : MemLayoutManager :=
  ⟨(T, layout) :: m.memLayoutMap⟩

mutual

/-- `DFSTypeTree`; what it adds to the offsets are the layout's own maxima, whether it was built
before or not -/
def dfsTypeTree : IRType → MemLayoutManager → MemLayout × MemLayoutManager
  -- the source asserts that the type is an aggregate
  | scalar size, m => (scalarLayout size false, m)
  | pointer size, m => (scalarLayout size true, m)
  | array n e, m =>
    match m.find (array n e) with
    | some layout => (layout, m)
    | none =>
      let r := dfsTypeTree e m
      let layout := getArrayLayout n e r.1
      (layout, r.2.insert (array n e) layout)
  | struct name fields size, m =>
    match m.find (struct name fields size) with
    | some layout => (layout, m)
    | none =>
      let r := dfsFields fields Building.startStruct m
      let layout := r.1.finishStruct size
      (layout, r.2.insert (struct name fields size) layout)

/-- the loop of `getStructLayout` -/
def dfsFields : List (Nat × IRType) → Building → MemLayoutManager → Building × MemLayoutManager
  | [], b, m => (b, m)
  | (elemOffset, T) :: rest, b, m =>
    let r := dfsTypeTree T m
    dfsFields rest ((b.padTo elemOffset).setElementLayout T r.1) r.2

end

def getLayoutForType (m : MemLayoutManager) (T : IRType) : MemLayout × MemLayoutManager :=
  dfsTypeTree T m

end MemLayoutManager

/-! ## without the table -/

mutual

def layoutOf : IRType → MemLayout
  | scalar size => scalarLayout size false
  | pointer size => scalarLayout size true
  | array n e => getArrayLayout n e (layoutOf e)
  | struct _ fields size => (buildFields fields Building.startStruct).finishStruct size

def buildFields : List (Nat × IRType) → Building → Building
  | [], b => b
  | (elemOffset, T) :: rest, b =>
    buildFields rest ((b.padTo elemOffset).setElementLayout T (layoutOf T))

end

theorem layoutOf_array (n : Nat) (e : IRType) :
    layoutOf (array n e) = getArrayLayout n e (layoutOf e) := by rw [layoutOf]

theorem layoutOf_struct (name : Nat) (fields : List (Nat × IRType)) (size : Nat) :
    layoutOf (struct name fields size) =
      (buildFields fields Building.startStruct).finishStruct size := by rw [layoutOf]

namespace MemLayoutManager

/-- the table holds the layouts of the types -/
def Consistent (m : MemLayoutManager) : Prop := ∀ x ∈ m.memLayoutMap, x.2 = layoutOf x.1

theorem Consistent.find {m : MemLayoutManager} (hm : m.Consistent) {T : IRType} {layout : MemLayout}
    (h : m.find T = some layout) : layout = layoutOf T := by
  rw [MemLayoutManager.find, List.lookup_eq_some_iff] at h
  obtain ⟨before, after, hmap, -⟩ := h
  exact hm (T, layout) (hmap ▸ List.mem_append_right before List.mem_cons_self)

theorem Consistent.insert {m : MemLayoutManager} (hm : m.Consistent) (T : IRType) :
    (m.insert T (layoutOf T)).Consistent := by
  intro x hx
  rcases List.mem_cons.mp hx with rfl | hx
  · rfl
  · exact hm x hx

theorem Consistent.empty : MemLayoutManager.empty.Consistent :=
  fun _ h => absurd h List.not_mem_nil

mutual

theorem Consistent.dfsTypeTree {m : MemLayoutManager} (hm : m.Consistent) :
    ∀ T : IRType, (dfsTypeTree T m).1 = layoutOf T ∧ (dfsTypeTree T m).2.Consistent
  | scalar _ => ⟨rfl, hm⟩
  | pointer _ => ⟨rfl, hm⟩
  | array n e => by
    rw [MemLayoutManager.dfsTypeTree]
    split
    · next layout h => exact ⟨hm.find h, hm⟩
    · obtain ⟨heq, hm'⟩ := Consistent.dfsTypeTree hm e
      dsimp only
      rw [heq, ← layoutOf_array]
      exact ⟨rfl, hm'.insert _⟩
  | struct name fields size => by
    rw [MemLayoutManager.dfsTypeTree]
    split
    · next layout h => exact ⟨hm.find h, hm⟩
    · obtain ⟨heq, hm'⟩ := Consistent.dfsFields hm fields Building.startStruct
      dsimp only
      rw [heq, ← layoutOf_struct name]
      exact ⟨rfl, hm'.insert _⟩

theorem Consistent.dfsFields {m : MemLayoutManager} (hm : m.Consistent) :
    ∀ (fields : List (Nat × IRType)) (b : Building),
      (dfsFields fields b m).1 = buildFields fields b ∧ (dfsFields fields b m).2.Consistent
  | [], _ => ⟨rfl, hm⟩
  | (elemOffset, T) :: rest, b => by
    obtain ⟨heq, hm'⟩ := Consistent.dfsTypeTree hm T
    rw [MemLayoutManager.dfsFields, buildFields, ← heq]
    exact Consistent.dfsFields hm' rest _

end

/-- the table after some calls -/
def afterCalls (Ts : List IRType) : MemLayoutManager :=
  Ts.foldl (fun m T => (m.getLayoutForType T).2) MemLayoutManager.empty

theorem consistent_afterCalls (Ts : List IRType) : (afterCalls Ts).Consistent := by
  have h : ∀ m : MemLayoutManager, m.Consistent →
      (Ts.foldl (fun m T => (m.getLayoutForType T).2) m).Consistent := by
    induction Ts with
    | nil => exact fun m hm => hm
    | cons T Ts ih => exact fun m hm => ih _ (hm.dfsTypeTree T).2
  exact h _ Consistent.empty

/-- earlier calls do not change what is given for a type -/
theorem getLayoutForType_eq (Ts : List IRType) (T : IRType) :
    ((afterCalls Ts).getLayoutForType T).1 = layoutOf T :=
  ((consistent_afterCalls Ts).dfsTypeTree T).1

end MemLayoutManager
end AserPTA
