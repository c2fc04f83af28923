import AserPTA.MemoryModel.LayoutChecks
import Mathlib.Data.Finset.Card
import Mathlib.Order.Filter.AtTopBot.Basic
import Mathlib.Order.Filter.Finite

/-!
# Anonymous objects

`allocAnonObj` makes up an object for something that is not allocated in the program, and objects for
all that its pointers may point to, by recursion over its type.  An assertion that fails stops it, also
one of the layout code, and so does a null pointer.

* `Ty`                       types; a pointer has the number of its pointee in a table of types;
* `initAnonAggregateObj`, `allocAnonObjRec`   the recursion, which `typeTree` cuts off;
* `AnonObj`                  an object with the objects that are allocated for its pointers;
* `pointers`                 the pointers of a type that the recursion follows;
* `Comes`, `Served`          the types that it comes to, and what it needs there: each pointer that is
                             followed has an object of its own;
* `foldlM_allocPointee`      the pointers of one type;
* `allocAnonObjRec_returns_iff`   the recursion returns iff so it is at every type that it comes to;
                             `typeTree` is then as before, and no object is allocated for one of the same
                             type.
-/

namespace AserPTA.AnonObjects

/-- `size` is the allocation size, and a structure has the offsets of its fields.  The other types are told
apart by numbers; some of them may be elements of arrays. -/
inductive Ty (n : Nat)
  | other (isElement isVector : Bool) (number size : Nat)
  | pointer (addressSpace size : Nat) (pointee : Fin n)
  | array (num : Nat) (element : Ty n)
  | struct (name : Nat) (fields : List (Nat × Ty n)) (size : Nat)
  -- an identified structure without a body: LLVM has no layout for it
  | bodiless (name : Nat)

namespace Ty

variable {n : Nat}

mutual

def decEq : (T U : Ty n) → Decidable (T = U)
  | other b v k s, other c w l t =>
    decidable_of_iff (b = c ∧ v = w ∧ k = l ∧ s = t) (by rw [other.injEq])
  | pointer a s P, pointer b t Q => decidable_of_iff (a = b ∧ s = t ∧ P = Q) (by rw [pointer.injEq])
  | array m e, array m' e' =>
    have := decEq e e'
    decidable_of_iff (m = m' ∧ e = e') (by rw [array.injEq])
  | struct i fs s, struct j gs t =>
    have := decEqFields fs gs
    decidable_of_iff (i = j ∧ fs = gs ∧ s = t) (by rw [struct.injEq])
  | bodiless i, bodiless j => decidable_of_iff (i = j) (by rw [bodiless.injEq])
  | other _ _ _ _, pointer _ _ _ | other _ _ _ _, array _ _ | other _ _ _ _, struct _ _ _
  | other _ _ _ _, bodiless _ => isFalse nofun
  | pointer _ _ _, other _ _ _ _ | pointer _ _ _, array _ _ | pointer _ _ _, struct _ _ _
  | pointer _ _ _, bodiless _ => isFalse nofun
  | array _ _, other _ _ _ _ | array _ _, pointer _ _ _ | array _ _, struct _ _ _
  | array _ _, bodiless _ => isFalse nofun
  | struct _ _ _, other _ _ _ _ | struct _ _ _, pointer _ _ _ | struct _ _ _, array _ _
  | struct _ _ _, bodiless _ => isFalse nofun
  | bodiless _, other _ _ _ _ | bodiless _, pointer _ _ _ | bodiless _, array _ _
  | bodiless _, struct _ _ _ => isFalse nofun

def decEqFields : (fs gs : List (Nat × Ty n)) → Decidable (fs = gs)
  | [], [] => isTrue rfl
  | [], _ :: _ => isFalse nofun
  | _ :: _, [] => isFalse nofun
  | (o, T) :: fs, (p, U) :: gs =>
    have := decEq T U
    have := decEqFields fs gs
    decidable_of_iff ((o = p ∧ T = U) ∧ fs = gs) (by rw [List.cons.injEq, Prod.mk.injEq])

end

instance : DecidableEq (Ty n) := decEq

/-- `ArrayType::isValidElementType` -/
def isValidElementType : Ty n → Bool
  | other isElement _ _ _ => isElement
  | _ => true

/-- the loop that goes on while the type is an array, to the element type -/
def stripArrays : Ty n → Ty n
  | array _ e => e.stripArrays
  | T => T

mutual

/-- the type as the data layout has it, if it has a size -/
def irType : Ty n → Option IRType
  | other _ _ _ size => some (.scalar size)
  | pointer _ size _ => some (.pointer size)
  | array num e => (irType e).map (.array num)
  | struct name fields size => (irFields fields).map fun fields => .struct name fields size
  | bodiless _ => none

def irFields : List (Nat × Ty n) → Option (List (Nat × IRType))
  | [] => some []
  | (offset, T) :: rest => do
    let T ← irType T
    let rest ← irFields rest
    return (offset, T) :: rest

end

theorem irFields_cons {offset : Nat} {T : Ty n} {rest : List (Nat × Ty n)} {Us : List (Nat × IRType)}
    (h : irFields ((offset, T) :: rest) = some Us) :
    ∃ V Vs, T.irType = some V ∧ irFields rest = some Vs ∧ Us = (offset, V) :: Vs := by
  rw [irFields, Option.bind_eq_bind, Option.bind_eq_some_iff] at h
  obtain ⟨V, hV, h⟩ := h
  obtain ⟨Vs, hVs, h⟩ := Option.bind_eq_some_iff.mp h
  exact ⟨V, Vs, hV, hVs, (Option.some.inj h).symm⟩

end Ty

variable {n : Nat}

def getBoundedArrayTy (elemType : Ty n) (num : Nat) : Option (Ty n) :=
  if elemType.isValidElementType then some (.array num elemType) else none

def getUnboundedArrayTy (elemType : Ty n) : Option (Ty n) := getBoundedArrayTy elemType sizeMax

/-! ## the blocks -/

/-- the block that `allocValueWithType` makes, which is not put into the map -/
def allocBlock (T : Ty n) : Option MemBlock :=
  match T with
  | .struct _ _ _ | .array _ _ => do
    let T ← T.irType
    let r ← Debug.getLayoutForType .empty T
    return .aggregate (.new r.1)
  | .bodiless _ => some (.fiBlock ⟨0, 0⟩)
  | .other _ isVector _ _ => some (if isVector then .fiBlock ⟨0, 0⟩ else .scalar ⟨0, 0⟩)
  | .pointer _ _ _ => some (.scalar ⟨0, 0⟩)

/-- `getPtrObjectAt` -/
def getPtrObjectAt : MemBlock → Nat → Option (Option Nat × MemBlock)
  | .aggregate b, offset => (Debug.getPtrObjectAt b offset).map fun r => (r.1, .aggregate r.2)
  | .fiBlock o, _ => some (some 0, .fiBlock o)
  | .scalar o, offset => some (if offset = 0 then some 0 else none, .scalar o)

/-- the place of the pointer object at an offset -/
def ptrPlace : MemBlock → Nat → Option Nat
  | .aggregate b, offset => Debug.ptrPlace b.layout offset
  | .fiBlock _, _ => some 0
  | .scalar _, offset => if offset = 0 then some 0 else none

/-! ## the recursion -/

/-- an object of the type, with the objects that the pointers in it point to, by their offsets; an
object without a type is field insensitive -/
inductive AnonObj (n : Nat)
  | typed (type : Ty n) (children : List (Nat × AnonObj n))
  | fieldInsensitive

/-- a block while it is initialised: the places of its objects that have nodes, and what was allocated -/
structure Init (n : Nat) where
  block : MemBlock
  nodes : List Nat
  typeTree : List (Ty n)
  children : List (Nat × AnonObj n)

section
variable (tbl : Fin n → Ty n)
  -- `allocAnonObjRec`
  (alloc : Option (Ty n) → List (Ty n) → Option (Option (AnonObj n) × List (Ty n)))

/-- the pointer branch of `initAnonAggregateObj`, for a pointer to type number `x.2` at `x.1` -/
def allocPointee (s : Init n) (x : Nat × Fin n) : Option (Init n) := do
  let (child, typeTree) ← alloc (getUnboundedArrayTy (tbl x.2)) s.typeTree
  match child with
  | none => return { s with typeTree := typeTree }
  | some child => do
    let (object, block) ← getPtrObjectAt s.block x.1
    -- "No Pointer Element at the offset"
    let f ← object
    -- an object that has a node already
    guard (f ∈ s.nodes → x.1 = 0)
    let nodes := if f ∈ s.nodes then s.nodes else f :: s.nodes
    return ⟨block, nodes, typeTree, s.children ++ [(x.1, child)]⟩

mutual

/-- the loop of `initAnonAggregateObj` over the fields of a structure at `globOffset` -/
def initFields : List (Nat × Ty n) → Init n → Nat → Option (Init n)
  | [], s, _ => some s
  | (elementOffset, elemTy) :: rest, s, globOffset => do
    let s ← initField elemTy s (globOffset + elementOffset)
    initFields rest s globOffset

/-- one turn; the arrays are taken off -/
def initField : Ty n → Init n → Nat → Option (Init n)
  | .array _ e, s, offset => initField e s offset
  -- the call moves a copy of the offset on
  | .struct _ fields _, s, offset => initFields fields s offset
  | .bodiless _, _, _ => none
  | .pointer _ _ P, s, offset => allocPointee tbl alloc s (offset, P)
  -- skip other type
  | .other _ _ _ _, s, _ => some s

end

/-- the objects for the pointers of a structure at `globOffset`, and the offset behind it -/
def initAnonAggregateObj (T : Ty n) (s : Init n) (globOffset : Nat) : Option (Init n × Nat) :=
  match T with
  | .struct _ fields size =>
    (initFields tbl alloc fields s globOffset).map fun s => (s, globOffset + size)
  | _ => none

/-- the object for a pointer that is no field -/
def allocChild (P : Fin n) (s : Init n) : Option (Init n) := do
  let (child, typeTree) ← alloc (getUnboundedArrayTy (tbl P)) s.typeTree
  return { s with
    typeTree := typeTree
    children := s.children ++ (child.toList.map fun child => (0, child)) }

/-- the `switch` of `allocAnonObjRec` -/
def allocChildren (T : Ty n) (s : Init n) : Option (Init n) :=
  match T with
  | .struct _ _ _ | .bodiless _ => (initAnonAggregateObj tbl alloc T s 0).map Prod.fst
  | .array _ _ =>
    match T.stripArrays with
    | .struct name fields size =>
      (initAnonAggregateObj tbl alloc (.struct name fields size) s 0).map Prod.fst
    | .bodiless name => (initAnonAggregateObj tbl alloc (.bodiless name) s 0).map Prod.fst
    -- treat ptr as array to allow indexing, that is int * -> int []
    | .pointer _ _ P => allocChild tbl alloc P s
    | _ => some s
  | .pointer _ _ P => allocChild tbl alloc P s
  | .other _ _ _ _ => some s

end

variable (tbl : Fin n → Ty n)

/-- the object for the type, if there is one, with `typeTree` -/
def allocAnonObjRec : Nat → Option (Ty n) → List (Ty n) → Option (Option (AnonObj n) × List (Ty n))
  | 0, _, _ => none
  | _ + 1, none, typeTree => some (none, typeTree)
  | fuel + 1, some T, typeTree =>
    -- recursive type
    if T ∈ typeTree then some (none, typeTree)
    else do
      let block ← allocBlock T
      let s ← allocChildren tbl (allocAnonObjRec fuel) T ⟨block, [0], typeTree ++ [T], []⟩
      return (some (.typed T s.children), s.typeTree.dropLast)

/-- the recursion starts with an empty stack -/
def allocAnonObj (fuel : Nat) (T : Option (Ty n)) (recursive : Bool) : Option (AnonObj n) :=
  match T with
  | none => some .fieldInsensitive
  | some T =>
    if recursive then (allocAnonObjRec tbl fuel (some T) []).bind Prod.fst
    else (allocBlock T).map fun _ => .typed T []

variable {tbl}

/-! ## the pointers of a type -/

namespace Ty

mutual

/-- the pointers that are followed in something at an offset: those of the first elements -/
def pointersAt : Ty n → Nat → List (Nat × Fin n)
  | array _ e, offset => pointersAt e offset
  | struct _ fields _, offset => fieldPointers fields offset
  | pointer _ _ P, offset => [(offset, P)]
  | other _ _ _ _, _ => []
  | bodiless _, _ => []

def fieldPointers : List (Nat × Ty n) → Nat → List (Nat × Fin n)
  | [], _ => []
  | (elementOffset, T) :: rest, offset =>
    pointersAt T (offset + elementOffset) ++ fieldPointers rest offset

end

def pointers (T : Ty n) : List (Nat × Fin n) := T.pointersAt 0

def isBodiless : Ty n → Bool
  | bodiless _ => true
  | _ => false

theorem pointersAt_stripArrays (T : Ty n) (offset : Nat) :
    T.stripArrays.pointersAt offset = T.pointersAt offset := by
  fun_induction stripArrays T with
  | case1 num e ih => rw [ih, pointersAt]
  | case2 T => rfl

theorem stripArrays_ne_array (T : Ty n) (num : Nat) (e : Ty n) : T.stripArrays ≠ array num e := by
  fun_induction stripArrays T with
  | case1 _ _ ih => exact ih
  | case2 T hT => exact fun h => hT num e h

theorem irType_stripArrays {T : Ty n} (h : T.irType.isSome) : T.stripArrays.irType.isSome := by
  fun_induction stripArrays T with
  | case1 num e ih =>
    rw [irType, Option.isSome_map] at h
    exact ih h
  | case2 T => exact h

end Ty

section
variable {alloc : Option (Ty n) → List (Ty n) → Option (Option (AnonObj n) × List (Ty n))}

mutual

/-- the loop is one over the pointers -/
theorem initFields_eq : ∀ (fields : List (Nat × Ty n)), (Ty.irFields fields).isSome →
    ∀ (s : Init n) (offset : Nat), initFields tbl alloc fields s offset =
      (Ty.fieldPointers fields offset).foldlM (allocPointee tbl alloc) s
  | [], _, _, _ => by rw [initFields, Ty.fieldPointers]; rfl
  | (elementOffset, T) :: rest, h, s, offset => by
    obtain ⟨fields, h⟩ := Option.isSome_iff_exists.mp h
    obtain ⟨U, Us, hT, hrest, -⟩ := Ty.irFields_cons h
    rw [initFields, Ty.fieldPointers, List.foldlM_append, initField_eq T (by rw [hT]; rfl)]
    exact congrArg _ (funext fun s => initFields_eq rest (by rw [hrest]; rfl) s offset)

theorem initField_eq : ∀ (T : Ty n), T.irType.isSome → ∀ (s : Init n) (offset : Nat),
    initField tbl alloc T s offset = (T.pointersAt offset).foldlM (allocPointee tbl alloc) s
  | .other _ _ _ _, _, _, _ => by rw [initField, Ty.pointersAt]; rfl
  | .pointer _ _ P, _, s, offset => by
    rw [initField, Ty.pointersAt, List.foldlM_cons]
    exact (bind_pure _).symm
  | .array _ e, h, s, offset => by
    rw [Ty.irType, Option.isSome_map] at h
    rw [initField, Ty.pointersAt, initField_eq e h]
  | .struct _ fields _, h, s, offset => by
    rw [Ty.irType, Option.isSome_map] at h
    rw [initField, Ty.pointersAt, initFields_eq fields h]
  | .bodiless _, h, _, _ => by
    rw [Ty.irType] at h
    cases h

end

/-- at offset 0 there is an object with a node -/
theorem allocChild_eq {s : Init n} (hs : 0 ∈ s.nodes) (P : Fin n) :
    allocChild tbl alloc P s = allocPointee tbl alloc s (0, P) := by
  have hzero : getPtrObjectAt s.block 0 = some (some 0, s.block) := by
    cases s.block with
    | aggregate b => rw [getPtrObjectAt, Debug.getPtrObjectAt, if_pos rfl]; rfl
    | fiBlock o => rfl
    | scalar o => rfl
  rw [allocChild, allocPointee]
  cases alloc (getUnboundedArrayTy (tbl P)) s.typeTree with
  | none => rfl
  | some r =>
    obtain ⟨child, typeTree⟩ := r
    cases child with
    | none =>
      show some { s with typeTree := typeTree, children := s.children ++ [] } = _
      rw [List.append_nil]
      rfl
    | some child =>
      simp only [Option.bind_eq_bind, Option.bind_some, hzero, guard, implies_true, if_true]
      rw [if_pos hs]
      rfl

/-- what a type that has a size is initialised by -/
theorem allocChildren_eq {T : Ty n} (hT : T.irType.isSome) {s : Init n} (hs : 0 ∈ s.nodes) :
    allocChildren tbl alloc T s = T.pointers.foldlM (allocPointee tbl alloc) s := by
  have hstruct : ∀ {name fields size}, (Ty.struct name fields size : Ty n).irType.isSome →
      (initAnonAggregateObj tbl alloc (.struct name fields size) s 0).map Prod.fst =
        ((Ty.struct name fields size).pointersAt 0).foldlM (allocPointee tbl alloc) s := by
    intro name fields size h
    have hfield : initField tbl alloc (.struct name fields size) s 0 =
        ((Ty.struct name fields size).pointersAt 0).foldlM (allocPointee tbl alloc) s :=
      initField_eq _ h s 0
    rw [initField] at hfield
    rw [initAnonAggregateObj, Option.map_map, ← hfield]
    exact congrFun Option.map_id _
  have hchild : ∀ P : Fin n, allocChild tbl alloc P s =
      [(0, P)].foldlM (allocPointee tbl alloc) s := by
    intro P
    rw [allocChild_eq hs, List.foldlM_cons]
    exact (bind_pure _).symm
  rw [Ty.pointers]
  cases T with
  | other _ _ _ _ => rw [Ty.pointersAt]; rfl
  | pointer _ _ P =>
    rw [Ty.pointersAt]
    exact hchild P
  | struct name fields size => exact hstruct hT
  | bodiless _ => cases hT
  | array num e =>
    have hstrip := Ty.irType_stripArrays hT
    have hne := (Ty.array num e).stripArrays_ne_array
    rw [← Ty.pointersAt_stripArrays, allocChildren]
    generalize (Ty.array num e).stripArrays = U at hstrip hne
    cases U with
    | other _ _ _ _ => rw [Ty.pointersAt]; rfl
    | pointer _ _ P =>
      rw [Ty.pointersAt]
      exact hchild P
    | struct name fields size => exact hstruct hstrip
    | bodiless _ => cases hstrip
    | array num e => exact absurd rfl (hne num e)

end

/-! ## paths of objects -/

/-- the types of the objects on a way down from an object -/
inductive AnonObj.Path : AnonObj n → List (Ty n) → Prop
  | here {T children} : Path (.typed T children) [T]
  | there {T children c path} : c ∈ children → Path c.2 path → Path (.typed T children) (T :: path)

/-- no way down from the object meets a type twice, or one of `typeTree` -/
def Fresh (typeTree : List (Ty n)) (obj : AnonObj n) : Prop :=
  ∀ path, obj.Path path → path.Nodup ∧ ∀ U ∈ path, U ∉ typeTree

theorem Fresh.typed {typeTree : List (Ty n)} {T : Ty n} {children : List (Nat × AnonObj n)}
    (hT : T ∉ typeTree) (h : ∀ c ∈ children, Fresh (typeTree ++ [T]) c.2) :
    Fresh typeTree (.typed T children) := by
  intro path hpath
  cases hpath with
  | here =>
    refine ⟨List.nodup_singleton T, fun U hU => ?_⟩
    rw [List.mem_singleton.mp hU]
    exact hT
  | @there _ _ c path hc hpath =>
    obtain ⟨hnodup, hfresh⟩ := h c hc path hpath
    refine ⟨List.nodup_cons.mpr ⟨fun hmem => ?_, hnodup⟩, fun U hU hmem => ?_⟩
    · exact hfresh T hmem (List.mem_append_right _ (List.mem_singleton_self T))
    · rcases List.mem_cons.mp hU with rfl | hU
      · exact hT hmem
      · exact hfresh U hU (List.mem_append_left _ hmem)

/-! ## what the recursion needs of a type -/

/-- an object is allocated for a pointer to the type -/
def followed (tbl : Fin n → Ty n) (typeTree : List (Ty n)) (k : Fin n) : Bool :=
  match getUnboundedArrayTy (tbl k) with
  | some W => W ∉ typeTree
  | none => false

/-- the offsets of the pointers that are followed -/
def offsets (tbl : Fin n → Ty n) (typeTree : List (Ty n)) (pointers : List (Nat × Fin n)) : List Nat :=
  (pointers.filter fun x => followed tbl typeTree x.2).map Prod.fst

/-- each offset has a pointer object, and none but 0 the one of an offset before it, or of 0 -/
structure Served (b : MemBlock) (offsets : List Nat) : Prop where
  object : ∀ o ∈ offsets, (ptrPlace b o).isSome
  fresh : (0 :: offsets).Pairwise fun o o' => ptrPlace b o = ptrPlace b o' → o' = 0

/-- the type has a block, in which the pointers that are followed have objects -/
def Good (tbl : Fin n → Ty n) (T : Ty n) (typeTree : List (Ty n)) : Prop :=
  T.isBodiless = false ∧
    ∃ b, allocBlock T = some b ∧ Served b (offsets tbl (typeTree ++ [T]) T.pointers)

/-- the types that the recursion comes to from a type, each with the stack when it does -/
inductive Comes (tbl : Fin n → Ty n) : Ty n → List (Ty n) → Ty n → List (Ty n) → Prop
  | here {T typeTree} : T ∉ typeTree → Comes tbl T typeTree T typeTree
  | there {T typeTree x W V typeTree'} : T ∉ typeTree → x ∈ T.pointers →
      getUnboundedArrayTy (tbl x.2) = some W → Comes tbl W (typeTree ++ [T]) V typeTree' →
      Comes tbl T typeTree V typeTree'

theorem followed_iff {typeTree : List (Ty n)} {k : Fin n} : followed tbl typeTree k ↔
    ∃ W, getUnboundedArrayTy (tbl k) = some W ∧ W ∉ typeTree := by
  rw [followed]
  cases getUnboundedArrayTy (tbl k) with
  | none => simp
  | some W => simp

theorem Served.concat {b : MemBlock} {done : List Nat} {o : Nat} : Served b (done ++ [o]) ↔
    Served b done ∧ (ptrPlace b o).isSome ∧
      ∀ o' ∈ 0 :: done, ptrPlace b o' = ptrPlace b o → o = 0 := by
  constructor
  · rintro ⟨hobject, hfresh⟩
    rw [← List.cons_append, List.pairwise_append] at hfresh
    obtain ⟨hdone, -, ho⟩ := hfresh
    exact ⟨⟨fun o' ho' => hobject o' (List.mem_append_left _ ho'), hdone⟩,
      hobject o (List.mem_append_right _ (List.mem_singleton_self o)),
      fun o' ho' => ho o' ho' o (List.mem_singleton_self o)⟩
  · rintro ⟨⟨hobject, hfresh⟩, ho, hnew⟩
    refine ⟨fun o' ho' => ?_, ?_⟩
    · rcases List.mem_append.mp ho' with ho' | ho'
      · exact hobject o' ho'
      · rwa [List.mem_singleton.mp ho']
    · rw [← List.cons_append, List.pairwise_append]
      refine ⟨hfresh, List.pairwise_singleton _ _, fun o' ho' o₂ ho₂ => ?_⟩
      rw [List.mem_singleton.mp ho₂]
      exact hnew o' ho'

theorem offsets_concat (typeTree : List (Ty n)) (l : List (Nat × Fin n)) (x : Nat × Fin n) :
    offsets tbl typeTree (l ++ [x]) =
      if followed tbl typeTree x.2 then offsets tbl typeTree l ++ [x.1] else offsets tbl typeTree l := by
  by_cases h : followed tbl typeTree x.2 = true
  · rw [if_pos h]
    simp [offsets, h]
  · rw [if_neg h]
    simp [offsets, h]

theorem ptrPlace_zero (b : MemBlock) : ptrPlace b 0 = some 0 := by
  cases b with
  | aggregate b => rw [ptrPlace, Debug.ptrPlace, if_pos rfl]
  | fiBlock o => rfl
  | scalar o => rfl

/-- the object for an offset, and what a block says afterwards -/
theorem getPtrObjectAt_place (b : MemBlock) (offset : Nat) :
    (getPtrObjectAt b offset).bind Prod.fst = ptrPlace b offset ∧
      ∀ r, getPtrObjectAt b offset = some r → ∀ o, ptrPlace r.2 o = ptrPlace b o := by
  cases b with
  | aggregate b =>
    obtain ⟨hplace, hlayout⟩ := Debug.getPtrObjectAt_place b offset
    refine ⟨?_, fun r hr o => ?_⟩
    · rw [getPtrObjectAt, Option.bind_map]
      exact hplace
    · obtain ⟨q, hq, rfl⟩ := Option.map_eq_some_iff.mp hr
      show Debug.ptrPlace q.2.layout o = _
      rw [hlayout q hq]
      rfl
  | fiBlock o =>
    refine ⟨rfl, ?_⟩
    rintro r ⟨⟩ o
    rfl
  | scalar o =>
    refine ⟨rfl, ?_⟩
    rintro r ⟨⟩ o
    rfl

/-! ## the pointers of one type -/

/-- what holds between two of the pointers -/
structure Inv (b : MemBlock) (S : List (Ty n)) (done : List Nat) (s : Init n) : Prop where
  places : ∀ o, ptrPlace s.block o = ptrPlace b o
  nodes : ∀ f, f ∈ s.nodes ↔ ∃ o ∈ 0 :: done, ptrPlace b o = some f
  typeTree : s.typeTree = S
  children : ∀ c ∈ s.children, Fresh S c.2

/-- if the call returns, then with an object iff the type is not on the stack, and the stack is as before -/
def Answers (alloc : Option (Ty n) → List (Ty n) → Option (Option (AnonObj n) × List (Ty n)))
    (T : Option (Ty n)) (S : List (Ty n)) : Prop :=
  ∀ r, alloc T S = some r →
    r.2 = S ∧ (r.1.isSome ↔ ∃ W, T = some W ∧ W ∉ S) ∧ ∀ obj ∈ r.1, Fresh S obj

theorem Inv.start (b : MemBlock) (S : List (Ty n)) : Inv b S [] ⟨b, [0], S, []⟩ where
  places _ := rfl
  nodes f := by
    rw [List.mem_singleton]
    constructor
    · rintro rfl
      exact ⟨0, List.mem_cons_self, ptrPlace_zero b⟩
    · rintro ⟨o, ho, hf⟩
      rw [List.mem_singleton.mp ho, ptrPlace_zero] at hf
      exact (Option.some.inj hf).symm
  typeTree := rfl
  children _ h := absurd h List.not_mem_nil

section
variable {alloc : Option (Ty n) → List (Ty n) → Option (Option (AnonObj n) × List (Ty n))}
  {b : MemBlock} {S : List (Ty n)} {done : List Nat} {s : Init n} {x : Nat × Fin n}

/-- a pointer for which nothing is allocated -/
theorem Inv.skip (hs : Inv b S done s) (ha : Answers alloc (getUnboundedArrayTy (tbl x.2)) S)
    (hx : followed tbl S x.2 = false) :
    ((allocPointee tbl alloc s x).isSome ↔ (alloc (getUnboundedArrayTy (tbl x.2)) S).isSome) ∧
      ∀ s', allocPointee tbl alloc s x = some s' → Inv b S done s' := by
  rw [allocPointee, hs.typeTree]
  cases halloc : alloc (getUnboundedArrayTy (tbl x.2)) S with
  | none => exact ⟨Iff.rfl, by exact nofun⟩
  | some r =>
    obtain ⟨child, typeTree⟩ := r
    obtain ⟨rfl, hchild, -⟩ := ha _ halloc
    have hnone : child = none := by
      rw [← Option.not_isSome_iff_eq_none, hchild, ← followed_iff, hx]
      exact Bool.false_ne_true
    subst hnone
    refine ⟨iff_of_true rfl rfl, ?_⟩
    rintro _ ⟨⟩
    exact ⟨hs.places, hs.nodes, rfl, hs.children⟩

/-- a pointer for which there is an object -/
theorem Inv.child (hs : Inv b S done s) (ha : Answers alloc (getUnboundedArrayTy (tbl x.2)) S)
    (hx : followed tbl S x.2 = true) :
    ((allocPointee tbl alloc s x).isSome ↔ (alloc (getUnboundedArrayTy (tbl x.2)) S).isSome ∧
      (ptrPlace b x.1).isSome ∧ ∀ o ∈ 0 :: done, ptrPlace b o = ptrPlace b x.1 → x.1 = 0) ∧
      ∀ s', allocPointee tbl alloc s x = some s' → Inv b S (done ++ [x.1]) s' := by
  rw [allocPointee, hs.typeTree]
  cases halloc : alloc (getUnboundedArrayTy (tbl x.2)) S with
  | none => exact ⟨⟨by exact nofun, fun h => h.1⟩, by exact nofun⟩
  | some r =>
    obtain ⟨child, typeTree⟩ := r
    obtain ⟨rfl, hchild, hfresh⟩ := ha _ halloc
    obtain ⟨child, rfl⟩ := Option.isSome_iff_exists.mp (hchild.mpr (followed_iff.mp hx))
    obtain ⟨hobject, hblock⟩ := getPtrObjectAt_place s.block x.1
    rw [hs.places] at hobject
    simp only [Option.bind_eq_bind, Option.bind_some]
    cases hget : getPtrObjectAt s.block x.1 with
    | none =>
      rw [hget] at hobject
      refine ⟨⟨by exact nofun, fun h => ?_⟩, by exact nofun⟩
      rw [← hobject] at h
      exact h.2.1
    | some q =>
      obtain ⟨object, block⟩ := q
      rw [hget] at hobject
      cases object with
      | none =>
        refine ⟨⟨by exact nofun, fun h => ?_⟩, by exact nofun⟩
        rw [← hobject] at h
        exact h.2.1
      | some f =>
        have hf : ptrPlace b x.1 = some f := hobject.symm
        have hmem : f ∈ s.nodes ↔ ∃ o ∈ 0 :: done, ptrPlace b o = ptrPlace b x.1 := by
          rw [hs.nodes, hf]
        have hguard : (f ∈ s.nodes → x.1 = 0) ↔
            ∀ o ∈ 0 :: done, ptrPlace b o = ptrPlace b x.1 → x.1 = 0 := by
          rw [hmem]
          exact ⟨fun h o ho heq => h ⟨o, ho, heq⟩, fun h ⟨o, ho, heq⟩ => h o ho heq⟩
        simp only [Option.bind_some]
        by_cases hg : f ∈ s.nodes → x.1 = 0
        · rw [guard, if_pos hg]
          refine ⟨iff_of_true rfl ⟨rfl, by rw [hf]; rfl, hguard.mp hg⟩, ?_⟩
          rintro _ ⟨⟩
          refine ⟨fun o => (hblock _ hget o).trans (hs.places o), fun f' => ?_, rfl, ?_⟩
          · have hnew : (f' ∈ if f ∈ s.nodes then s.nodes else f :: s.nodes) ↔
                f' ∈ s.nodes ∨ f = f' := by
              split
              · next hf => exact ⟨.inl, fun h => h.elim id fun h => h ▸ hf⟩
              · rw [List.mem_cons, or_comm, eq_comm]
            rw [← List.cons_append]
            simp only [List.mem_append, or_and_right, exists_or, List.mem_singleton, exists_eq_left, hf,
              Option.some.injEq]
            rw [hnew, hs.nodes]
          · intro c hc
            rcases List.mem_append.mp hc with hc | hc
            · exact hs.children c hc
            · rw [List.mem_singleton.mp hc]
              exact hfresh child rfl
        · rw [guard, if_neg hg]
          exact ⟨⟨by exact nofun, fun h => absurd (hguard.mpr h.2.2) hg⟩, by exact nofun⟩

/-- the loop over the pointers returns iff the calls do and each pointer that is followed has an object -/
theorem foldlM_allocPointee (l : List (Nat × Fin n))
    (ha : ∀ x ∈ l, Answers alloc (getUnboundedArrayTy (tbl x.2)) S) :
    ((l.foldlM (allocPointee tbl alloc) ⟨b, [0], S, []⟩).isSome ↔
      (∀ x ∈ l, (alloc (getUnboundedArrayTy (tbl x.2)) S).isSome) ∧ Served b (offsets tbl S l)) ∧
      ∀ s', l.foldlM (allocPointee tbl alloc) ⟨b, [0], S, []⟩ = some s' → Inv b S (offsets tbl S l) s' := by
  induction l using List.reverseRecOn with
  | nil =>
    refine ⟨iff_of_true rfl ⟨fun x hx => absurd hx List.not_mem_nil, fun o ho => absurd ho List.not_mem_nil,
      List.pairwise_singleton _ _⟩, ?_⟩
    rintro _ ⟨⟩
    exact .start b S
  | append_singleton l x ih =>
    have hlast := ha x (List.mem_append_right _ (List.mem_singleton_self x))
    obtain ⟨hsome, hinv⟩ := ih fun y hy => ha y (List.mem_append_left _ hy)
    rw [List.foldlM_append, List.forall_mem_append, List.forall_mem_singleton, offsets_concat]
    cases hfold : l.foldlM (allocPointee tbl alloc) ⟨b, [0], S, []⟩ with
    | none =>
      rw [hfold] at hsome
      refine ⟨⟨by exact nofun, fun h => ?_⟩, by exact nofun⟩
      refine hsome.mpr ⟨h.1.1, ?_⟩
      have hserved := h.2
      split at hserved
      · exact (Served.concat.mp hserved).1
      · exact hserved
    | some s =>
      rw [hfold] at hsome
      obtain ⟨hcalls, hserved⟩ := hsome.mp rfl
      have hs := hinv s hfold
      have hone : (some s >>= fun s => [x].foldlM (allocPointee tbl alloc) s) =
          allocPointee tbl alloc s x := by
        rw [Option.bind_eq_bind, Option.bind_some, List.foldlM_cons]
        exact bind_pure _
      rw [hone]
      by_cases hx : followed tbl S x.2 = true
      · obtain ⟨hiff, hnext⟩ := hs.child hlast hx
        rw [if_pos hx]
        refine ⟨?_, hnext⟩
        rw [hiff, Served.concat, and_iff_right hcalls, and_iff_right hserved]
      · obtain ⟨hiff, hnext⟩ := hs.skip hlast (Bool.not_eq_true _ ▸ hx)
        rw [if_neg hx]
        refine ⟨?_, hnext⟩
        rw [hiff, and_iff_right hcalls, and_iff_left hserved]

end

/-! ## one call -/

section
variable {fuel : Nat} {T : Ty n} {S : List (Ty n)}

theorem allocAnonObjRec_mem (hT : T ∈ S) : allocAnonObjRec tbl (fuel + 1) (some T) S = some (none, S) := by
  rw [allocAnonObjRec, if_pos hT]

/-- a type with a block has a size, if it is not a structure without a body -/
theorem irType_of_allocBlock {b : MemBlock} (hb : allocBlock T = some b) (hT : T.isBodiless = false) :
    T.irType.isSome := by
  have hagg : ∀ U : Ty n, (do
      let T ← U.irType
      let r ← Debug.getLayoutForType .empty T
      return MemBlock.aggregate (.new r.1)) = some b → U.irType.isSome := by
    intro U h
    obtain ⟨V, hV, -⟩ := Option.bind_eq_some_iff.mp h
    rw [hV]
    rfl
  cases T with
  | other _ _ _ _ => rw [Ty.irType]; rfl
  | pointer _ _ _ => rw [Ty.irType]; rfl
  | array _ _ => exact hagg _ hb
  | struct _ _ _ => exact hagg _ hb
  | bodiless _ => cases hT

/-- a type that is not on the stack returns iff it is good and the calls for its pointers return -/
theorem allocAnonObjRec_step (hT : T ∉ S)
    (ha : ∀ x ∈ T.pointers, Answers (allocAnonObjRec tbl fuel) (getUnboundedArrayTy (tbl x.2)) (S ++ [T])) :
    ((allocAnonObjRec tbl (fuel + 1) (some T) S).isSome ↔ Good tbl T S ∧ ∀ x ∈ T.pointers,
      (allocAnonObjRec tbl fuel (getUnboundedArrayTy (tbl x.2)) (S ++ [T])).isSome) ∧
      ∀ r, allocAnonObjRec tbl (fuel + 1) (some T) S = some r →
        r.2 = S ∧ ∃ obj, r.1 = some obj ∧ Fresh S obj := by
  rw [allocAnonObjRec, if_neg hT]
  cases hb : allocBlock T with
  | none =>
    refine ⟨⟨by exact nofun, fun h => ?_⟩, by exact nofun⟩
    obtain ⟨-, b, hb', -⟩ := h.1
    cases hb.symm.trans hb'
  | some b =>
    rw [Option.bind_eq_bind, Option.bind_some]
    cases hbody : T.isBodiless with
    | true =>
      obtain ⟨name, rfl⟩ : ∃ name, T = .bodiless name := by
        cases T with
        | bodiless name => exact ⟨name, rfl⟩
        | _ => cases hbody
      refine ⟨⟨by exact nofun, fun h => ?_⟩, by exact nofun⟩
      cases hbody.symm.trans h.1.1
    | false =>
      have hgood : Good tbl T S ↔ Served b (offsets tbl (S ++ [T]) T.pointers) := by
        rw [Good, hb]
        refine ⟨?_, fun h => ⟨hbody, b, rfl, h⟩⟩
        rintro ⟨-, _, ⟨⟩, h⟩
        exact h
      obtain ⟨hiff, hinv⟩ := foldlM_allocPointee (b := b) T.pointers ha
      rw [allocChildren_eq (irType_of_allocBlock hb hbody) (List.mem_singleton_self 0), hgood,
        ← hiff.trans and_comm]
      cases hfold : T.pointers.foldlM (allocPointee tbl (allocAnonObjRec tbl fuel))
          ⟨b, [0], S ++ [T], []⟩ with
      | none => exact ⟨Iff.rfl, by exact nofun⟩
      | some s =>
        have hs := hinv s hfold
        refine ⟨iff_of_true rfl rfl, ?_⟩
        rintro _ ⟨⟩
        dsimp only
        rw [hs.typeTree, List.dropLast_concat]
        exact ⟨rfl, _, rfl, .typed hT hs.children⟩

/-- every call answers -/
theorem answers (fuel : Nat) (T : Option (Ty n)) (S : List (Ty n)) :
    Answers (allocAnonObjRec tbl fuel) T S := by
  induction fuel generalizing T S with
  | zero => exact fun r hr => by cases hr
  | succ fuel ih =>
    intro r hr
    cases T with
    | none =>
      cases hr
      refine ⟨rfl, ⟨by exact nofun, ?_⟩, by exact nofun⟩
      rintro ⟨W, ⟨⟩, -⟩
    | some T =>
      by_cases hT : T ∈ S
      · rw [allocAnonObjRec_mem hT] at hr
        cases hr
        refine ⟨rfl, ⟨by exact nofun, ?_⟩, by exact nofun⟩
        rintro ⟨W, ⟨⟩, hW⟩
        exact absurd hT hW
      · obtain ⟨htree, obj, hobj, hfresh⟩ := (allocAnonObjRec_step hT fun x _ => ih _ _).2 r hr
        refine ⟨htree, ?_, ?_⟩
        · rw [hobj]
          exact iff_of_true rfl ⟨T, rfl, hT⟩
        · rw [hobj]
          rintro _ ⟨⟩
          exact hfresh

end

/-! ## all calls -/

open Filter

theorem eventually_of_succ {P : Nat → Prop} (h : ∀ᶠ k in atTop, P (k + 1)) : ∀ᶠ k in atTop, P k := by
  rw [← map_add_atTop_eq_nat 1]
  exact eventually_map.mpr h

/-- every type that the recursion comes to from the type is good -/
def AllGood (tbl : Fin n → Ty n) (T : Option (Ty n)) (S : List (Ty n)) : Prop :=
  ∀ U, T = some U → ∀ V S', Comes tbl U S V S' → Good tbl V S'

theorem AllGood.pointee {T : Ty n} {S : List (Ty n)} (h : AllGood tbl (some T) S) (hT : T ∉ S)
    {x : Nat × Fin n} (hx : x ∈ T.pointers) :
    AllGood tbl (getUnboundedArrayTy (tbl x.2)) (S ++ [T]) :=
  fun _ hW V S' hV => h T rfl V S' (.there hT hx hW hV)

theorem allGood_of_returns (fuel : Nat) (T : Option (Ty n)) (S : List (Ty n))
    (h : (allocAnonObjRec tbl fuel T S).isSome) : AllGood tbl T S := by
  induction fuel generalizing T S with
  | zero => cases h
  | succ fuel ih =>
    rintro T rfl V S' hV
    cases hV with
    | here hT => exact ((allocAnonObjRec_step hT fun x _ => answers fuel _ _).1.mp h).1
    | there hT hx hW hV =>
      have hcall := ((allocAnonObjRec_step hT fun x _ => answers fuel _ _).1.mp h).2 _ hx
      exact ih _ _ hcall _ hW V S' hV

/-- with fuel left over, the call of a good type returns if the calls for its pointers do -/
theorem eventually_returns {T : Option (Ty n)} {S : List (Ty n)} (h : AllGood tbl T S)
    (hcalls : ∀ U, T = some U → U ∉ S → ∀ x ∈ U.pointers, ∀ᶠ k in atTop,
      (allocAnonObjRec tbl k (getUnboundedArrayTy (tbl x.2)) (S ++ [U])).isSome) :
    ∀ᶠ k in atTop, (allocAnonObjRec tbl k T S).isSome := by
  refine eventually_of_succ ?_
  cases T with
  | none => exact Eventually.of_forall fun k => rfl
  | some T =>
    by_cases hT : T ∈ S
    · refine Eventually.of_forall fun k => ?_
      rw [allocAnonObjRec_mem hT]
      rfl
    · have hall : ∀ᶠ k in atTop, ∀ x ∈ T.pointers.toFinset,
          (allocAnonObjRec tbl k (getUnboundedArrayTy (tbl x.2)) (S ++ [T])).isSome := by
        rw [eventually_all_finset]
        exact fun x hx => hcalls T rfl hT x (List.mem_toFinset.mp hx)
      refine hall.mono fun k hk => ?_
      refine (allocAnonObjRec_step hT fun x _ => answers k _ _).1.mpr
        ⟨h T rfl T S (.here hT), fun x hx => ?_⟩
      exact hk x (List.mem_toFinset.mpr hx)

/-- the array that is allocated for a pointer to type number `k`, if there is one -/
abbrev wrap (tbl : Fin n → Ty n) (k : Fin n) : Ty n := .array sizeMax (tbl k)

theorem getUnboundedArrayTy_eq_some {T W : Ty n} (h : getUnboundedArrayTy T = some W) :
    W = .array sizeMax T := by
  rw [getUnboundedArrayTy, getBoundedArrayTy] at h
  split at h
  · exact (Option.some.inj h).symm
  · cases h

/-- by induction on how many of the arrays are not on the stack -/
theorem eventually_wrap_returns (k : Nat) (S : List (Ty n)) (j : Fin n)
    (hk : (Finset.univ.filter fun i => wrap tbl i ∉ S).card = k)
    (h : AllGood tbl (getUnboundedArrayTy (tbl j)) S) :
    ∀ᶠ fuel in atTop, (allocAnonObjRec tbl fuel (getUnboundedArrayTy (tbl j)) S).isSome := by
  induction k using Nat.strong_induction_on generalizing S j with
  | _ k ih =>
    refine eventually_returns h fun W hW hmem x hx => ?_
    refine ih _ ?_ (S ++ [W]) x.2 rfl ((hW ▸ h : AllGood tbl (some W) S).pointee hmem hx)
    obtain rfl := getUnboundedArrayTy_eq_some hW
    rw [← hk]
    refine Finset.card_lt_card (Finset.ssubset_iff_of_subset ?_ |>.mpr ⟨j, ?_, ?_⟩)
    · intro i hi
      rw [Finset.mem_filter] at hi ⊢
      exact ⟨hi.1, fun h => hi.2 (List.mem_append_left _ h)⟩
    · exact Finset.mem_filter.mpr ⟨Finset.mem_univ j, hmem⟩
    · intro hj
      exact (Finset.mem_filter.mp hj).2 (List.mem_append_right _ (List.mem_singleton_self _))

theorem all_eventually_returns {T : Option (Ty n)} {S : List (Ty n)} (h : AllGood tbl T S) :
    ∀ᶠ k in atTop, (allocAnonObjRec tbl k T S).isSome :=
  eventually_returns h fun U hU hmem x hx =>
    eventually_wrap_returns _ _ x.2 rfl ((hU ▸ h : AllGood tbl (some U) S).pointee hmem hx)

/-- A call of the recursion returns, with enough fuel, iff at every type that it comes to there is a block
with an object of its own for each pointer that is followed.  It leaves `typeTree` as it was then, and on a
way down from the object that it returns no two objects have one type, and none has a type of
`typeTree`. -/
theorem allocAnonObjRec_returns_iff (tbl : Fin n → Ty n) (T : Option (Ty n)) (typeTree : List (Ty n)) :
    (∃ fuel, ∀ k ≥ fuel, ∃ objNode, allocAnonObjRec tbl k T typeTree = some (objNode, typeTree) ∧
      ∀ obj ∈ objNode, ∀ path, obj.Path path → path.Nodup ∧ ∀ U ∈ path, U ∉ typeTree) ↔
    ∀ U, T = some U → ∀ V S, Comes tbl U typeTree V S → Good tbl V S := by
  rw [← eventually_atTop]
  constructor
  · intro h
    obtain ⟨k, objNode, halloc, -⟩ := h.exists
    exact allGood_of_returns k T typeTree (by rw [halloc]; rfl)
  · intro h
    refine (all_eventually_returns h).mono fun k hk => ?_
    obtain ⟨⟨objNode, S⟩, hr⟩ := Option.isSome_iff_exists.mp hk
    obtain ⟨rfl, -, hfresh⟩ := answers k T typeTree _ hr
    exact ⟨objNode, hr, hfresh⟩

/-! ### two types -/

/-- `i8` -/
def bytes : Fin 1 → Ty 1 := fun _ => .other true false 8 1

/-- `{ i64, [0 x i8*] }` -/
def pointersBehind : Ty 1 :=
  .struct 0 [(0, .other true false 64 8), (8, .array 0 (.pointer 0 8 0))] 8

/-- the pointer is at the end of the structure, where it has no object -/
theorem allocAnonObjRec_pointersBehind : (∃ U, pointersBehind.irType = some U ∧ IRType.SizedBlock U) ∧
    ∀ fuel, allocAnonObjRec bytes fuel (some pointersBehind) [] = none := by
  refine ⟨⟨_, rfl, .bounded rfl (.struct (by decide) (by decide) (by decide) fun f hf => ?_)⟩,
    fun fuel => ?_⟩
  · rcases List.mem_pair.mp hf with rfl | rfl
    · exact .scalar (by decide) (by decide)
    · exact .array (by decide) (by decide) (.pointer (by decide) (by decide))
  · rw [← Option.not_isSome_iff_eq_none]
    intro h
    obtain ⟨-, b, hb, hserved⟩ := allGood_of_returns fuel _ _ h _ rfl _ _ (.here List.not_mem_nil)
    have hobject := hserved.object 8 (by decide +kernel)
    have hnone : (allocBlock pointersBehind).bind (ptrPlace · 8) = none := by decide +kernel
    rw [hb, Option.bind_some] at hnone
    rw [hnone] at hobject
    cases hobject

/-- `link_list {link_list *next; int}` -/
def linkList : Fin 1 → Ty 1 := fun _ => .struct 0 [(0, .pointer 0 8 0), (8, .other true false 32 4)] 16

example : allocAnonObj linkList 4 (some (linkList 0)) true =
    some (.typed (linkList 0) [(0, .typed (.array sizeMax (linkList 0)) [])]) := by
  rfl

end AserPTA.AnonObjects
