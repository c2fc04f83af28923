import AserPTA.MemoryModel.MemBlock
import AserPTA.Program.OffsetTargets

/-!
# FSMemModel

The field-sensitive memory model has a block for every allocation site, and a block makes an object when
it is first asked for.  The analysis knows an object by its block and its offset instead, and takes from
an object and a `getelementptr` the same field, whatever has been asked before.

* `BlockType`, `Blocks`      the blocks of a run and the queries that fill them;
* `BlockType.indexObject`    the offset of the object that a query gives;
* `Allocation`               the allocation sites of a run, with their types;
* `fsMemModel`               the memory model of the analysis;
* `Blocks.Reach.fits`        what the blocks keep;
* `Blocks.Reach.refines`     they give the objects that the memory model says.
-/

namespace AserPTA

open IRType MemBlock

variable {Ctx Val : Type}

/-! ## blocks -/

/-- The block of an allocation: a structure or an array, a value whose type is not known, opaque or a
vector, or else a scalar, as functions are. -/
inductive BlockType where
  | aggregate (T : IRType)
  | fieldInsensitive
  | scalar

/-- an object, by its allocation site and its place in the block -/
abbrev Place (Ctx Val : Type) := (Ctx × Val) × Nat

structure Blocks (Ctx Val : Type) where
  layoutManager : MemLayoutManager := .empty
  memBlockMap : Ctx × Val → Option MemBlock := fun _ => none

namespace Blocks

section
variable [DecidableEq Ctx] [DecidableEq Val] (m : Blocks Ctx Val)

def insert (site : Ctx × Val) (block : MemBlock) : Blocks Ctx Val :=
  { m with memBlockMap := Function.update m.memBlockMap site (some block) }

/-- the block must be new -/
def allocMemBlock (site : Ctx × Val) (type : BlockType) : Option (Blocks Ctx Val) :=
  match m.memBlockMap site with
  | some _ => none
  | none =>
    match type with
    | .aggregate T =>
      let r := m.layoutManager.getLayoutForType T
      some ({ m with layoutManager := r.2 }.insert site (.aggregate (.new r.1)))
    | .fieldInsensitive => some (m.insert site (.fiBlock ⟨0, 0⟩))
    | .scalar => some (m.insert site (.scalar ⟨0, 0⟩))

/-- `getMemBlock`, and what is asked of the block -/
def query (site : Ctx × Val) (f : MemBlock → Option (Option Nat × MemBlock)) :
    Option (Option (Place Ctx Val) × Blocks Ctx Val) := do
  let b ← m.memBlockMap site
  let r ← f b
  return (r.1.map (site, ·), m.insert site r.2)

def getObjectAt (site : Ctx × Val) (offset : Nat) := m.query site (·.getObjectAt offset)

def getPtrObjectAt (site : Ctx × Val) (offset : Nat) := m.query site (·.getPtrObjectAt offset)

def indexObject (obj : Place Ctx Val) (gep : GepIndex) := m.query obj.1 (·.indexObject obj.2 gep)

end

/-- the object that the analysis sees -/
def object (m : Blocks Ctx Val) (obj : Place Ctx Val) : Option (FSObject Ctx Val) :=
  (m.memBlockMap obj.1).bind fun b => (b.object obj.2).map fun o => ⟨obj.1.1, obj.1.2, o.pOffset⟩

end Blocks

/-! ## offsets -/

/-- the offset of the object at an offset of a block -/
def offsetAt (T : IRType) (pOffset : Nat) : Option Nat :=
  if pOffset = 0 then some 0
  else
    let r := (layoutOf T).indexPhysicalOffset pOffset
    if r.1 ∈ (layoutOf T).elementLayout then some r.2 else none

namespace BlockType

def getObjectAt : BlockType → Nat → Option Nat
  | aggregate T, offset => offsetAt T offset
  | fieldInsensitive, _ => some 0
  | scalar, offset => if offset = 0 then some 0 else none

/-- of the object at an offset; in a block that is no aggregate there is one object, at offset 0 -/
def indexObject : BlockType → Nat → GepIndex → Option Nat
  | aggregate T, p, .const offset => offsetAt T ((p + offset) % 2 ^ 64).toNat
  | aggregate T, p, .var stepSize =>
    if isArrayExistAtOffset (layoutOf T).subArrays p stepSize then some p else none
  | fieldInsensitive, _, _ => some 0
  | scalar, _, .const offset => if offset % 2 ^ 64 = 0 then some 0 else none
  | scalar, _, .var _ => none

/-- the data layout gives the type a size, there is something at offset 0, and the code can store the
layout -/
def Ok (type : BlockType) : Prop :=
  ∀ T, type = .aggregate T → BlockOk T ∧ (∃ π, Leaf T π 0) ∧ T.Narrow

/-- the block is one of the type -/
def Has : BlockType → MemBlock → Prop
  | aggregate T, .aggregate b => Objects T b
  | fieldInsensitive, .fiBlock o => o = ⟨0, 0⟩
  | scalar, .scalar o => o = ⟨0, 0⟩
  | _, _ => False

end BlockType

/-- The allocation sites of a run, with the types of their blocks, and what the `getelementptr`s add to
an offset. -/
structure Allocation (Ctx Val : Type) where
  sites : Finset (Ctx × Val)
  type : Ctx × Val → BlockType
  gep : Val → GepIndex
  ok : ∀ site ∈ sites, (type site).Ok

/-! ## what a block gives -/

theorem IRType.BlockOk.slot_lt {T : IRType} (hT : BlockOk T) {π : List Step} {p c l : Nat}
    (hslot : Slot T π p c l) : c < 2 ^ 63 := by
  have hwf : ∀ {U : IRType} {ρ q}, Wf U → Slot U ρ q c l → c < 2 ^ 63 := by
    intro U ρ q hU h
    obtain ⟨hlt, -, heq⟩ := hU.indexed.slot _ _ _ _ h
    have hle : c ≤ q := by
      have h := (hU.indexed.bound q hlt).2.2
      rwa [heq] at h
    have hsize := hU.size_lt
    omega
  cases hT with
  | bounded _ h => exact hwf h hslot
  | unbounded _ he =>
    obtain ⟨i, -, ρ, q, -, -, hq⟩ := slot_array.mp hslot
    exact hwf he hq

theorem offsetAt_lt {T : IRType} (hT : BlockOk T) {p c : Nat} (h : offsetAt T p = some c) :
    c < 2 ^ 63 := by
  unfold offsetAt at h
  split at h
  · cases h
    decide
  · dsimp only at h
    split at h
    · rename_i hmem
      cases h
      obtain ⟨π, hslot⟩ := hT.slot_of_element hmem
      exact hT.slot_lt hslot
    · cases h

namespace Objects

variable {T : IRType} {b : AggregateMemBlock}

theorem lookup_offset (hb : Objects T b) (hT : BlockOk T) (p : Nat) :
    Option.Rel (fun f c => ∃ l, (b.lookup p).2.object f = some ⟨c, l⟩)
      (b.lookup p).1 (offsetAt T p) := by
  unfold AggregateMemBlock.lookup offsetAt
  split
  · exact .some ⟨0, hb.first⟩
  · rw [hb.layout]
    dsimp only
    by_cases hmem : ((layoutOf T).indexPhysicalOffset p).1 ∈ (layoutOf T).elementLayout
    · obtain ⟨f, hf⟩ := Option.isSome_iff_exists.mp (MemLayout.elementNumber_isSome.mpr hmem)
      obtain ⟨π, hslot⟩ := hT.slot_of_element hmem
      rw [if_pos hmem, hf]
      exact .some ⟨_, hb.object_in_place hT hslot hf⟩
    · have hf : (layoutOf T).elementNumber ((layoutOf T).indexPhysicalOffset p).1 = none := if_neg hmem
      rw [if_neg hmem, hf]
      exact .none

/-- objects are not replaced -/
theorem object_asked {f : Nat} {o : FieldObj} (h : b.object f = some o) (q : Query) :
    (b.asked q).object f = some o := by
  cases q with
  | object p =>
    unfold AggregateMemBlock.asked AggregateMemBlock.lookup
    dsimp only
    split
    · exact h
    · split
      · exact object_objectIn h
      · exact h
  | ptrObject p =>
    unfold AggregateMemBlock.asked AggregateMemBlock.lookupPtr
    dsimp only
    split
    · exact h
    · split
      · split
        · exact object_objectIn h
        · exact h
      · exact h

end Objects

namespace BlockType

variable {type : BlockType} {b : MemBlock}

/-- what a block of the type answers to a query: an object at the offset, and it keeps the ones it has -/
structure Answers (type : BlockType) (b : MemBlock) (offset : Option Nat) (r : Option Nat × MemBlock) :
    Prop where
  has : type.Has r.2
  keeps : ∀ f o, b.object f = some o → r.2.object f = some o
  result : Option.Rel (fun f c => ∃ l, r.2.object f = some ⟨c, l⟩) r.1 offset

theorem Has.getObjectAt (hok : type.Ok) (h : type.Has b) (offset : Nat) :
    ∃ r, b.getObjectAt offset = some r ∧ type.Answers b (type.getObjectAt offset) r := by
  cases type with
  | aggregate T =>
    cases b with
    | aggregate b =>
      obtain ⟨hT, -⟩ := hok T rfl
      have hlookup := AggregateMemBlock.indexMemoryBlock_eq (Objects.layout_narrow h) offset
      refine ⟨((b.lookup offset).1, .aggregate (b.lookup offset).2), ?_,
        Objects.asked h (.object offset), fun f o ho => Objects.object_asked ho (.object offset),
        Objects.lookup_offset h hT offset⟩
      rw [MemBlock.getObjectAt, hlookup]
      rfl
    | fiBlock o => cases h
    | scalar o => cases h
  | fieldInsensitive =>
    cases b with
    | fiBlock o =>
      cases h
      exact ⟨_, rfl, rfl, fun f o ho => ho, .some ⟨0, rfl⟩⟩
    | aggregate b => cases h
    | scalar o => cases h
  | scalar =>
    cases b with
    | scalar o =>
      cases h
      refine ⟨_, rfl, rfl, fun f o ho => ho, ?_⟩
      unfold BlockType.getObjectAt
      dsimp only
      split
      · exact .some ⟨0, rfl⟩
      · exact .none
    | aggregate b => cases h
    | fiBlock o => cases h

theorem Has.getPtrObjectAt (hok : type.Ok) (h : type.Has b) (offset : Nat) :
    ∃ r, b.getPtrObjectAt offset = some r ∧ type.Has r.2 ∧
      ∀ f o, b.object f = some o → r.2.object f = some o := by
  cases b with
  | aggregate b =>
    cases type with
    | aggregate T =>
      obtain ⟨hT, -⟩ := hok T rfl
      have hlookup := AggregateMemBlock.indexPtrInMemoryBlock_eq (Objects.layout_narrow h) offset
      refine ⟨((b.lookupPtr offset).1, .aggregate (b.lookupPtr offset).2), ?_,
        Objects.asked h (.ptrObject offset), fun f o ho => Objects.object_asked ho (.ptrObject offset)⟩
      rw [MemBlock.getPtrObjectAt, hlookup]
      rfl
    | fieldInsensitive => cases h
    | scalar => cases h
  | fiBlock o => exact ⟨_, rfl, h, fun f o ho => ho⟩
  | scalar o => exact ⟨_, rfl, h, fun f o ho => ho⟩

theorem Has.indexObject (hok : type.Ok) (h : type.Has b) {f : Nat} {o : FieldObj}
    (ho : b.object f = some o) (gep : GepIndex) :
    ∃ r, b.indexObject f gep = some r ∧ type.Answers b (type.indexObject o.pOffset gep) r := by
  have hzero : ∀ {o' : FieldObj}, o' = ⟨0, 0⟩ → (if f = 0 then some o' else none) = some o →
      f = 0 ∧ o = ⟨0, 0⟩ := by
    intro o' heq ho
    split at ho
    · cases ho
      exact ⟨‹_›, heq⟩
    · cases ho
  cases gep with
  | const offset =>
    have hconst : b.indexObject f (.const offset) =
        b.getObjectAt ((o.pOffset + offset) % 2 ^ 64).toNat := by
      unfold MemBlock.indexObject
      rw [ho]
    rw [hconst]
    cases type with
    | aggregate T => exact h.getObjectAt hok _
    | fieldInsensitive => exact h.getObjectAt hok _
    | scalar =>
      cases b with
      | scalar o' =>
        obtain ⟨-, rfl⟩ := hzero h ho
        have hanswers := h.getObjectAt hok (((0 : Nat) + offset) % 2 ^ 64).toNat
        unfold BlockType.getObjectAt at hanswers
        unfold BlockType.indexObject
        have hiff : ((((0 : Nat) : Int) + offset) % 2 ^ 64).toNat = 0 ↔ offset % 2 ^ 64 = 0 := by omega
        simp only [hiff] at hanswers
        exact hanswers
      | aggregate b => cases h
      | fiBlock o => cases h
  | var stepSize =>
    have hvar : b.indexObject f (.var stepSize) =
        some (if b.validateStepSize o.pOffset stepSize then some f else none, b) := by
      unfold MemBlock.indexObject MemBlock.getObjIndexedByVar
      rw [ho]
    rw [hvar]
    refine ⟨_, rfl, h, fun f o ho => ho, ?_⟩
    cases type with
    | aggregate T =>
      cases b with
      | aggregate b =>
        have hval : (MemBlock.aggregate b).validateStepSize o.pOffset stepSize =
            isArrayExistAtOffset (layoutOf T).subArrays o.pOffset stepSize := by
          show isArrayExistAtOffset b.layout.subArrays _ _ = _
          rw [Placed.layout (Objects.toPlaced h)]
        rw [hval]
        unfold BlockType.indexObject
        dsimp only
        split
        · exact .some ⟨o.lOffset, ho⟩
        · exact .none
      | fiBlock o => cases h
      | scalar o => cases h
    | fieldInsensitive =>
      cases b with
      | fiBlock o' =>
        obtain ⟨rfl, rfl⟩ := hzero h ho
        exact .some ⟨0, ho⟩
      | aggregate b => cases h
      | scalar o => cases h
    | scalar =>
      cases b with
      | scalar o' => exact .none
      | aggregate b => cases h
      | fiBlock o => cases h

end BlockType

/-! ## the memory model of the analysis -/

theorem BlockType.indexObject_lt {type : BlockType} (hok : type.Ok) {p c : Nat} {gep : GepIndex}
    (h : type.indexObject p gep = some c) : c < max (p + 1) (2 ^ 63) := by
  unfold BlockType.indexObject at h
  split at h
  · have hlt := offsetAt_lt (hok _ rfl).1 h
    omega
  · split at h
    · cases h
      omega
    · cases h
  · cases h
    omega
  · split at h
    · cases h
      omega
    · cases h
  · cases h

section
variable [DecidableEq Ctx] [DecidableEq Val]

/-- the objects of the sites, by their offsets of type `size_t` -/
def fsMemModel (A : Allocation Ctx Val) : MemModel (FSObject Ctx Val) (Pointer Ctx Val) where
  indexObject o gep :=
    if (o.context, o.value) ∈ A.sites ∧ o.pOffset < 2 ^ 64 then
      ((A.type (o.context, o.value)).indexObject o.pOffset (A.gep gep.value)).map
        (⟨o.context, o.value, ·⟩)
    else none
  fields := (A.sites ×ˢ Finset.range (2 ^ 64)).image fun p => ⟨p.1.1, p.1.2, p.2⟩
  mem_fields o gep f h := by
    split at h
    · rename_i hsite
      obtain ⟨c, hc, rfl⟩ := Option.map_eq_some_iff.mp h
      have hlt := BlockType.indexObject_lt (A.ok _ hsite.1) hc
      exact Finset.mem_image.mpr ⟨((o.context, o.value), c),
        Finset.mem_product.mpr ⟨hsite.1, Finset.mem_range.mpr (by omega)⟩, rfl⟩
    · cases h

variable {A : Allocation Ctx Val}

theorem fsMemModel_indexObject {o f : FSObject Ctx Val} {gep : Pointer Ctx Val}
    (h : (fsMemModel A).indexObject o gep = some f) :
    (A.type (o.context, o.value)).indexObject o.pOffset (A.gep gep.value) = some f.pOffset ∧
      f.context = o.context ∧ f.value = o.value := by
  unfold fsMemModel at h
  dsimp only at h
  split at h
  · obtain ⟨c, hc, rfl⟩ := Option.map_eq_some_iff.mp h
    exact ⟨hc, rfl, rfl⟩
  · cases h

theorem fsMemModel_keepsBlock : KeepsBlock (fsMemModel A) :=
  fun _ _ _ h => (fsMemModel_indexObject h).2

/-- A function is not indexed, if its block is a scalar and no `getelementptr` adds nothing. -/
theorem fsMemModel_noFunction {Fun Ty : Type} {P : Program Fun Val Ty}
    (hscalar : ∀ C V, (P.asFunction V).isSome = true → A.type (C, V) = .scalar)
    (hgep : ∀ V offset, A.gep V = .const offset → offset % 2 ^ 64 ≠ 0) (o : FSObject Ctx Val)
    (gep : Pointer Ctx Val) (f : FSObject Ctx Val) (h : (fsMemModel A).indexObject o gep = some f) :
    P.asFunction f.value = none := by
  obtain ⟨hc, hctx, hvalue⟩ := fsMemModel_indexObject h
  by_contra hne
  have hsome : (P.asFunction o.value).isSome = true := by
    rw [← hvalue]
    exact Option.isSome_iff_ne_none.mpr hne
  rw [hscalar _ _ hsome] at hc
  cases hg : A.gep gep.value with
  | const offset =>
    rw [hg] at hc
    unfold BlockType.indexObject at hc
    dsimp only at hc
    rw [if_neg (hgep _ _ hg)] at hc
    cases hc
  | var stepSize =>
    rw [hg] at hc
    cases hc

end

/-! ## runs -/

namespace Blocks

variable [DecidableEq Ctx] [DecidableEq Val]

/-- the blocks after any allocations and queries -/
inductive Reach (A : Allocation Ctx Val) : Blocks Ctx Val → Prop where
  | empty : Reach A {}
  | alloc {m m' : Blocks Ctx Val} {site : Ctx × Val} : Reach A m → site ∈ A.sites →
      m.allocMemBlock site (A.type site) = some m' → Reach A m'
  | object {m m' : Blocks Ctx Val} {site : Ctx × Val} {offset : Nat} {r : Option (Place Ctx Val)} :
      Reach A m → m.getObjectAt site offset = some (r, m') → Reach A m'
  | ptrObject {m m' : Blocks Ctx Val} {site : Ctx × Val} {offset : Nat} {r : Option (Place Ctx Val)} :
      Reach A m → m.getPtrObjectAt site offset = some (r, m') → Reach A m'
  | index {m m' : Blocks Ctx Val} {obj : Place Ctx Val} {o : FSObject Ctx Val} {gep : GepIndex}
      {r : Option (Place Ctx Val)} :
      Reach A m → m.object obj = some o → m.indexObject obj gep = some (r, m') → Reach A m'

/-- the blocks are those of the sites, with layouts of their types -/
structure Fits (A : Allocation Ctx Val) (m : Blocks Ctx Val) : Prop where
  consistent : m.layoutManager.Consistent
  block : ∀ site b, m.memBlockMap site = some b → site ∈ A.sites ∧ (A.type site).Has b

variable {A : Allocation Ctx Val} {m m' : Blocks Ctx Val}

theorem query_some {site : Ctx × Val} {f : MemBlock → Option (Option Nat × MemBlock)}
    {r : Option (Place Ctx Val)} (h : m.query site f = some (r, m')) : ∃ b q,
      m.memBlockMap site = some b ∧ f b = some q ∧ r = q.1.map (site, ·) ∧ m' = m.insert site q.2 := by
  obtain ⟨b, hb, h⟩ := Option.bind_eq_some_iff.mp h
  obtain ⟨q, hq, h⟩ := Option.bind_eq_some_iff.mp h
  cases h
  exact ⟨b, q, hb, hq, rfl, rfl⟩

theorem Fits.insert (h : m.Fits A) {site : Ctx × Val} {b : MemBlock} (hsite : site ∈ A.sites)
    (hb : (A.type site).Has b) : (m.insert site b).Fits A := by
  refine ⟨h.consistent, fun site' b' h' => ?_⟩
  replace h' : Function.update m.memBlockMap site (some b) site' = some b' := h'
  by_cases heq : site' = site
  · subst heq
    rw [Function.update_self] at h'
    cases h'
    exact ⟨hsite, hb⟩
  · rw [Function.update_of_ne heq] at h'
    exact h.block site' b' h'

theorem Fits.alloc (h : m.Fits A) {site : Ctx × Val} (hsite : site ∈ A.sites)
    (halloc : m.allocMemBlock site (A.type site) = some m') : m'.Fits A := by
  have hok := A.ok site hsite
  unfold allocMemBlock at halloc
  split at halloc
  · cases halloc
  · cases htype : A.type site with
    | aggregate T =>
      rw [htype] at halloc hok
      cases halloc
      obtain ⟨hT, h0, hnarrow⟩ := hok T rfl
      obtain ⟨hlayout, hcons⟩ := h.consistent.dfsTypeTree T
      have hfits : Fits A { m with layoutManager := (m.layoutManager.getLayoutForType T).2 } :=
        ⟨hcons, h.block⟩
      refine hfits.insert hsite ?_
      rw [htype]
      show Objects T (.new (m.layoutManager.getLayoutForType T).1)
      rw [show (m.layoutManager.getLayoutForType T).1 = layoutOf T from hlayout]
      exact Objects.new hT h0 hnarrow
    | fieldInsensitive =>
      rw [htype] at halloc
      cases halloc
      exact h.insert hsite (by rw [htype]; rfl)
    | scalar =>
      rw [htype] at halloc
      cases halloc
      exact h.insert hsite (by rw [htype]; rfl)

omit [DecidableEq Ctx] [DecidableEq Val] in
/-- what is seen of an object, by its block -/
theorem object_eq_some {obj : Place Ctx Val} {o : FSObject Ctx Val} : m.object obj = some o ↔
    ∃ b f, m.memBlockMap obj.1 = some b ∧ b.object obj.2 = some f ∧ o = ⟨obj.1.1, obj.1.2, f.pOffset⟩ := by
  unfold Blocks.object
  rw [Option.bind_eq_some_iff]
  constructor
  · rintro ⟨b, hb, h⟩
    obtain ⟨f, hf, rfl⟩ := Option.map_eq_some_iff.mp h
    exact ⟨b, f, hb, hf, rfl⟩
  · rintro ⟨b, f, hb, hf, rfl⟩
    exact ⟨b, hb, by rw [hf]; rfl⟩

theorem Reach.fits (h : Reach A m) : m.Fits A := by
  induction h with
  | empty => exact ⟨MemLayoutManager.Consistent.empty, fun _ _ h => by cases h⟩
  | alloc _ hsite halloc ih => exact ih.alloc hsite halloc
  | object _ hq ih =>
    obtain ⟨b, q, hb, hfb, -, rfl⟩ := query_some hq
    obtain ⟨hsite, hhas⟩ := ih.block _ b hb
    obtain ⟨q', hq', hanswers⟩ := hhas.getObjectAt (A.ok _ hsite) _
    obtain rfl := Option.some.inj (hq'.symm.trans hfb)
    exact ih.insert hsite hanswers.has
  | ptrObject _ hq ih =>
    obtain ⟨b, q, hb, hfb, -, rfl⟩ := query_some hq
    obtain ⟨hsite, hhas⟩ := ih.block _ b hb
    obtain ⟨q', hq', hhas', -⟩ := hhas.getPtrObjectAt (A.ok _ hsite) _
    obtain rfl := Option.some.inj (hq'.symm.trans hfb)
    exact ih.insert hsite hhas'
  | index _ ho hq ih =>
    obtain ⟨b, q, hb, hfb, -, rfl⟩ := query_some hq
    obtain ⟨b', f, hb', hf, -⟩ := object_eq_some.mp ho
    rw [hb] at hb'
    cases hb'
    obtain ⟨hsite, hhas⟩ := ih.block _ b hb
    obtain ⟨q', hq', hanswers⟩ := hhas.indexObject (A.ok _ hsite) hf _
    obtain rfl := Option.some.inj (hq'.symm.trans hfb)
    exact ih.insert hsite hanswers.has

end Blocks

/-! ## a local variable with two fields -/

/-- `{ i64, i8* }` -/
def pairStruct : IRType := struct 0 [(0, IRType.scalar 8), (8, pointer 8)] 16

theorem blockOk_pairStruct : BlockOk pairStruct := by
  refine .bounded rfl (.struct (by decide) (by decide) fun f hf => ?_)
  rcases List.mem_pair.mp hf with rfl | rfl
  · exact .scalar (by decide) (by decide)
  · exact .pointer (by decide) (by decide)

/-- the alloca (10), and the `getelementptr`s are to the second field -/
def pairAllocation : Allocation Unit Nat where
  sites := {((), 10)}
  type site := if site.2 = 10 then .aggregate pairStruct else .scalar
  gep _ := .const 8
  ok site hsite T h := by
    cases Finset.mem_singleton.mp hsite
    cases h
    exact ⟨blockOk_pairStruct, ⟨[.field 0], .field rfl .scalar⟩, by decide +kernel⟩

abbrev pairMem : MemModel (FSObject Unit Nat) (Pointer Unit Nat) := fsMemModel pairAllocation

theorem pairMem_indexObject (gep : Pointer Unit Nat) :
    pairMem.indexObject ⟨(), 10, 0⟩ gep = some ⟨(), 10, 8⟩ := by
  have h : (BlockType.aggregate pairStruct).indexObject 0 (.const 8) = some 8 := by decide +kernel
  unfold pairMem fsMemModel
  dsimp only
  rw [if_pos (by decide)]
  exact congrArg (Option.map _) h

end AserPTA
