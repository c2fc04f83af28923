import AserPTA.MemoryModel.ClearLayout

/-!
# Initialisers of globals

The memory model walks through the initialiser of a global and carries the offset along: it adds the
size of every scalar, makes up for padding before a field and starts again at the end of a structure.
What is done with a pointer is left open here.

* `Constant`                the constants, with the values that pointers have;
* `processInitializer`      the walk;
* `pointerLeaves`           the pointers that are neither null nor undefined nor block addresses, with
                            their offsets in the type;
* `processInitializer_eq`   the walk comes to these, in this order;
* `processInitializer_spec` and ends behind the type, and the block has an object for each.
-/

namespace AserPTA
open IRType

/-- a constant whose pointers have values of type `τ` -/
inductive Constant (τ : Type)
  -- a null value, of whatever type, or `undef`
  | skipped (type : IRType)
  -- an integer, a floating point number or a vector
  | scalar (size : Nat)
  | blockAddress (size : Nat)
  -- `canonSize` is the size of the type that the canonical constant has
  | pointer (size canonSize : Nat) (value : τ)
  | dataArray (elementNum elementSize : Nat)
  | array (element : IRType) (elements : List (Constant τ))
  | struct (name : Nat) (fields : List (Nat × Constant τ)) (size : Nat)

namespace Constant

variable {τ σ : Type}

mutual

def type : Constant τ → IRType
  | skipped T => T
  | scalar size => .scalar size
  | blockAddress size => .pointer size
  | pointer size _ _ => .pointer size
  | dataArray n size => .array n (.scalar size)
  | array e elements => .array elements.length e
  | struct name fields size => .struct name (fieldTypes fields) size

def fieldTypes : List (Nat × Constant τ) → List (Nat × IRType)
  | [] => []
  | (off, C) :: rest => (off, type C) :: fieldTypes rest

end

/-- the elements of an array have its element type -/
inductive WellTyped : Constant τ → Prop
  | skipped {T} : WellTyped (skipped T)
  | scalar {size} : WellTyped (scalar size)
  | blockAddress {size} : WellTyped (blockAddress size)
  | pointer {size canonSize value} : WellTyped (pointer size canonSize value)
  | dataArray {n size} : WellTyped (dataArray n size)
  | array {e elements} : (∀ C ∈ elements, type C = e) → (∀ C ∈ elements, WellTyped C) →
      WellTyped (array e elements)
  | struct {name fields size} : (∀ f ∈ fields, WellTyped f.2) → WellTyped (struct name fields size)

/-- canonicalizing a pointer does not change its size -/
inductive SameSize : Constant τ → Prop
  | skipped {T} : SameSize (skipped T)
  | scalar {size} : SameSize (scalar size)
  | blockAddress {size} : SameSize (blockAddress size)
  | pointer {size value} : SameSize (pointer size size value)
  | dataArray {n size} : SameSize (dataArray n size)
  | array {e elements} : (∀ C ∈ elements, SameSize C) → SameSize (array e elements)
  | struct {name fields size} : (∀ f ∈ fields, SameSize f.2) → SameSize (struct name fields size)

/-! ## the walk -/

/-- `StructLayout::hasPadding` -/
def hasPadding : Nat → List (Nat × IRType) → Nat → Bool
  | p, [], size => p != size
  | p, (off, T) :: rest, size => p != off || hasPadding (off + T.allocSize) rest size

/-- the padding before a field; the subtraction may wrap around, but the sum does not -/
def addPadding (padded : Bool) (initOffset elemOffset offset : Nat) : Option Nat :=
  if padded then do
    guard (initOffset ≤ offset)
    return offset + elemOffset - (offset - initOffset)
  else return offset

section
variable (process : τ → Nat → σ → Option σ)

mutual

/-- `processInitializer`, with `processScalarGlobals` and `processAggregateGlobals`; what it does with
a pointer at an offset is `process` -/
def processInitializer : Constant τ → σ → Nat → Option (σ × Nat)
  | skipped T, s, offset => return (s, offset + T.allocSize)
  | scalar size, s, offset => return (s, offset + size)
  | blockAddress size, s, offset => return (s, offset + size)
  | pointer _ canonSize value, s, offset => do
    let s ← process value offset s
    -- the constant was replaced by the canonical one
    return (s, offset + canonSize)
  | dataArray n size, s, offset => return (s, offset + n * size)
  | array _ elements, s, offset => processElements elements s offset
  | struct _ fields size, s, offset => do
    let r ← processFields (hasPadding 0 (fieldTypes fields) size) offset fields s offset
    return (r.1, offset + size)

/-- the operands of an array -/
def processElements : List (Constant τ) → σ → Nat → Option (σ × Nat)
  | [], s, offset => return (s, offset)
  | C :: rest, s, offset => do
    let r ← processInitializer C s offset
    processElements rest r.1 r.2

/-- the operands of a structure -/
def processFields (padded : Bool) (initOffset : Nat) : List (Nat × Constant τ) → σ → Nat →
    Option (σ × Nat)
  | [], s, offset => return (s, offset)
  | (elemOffset, C) :: rest, s, offset => do
    let offset ← addPadding padded initOffset elemOffset offset
    let r ← processInitializer C s offset
    processFields padded initOffset rest r.1 r.2

end

end

/-! ## the pointers of a constant -/

/-- the steps lead to a pointer with the value -/
inductive At : Constant τ → List Step → τ → Prop
  | pointer {size canonSize value} : At (pointer size canonSize value) [] value
  | elem {e elements i C π value} : elements[i]? = some C → At C π value →
      At (array e elements) (.index i :: π) value
  | field {name fields size k off C π value} : fields[k]? = some (off, C) → At C π value →
      At (struct name fields size) (.field k :: π) value

mutual

/-- the steps to each pointer, its offset and its value -/
def pointerLeaves : Constant τ → List (List Step × Nat × τ)
  | skipped _ | scalar _ | blockAddress _ | dataArray _ _ => []
  | pointer _ _ value => [([], 0, value)]
  | array e elements => elementLeaves e.allocSize 0 elements
  | struct _ fields _ => fieldLeaves 0 fields

def elementLeaves (size : Nat) : Nat → List (Constant τ) → List (List Step × Nat × τ)
  | _, [] => []
  | i, C :: rest => (pointerLeaves C).map (fun x => (.index i :: x.1, i * size + x.2.1, x.2.2)) ++
      elementLeaves size (i + 1) rest

def fieldLeaves : Nat → List (Nat × Constant τ) → List (List Step × Nat × τ)
  | _, [] => []
  | k, (off, C) :: rest => (pointerLeaves C).map (fun x => (.field k :: x.1, off + x.2.1, x.2.2)) ++
      fieldLeaves (k + 1) rest

end

theorem fieldTypes_getElem? {fields : List (Nat × Constant τ)} {k : Nat} :
    (fieldTypes fields)[k]? = (fields[k]?).map fun f => (f.1, f.2.type) := by
  induction fields generalizing k with
  | nil => rfl
  | cons f rest ih =>
    obtain ⟨off, C⟩ := f
    cases k with
    | zero => rfl
    | succ k => exact ih

theorem mem_elementLeaves {size i : Nat} {elements : List (Constant τ)} {x : List Step × Nat × τ} :
    x ∈ elementLeaves size i elements ↔ ∃ j C y, elements[j]? = some C ∧ y ∈ pointerLeaves C ∧
      x = (.index (i + j) :: y.1, (i + j) * size + y.2.1, y.2.2) := by
  induction elements generalizing i with
  | nil => simp [elementLeaves]
  | cons C rest ih =>
    rw [elementLeaves, List.mem_append, List.mem_map, ih]
    constructor
    · rintro (⟨y, hy, rfl⟩ | ⟨j, D, y, hD, hy, rfl⟩)
      · exact ⟨0, C, y, rfl, hy, rfl⟩
      · exact ⟨j + 1, D, y, hD, hy, by rw [Nat.add_right_comm, Nat.add_assoc]⟩
    · rintro ⟨j, D, y, hD, hy, rfl⟩
      cases j with
      | zero =>
        obtain rfl := Option.some.inj hD
        exact .inl ⟨y, hy, rfl⟩
      | succ j => exact .inr ⟨j, D, y, hD, hy, by rw [Nat.add_right_comm, Nat.add_assoc]⟩

theorem mem_fieldLeaves {k : Nat} {fields : List (Nat × Constant τ)} {x : List Step × Nat × τ} :
    x ∈ fieldLeaves k fields ↔ ∃ j off C y, fields[j]? = some (off, C) ∧ y ∈ pointerLeaves C ∧
      x = (.field (k + j) :: y.1, off + y.2.1, y.2.2) := by
  induction fields generalizing k with
  | nil => simp [fieldLeaves]
  | cons f rest ih =>
    obtain ⟨off, C⟩ := f
    rw [fieldLeaves, List.mem_append, List.mem_map, ih]
    constructor
    · rintro (⟨y, hy, rfl⟩ | ⟨j, off', D, y, hD, hy, rfl⟩)
      · exact ⟨0, off, C, y, rfl, hy, rfl⟩
      · exact ⟨j + 1, off', D, y, hD, hy, by rw [Nat.add_right_comm, Nat.add_assoc]⟩
    · rintro ⟨j, off', D, y, hD, hy, rfl⟩
      cases j with
      | zero =>
        obtain ⟨rfl, rfl⟩ := Prod.mk.inj (Option.some.inj hD)
        exact .inl ⟨y, hy, rfl⟩
      | succ j => exact .inr ⟨j, off', D, y, hD, hy, by rw [Nat.add_right_comm, Nat.add_assoc]⟩

/-- they are the pointers, with the offsets of the leaves of the type -/
theorem mem_pointerLeaves {C : Constant τ} (h : WellTyped C) {π : List Step} {p : Nat} {value : τ} :
    (π, p, value) ∈ pointerLeaves C ↔ At C π value ∧ Leaf C.type π p := by
  induction h generalizing π p with
  | skipped => exact iff_of_false (by rw [pointerLeaves]; exact List.not_mem_nil) (by rintro ⟨⟨⟩, -⟩)
  | scalar => exact iff_of_false (by rw [pointerLeaves]; exact List.not_mem_nil) (by rintro ⟨⟨⟩, -⟩)
  | blockAddress =>
    exact iff_of_false (by rw [pointerLeaves]; exact List.not_mem_nil) (by rintro ⟨⟨⟩, -⟩)
  | dataArray =>
    exact iff_of_false (by rw [pointerLeaves]; exact List.not_mem_nil) (by rintro ⟨⟨⟩, -⟩)
  | pointer =>
    rw [pointerLeaves, List.mem_singleton, type]
    constructor
    · rintro ⟨⟩
      exact ⟨.pointer, .pointer⟩
    · rintro ⟨⟨⟩, ⟨⟩⟩
      rfl
  | @array e elements htype _ ih =>
    rw [pointerLeaves, mem_elementLeaves, type]
    constructor
    · rintro ⟨j, C, ⟨ρ, q, v⟩, hC, hy, heq⟩
      obtain ⟨rfl, hval⟩ := Prod.mk.inj heq
      obtain ⟨rfl, rfl⟩ := Prod.mk.inj hval
      have hmem := List.mem_of_getElem? hC
      obtain ⟨hat, hleaf⟩ := (ih C hmem).mp hy
      rw [htype C hmem] at hleaf
      have hj := (List.getElem?_eq_some_iff.mp hC).1
      rw [Nat.zero_add]
      exact ⟨.elem hC hat, .elem hj hleaf⟩
    · rintro ⟨hat, hleaf⟩
      cases hat with
      | @elem _ _ i C ρ _ hC hat =>
        cases hleaf with
        | @elem _ _ _ _ q hi hleaf =>
          have hmem := List.mem_of_getElem? hC
          rw [← htype C hmem] at hleaf
          refine ⟨i, C, (ρ, q, value), hC, (ih C hmem).mpr ⟨hat, hleaf⟩, ?_⟩
          rw [Nat.zero_add]
  | @struct name fields size _ ih =>
    rw [pointerLeaves, mem_fieldLeaves, type]
    constructor
    · rintro ⟨j, off, C, ⟨ρ, q, v⟩, hC, hy, heq⟩
      obtain ⟨rfl, hval⟩ := Prod.mk.inj heq
      obtain ⟨rfl, rfl⟩ := Prod.mk.inj hval
      obtain ⟨hat, hleaf⟩ := (ih _ (List.mem_of_getElem? hC)).mp hy
      rw [Nat.zero_add]
      refine ⟨.field hC hat, .field ?_ hleaf⟩
      rw [fieldTypes_getElem?, hC]
      rfl
    · rintro ⟨hat, hleaf⟩
      cases hat with
      | @field _ _ _ k off C ρ _ hC hat =>
        cases hleaf with
        | @field _ _ _ _ off' T _ q hk hleaf =>
          rw [fieldTypes_getElem?, hC] at hk
          obtain ⟨rfl, rfl⟩ := Prod.mk.inj (Option.some.inj hk)
          refine ⟨k, off, C, (ρ, q, value), hC, (ih _ (List.mem_of_getElem? hC)).mpr ⟨hat, hleaf⟩, ?_⟩
          rw [Nat.zero_add]

theorem nodup_elementLeaves {elements : List (Constant τ)}
    (h : ∀ C ∈ elements, ((pointerLeaves C).map Prod.fst).Nodup) (size i : Nat) :
    ((elementLeaves size i elements).map Prod.fst).Nodup := by
  induction elements generalizing i with
  | nil => exact List.nodup_nil
  | cons C rest ih =>
    have hhead := (h C List.mem_cons_self).map (List.cons_injective (a := Step.index i))
    rw [List.map_map] at hhead
    rw [elementLeaves, List.map_append, List.map_map, List.nodup_append]
    refine ⟨hhead, ih (fun D hD => h D (.tail _ hD)) _, fun π hπ ρ hρ heq => ?_⟩
    obtain ⟨x, -, rfl⟩ := List.mem_map.mp hπ
    obtain ⟨y, hy, rfl⟩ := List.mem_map.mp hρ
    obtain ⟨j, D, z, -, -, rfl⟩ := mem_elementLeaves.mp hy
    have hij : i = i + 1 + j := Step.index.inj (List.cons.inj heq).1
    omega

theorem nodup_fieldLeaves {fields : List (Nat × Constant τ)}
    (h : ∀ f ∈ fields, ((pointerLeaves f.2).map Prod.fst).Nodup) (k : Nat) :
    ((fieldLeaves k fields).map Prod.fst).Nodup := by
  induction fields generalizing k with
  | nil => exact List.nodup_nil
  | cons f rest ih =>
    obtain ⟨off, C⟩ := f
    have hhead := (h _ List.mem_cons_self).map (List.cons_injective (a := Step.field k))
    rw [List.map_map] at hhead
    rw [fieldLeaves, List.map_append, List.map_map, List.nodup_append]
    refine ⟨hhead, ih (fun D hD => h D (.tail _ hD)) _, fun π hπ ρ hρ heq => ?_⟩
    obtain ⟨x, -, rfl⟩ := List.mem_map.mp hπ
    obtain ⟨y, hy, rfl⟩ := List.mem_map.mp hρ
    obtain ⟨j, off', D, z, -, -, rfl⟩ := mem_fieldLeaves.mp hy
    have hkj : k = k + 1 + j := Step.field.inj (List.cons.inj heq).1
    omega

/-- no pointer is listed twice -/
theorem nodup_pointerLeaves {C : Constant τ} (h : WellTyped C) :
    ((pointerLeaves C).map Prod.fst).Nodup := by
  induction h with
  | skipped => rw [pointerLeaves]; exact List.nodup_nil
  | scalar => rw [pointerLeaves]; exact List.nodup_nil
  | blockAddress => rw [pointerLeaves]; exact List.nodup_nil
  | dataArray => rw [pointerLeaves]; exact List.nodup_nil
  | pointer => rw [pointerLeaves]; exact List.nodup_singleton _
  | array _ _ ih => rw [pointerLeaves]; exact nodup_elementLeaves ih _ 0
  | struct _ ih => rw [pointerLeaves]; exact nodup_fieldLeaves ih 0

/-! ## the walk comes to every pointer -/

section
variable (process : τ → Nat → σ → Option σ)

/-- doing it for all the pointers of a list, in something that starts at `offset` -/
def processAll (leaves : List (List Step × Nat × τ)) (offset : Nat) (s : σ) : Option σ :=
  leaves.foldlM (fun s x => process x.2.2 (offset + x.2.1) s) s

theorem processAll_append (A B : List (List Step × Nat × τ)) (offset : Nat) (s : σ) :
    processAll process (A ++ B) offset s =
      (processAll process A offset s).bind (processAll process B offset) :=
  List.foldlM_append

/-- the pointers of an element or field that starts at `d` -/
theorem processAll_map (A : List (List Step × Nat × τ)) (step : Step) (d offset : Nat) (s : σ) :
    processAll process (A.map fun x => (step :: x.1, d + x.2.1, x.2.2)) offset s =
      processAll process A (offset + d) s := by
  rw [processAll, List.foldlM_map]
  simp only [← Nat.add_assoc]
  rfl

theorem hasPadding_eq_false {p size off : Nat} {T : IRType} {rest : List (Nat × IRType)}
    (h : hasPadding p ((off, T) :: rest) size = false) :
    p = off ∧ hasPadding (off + T.allocSize) rest size = false := by
  rw [hasPadding, Bool.or_eq_false_iff] at h
  exact ⟨by simpa using h.1, h.2⟩

variable {process}

/-- the elements of an array from number `i` on -/
theorem processElements_eq {elements : List (Constant τ)} {size : Nat}
    (hsize : ∀ C ∈ elements, C.type.allocSize = size)
    (ih : ∀ C ∈ elements, ∀ (s : σ) offset, processInitializer process C s offset =
      (processAll process (pointerLeaves C) offset s).map (·, offset + C.type.allocSize))
    (i offset : Nat) (s : σ) :
    processElements process elements s (offset + i * size) =
      (processAll process (elementLeaves size i elements) offset s).map
        (·, offset + (i + elements.length) * size) := by
  induction elements generalizing i s with
  | nil => rfl
  | cons C rest ihrest =>
    have hC := hsize C List.mem_cons_self
    have hnext : offset + i * size + size = offset + (i + 1) * size := by ring
    have hlen : i + 1 + rest.length = i + (C :: rest).length := by
      rw [List.length_cons]
      omega
    rw [processElements, ih C List.mem_cons_self, hC, elementLeaves, processAll_append,
      processAll_map, hnext]
    cases processAll process (pointerLeaves C) (offset + i * size) s with
    | none => rfl
    | some s' =>
      have h := ihrest (fun D hD => hsize D (.tail _ hD)) (fun D hD => ih D (.tail _ hD)) (i + 1) s'
      rw [hlen] at h
      exact h

/-- the fields of a structure from number `k` on, where the walk stands at `p` -/
theorem processFields_eq {fields : List (Nat × Constant τ)}
    (ih : ∀ f ∈ fields, ∀ (s : σ) offset, processInitializer process f.2 s offset =
      (processAll process (pointerLeaves f.2) offset s).map (·, offset + f.2.type.allocSize))
    {padded : Bool} {p size : Nat} (hpadded : padded = true ∨ hasPadding p (fieldTypes fields) size = false)
    (hfit : FieldsFit p (fieldTypes fields) size) (k offset : Nat) (s : σ) :
    (processFields process padded offset fields s (offset + p)).map Prod.fst =
      processAll process (fieldLeaves k fields) offset s := by
  induction fields generalizing p k s with
  | nil => rfl
  | cons f rest ihrest =>
    obtain ⟨off, C⟩ := f
    obtain ⟨hoff, hrest⟩ := hfit
    have hpad : addPadding padded offset off (offset + p) = some (offset + off) := by
      rw [addPadding]
      split
      · rw [guard, if_pos (Nat.le_add_right _ _), Nat.add_sub_cancel_left,
          show offset + p + off - p = offset + off by omega]
        rfl
      · next h =>
        rw [(hasPadding_eq_false (hpadded.resolve_left h)).1]
        rfl
    rw [processFields, hpad, fieldLeaves, processAll_append, processAll_map]
    show Option.map _ (processInitializer process C s (offset + off) >>= _) = _
    rw [ih _ List.mem_cons_self]
    dsimp only
    cases processAll process (pointerLeaves C) (offset + off) s with
    | none => rfl
    | some s' =>
      have h := ihrest (fun g hg => ih g (.tail _ hg)) (p := off + C.type.allocSize)
        (hpadded.imp_right fun h => (hasPadding_eq_false h).2) hrest (k + 1) s'
      rw [← Nat.add_assoc] at h
      exact h

/-- the walk does it for the pointers, and ends behind the type -/
theorem processInitializer_eq {C : Constant τ} (h : WellTyped C) (hsame : SameSize C)
    (hT : Sized C.type) (offset : Nat) (s : σ) :
    processInitializer process C s offset =
      (processAll process (pointerLeaves C) offset s).map (·, offset + C.type.allocSize) := by
  induction h generalizing offset s with
  | skipped => rw [processInitializer, pointerLeaves, type]; rfl
  | scalar => rw [processInitializer, pointerLeaves, type]; rfl
  | blockAddress => rw [processInitializer, pointerLeaves, type]; rfl
  | dataArray => rw [processInitializer, pointerLeaves, type]; rfl
  | @pointer size canonSize value =>
    cases hsame with
    | pointer =>
    rw [processInitializer, pointerLeaves, type, processAll, List.foldlM_cons]
    show process value offset s >>= _ = Option.map _ (process value offset s >>= _)
    cases process value offset s <;> rfl
  | @array e elements htype _ ih =>
    cases hsame with
    | array hsame =>
    have helem : ∀ C ∈ elements, Sized C.type := by
      intro C hC
      rw [type] at hT
      cases hT with
      | array _ _ he =>
        rw [htype C hC]
        exact he
    have hloop := processElements_eq (fun C hC => congrArg allocSize (htype C hC))
      (fun C hC s offset => ih C hC (hsame C hC) (helem C hC) offset s) 0 offset s
    rw [Nat.zero_mul, Nat.zero_add] at hloop
    rw [processInitializer, pointerLeaves, type]
    exact hloop
  | @struct name fields size _ ih =>
    cases hsame with
    | struct hsame =>
    rw [type] at hT
    cases hT with
    | struct hfit _ _ hfields =>
    have hfield : ∀ f ∈ fields, Sized f.2.type := by
      intro f hf
      obtain ⟨k, hk⟩ := List.mem_iff_getElem?.mp hf
      have hmem : (f.1, f.2.type) ∈ fieldTypes fields :=
        List.mem_of_getElem? (by rw [fieldTypes_getElem?, hk]; rfl)
      exact hfields _ hmem
    have hpadded : hasPadding 0 (fieldTypes fields) size = true ∨
        hasPadding 0 (fieldTypes fields) size = false := by
      cases hasPadding 0 (fieldTypes fields) size
      · exact .inr rfl
      · exact .inl rfl
    have hloop := processFields_eq
      (fun f hf s offset => ih f hf (hsame f hf) (hfield f hf) offset s) hpadded hfit 0 offset s
    rw [processInitializer, pointerLeaves, type, ← hloop]
    cases processFields process _ offset fields s (offset + 0) <;> rfl

end

/-- a pointer of the constant is a leaf of its type -/
theorem At.leaf {C : Constant τ} {π : List Step} {value : τ} (h : At C π value) (hC : WellTyped C) :
    ∃ p, Leaf C.type π p := by
  induction h with
  | pointer =>
    rw [type]
    exact ⟨0, .pointer⟩
  | elem hi _ ih =>
    cases hC with
    | array htype helem =>
      have hmem := List.mem_of_getElem? hi
      obtain ⟨p, hp⟩ := ih (helem _ hmem)
      rw [htype _ hmem] at hp
      rw [type]
      exact ⟨_, .elem (List.getElem?_eq_some_iff.mp hi).1 hp⟩
  | @field _ fields _ k off D _ _ hk _ ih =>
    cases hC with
    | struct hfield =>
      obtain ⟨p, hp⟩ := ih (hfield _ (List.mem_of_getElem? hk))
      have htypes : (fieldTypes fields)[k]? = some (off, D.type) := by
        rw [fieldTypes_getElem?, hk]
        rfl
      rw [type]
      exact ⟨_, .field htypes hp⟩

/-- the block of a global of the type, after any layouts and queries; one that is not an aggregate has
one object -/
def globalBlock (Ts : List IRType) (T : IRType) (qs : List Query) : Option MemBlock :=
  if T.isAggregate then (blockAfter Ts T qs).map .aggregate else some (.scalar ⟨0, 0⟩)

/-- from every offset the walk ends behind the type, it comes to every pointer once, at its offset, and
a block of the type has an object there -/
def ExactOffsets (C : Constant τ) : Prop :=
  ∃ leaves : List (List Step × Nat × τ), (leaves.map Prod.fst).Nodup ∧
    (∀ π p value, (π, p, value) ∈ leaves ↔ At C π value ∧ Leaf C.type π p) ∧
    (∀ π value, At C π value → ∃ p, (π, p, value) ∈ leaves) ∧
    (∀ (σ : Type) (process : τ → Nat → σ → Option σ) (offset : Nat) (s : σ),
      processInitializer process C s offset =
        (leaves.foldlM (fun s x => process x.2.2 (offset + x.2.1) s) s).map
          (·, offset + C.type.allocSize)) ∧
    ∀ x ∈ leaves, ∀ Ts qs b, globalBlock Ts C.type qs = some b →
      ∃ f b', b.getObjectAt x.2.1 = some (some f, b')

/-- so it is if canonicalizing keeps the sizes of pointers, and no array of the type that starts before a
pointer of the constant shares its offset with another one or has elements without scalars; the code
must be able to store the layout if a pointer is not at offset 0 -/
theorem processInitializer_spec {C : Constant τ} (hC : WellTyped C) (hT : Sized C.type)
    (hsame : SameSize C) (hclear : ∀ π p value, At C π value → Leaf C.type π p →
      ClearAt C.type p ∧ (p ≠ 0 → C.type.Narrow)) : ExactOffsets C := by
  have hmem : ∀ π p value, (π, p, value) ∈ pointerLeaves C ↔ At C π value ∧ Leaf C.type π p :=
    fun π p value => mem_pointerLeaves hC
  refine ⟨pointerLeaves C, nodup_pointerLeaves hC, hmem, fun π value hat => ?_,
    fun σ process offset s => processInitializer_eq hC hsame hT offset s, ?_⟩
  · obtain ⟨p, hp⟩ := hat.leaf hC
    exact ⟨p, (hmem π p value).mpr ⟨hat, hp⟩⟩
  · rintro ⟨π, p, value⟩ hx Ts qs b hb
    obtain ⟨hat, hleaf⟩ := (hmem π p value).mp hx
    obtain ⟨hp, hnarrow⟩ := hclear π p value hat hleaf
    by_cases h0 : p = 0
    · exact ⟨0, b, by rw [h0, b.getObjectAt_zero]⟩
    · rw [globalBlock] at hb
      split at hb
      · obtain ⟨b₀, hb₀, rfl⟩ := Option.map_eq_some_iff.mp hb
        have hlayout := blockAfter_layout hb₀
        obtain ⟨f, hf⟩ := Option.isSome_iff_exists.mp (hp.lookup_isSome hT hlayout hleaf)
        refine ⟨f, .aggregate (b₀.lookup p).2, ?_⟩
        rw [MemBlock.getObjectAt, AggregateMemBlock.indexMemoryBlock_eq (hlayout.symm ▸ hnarrow h0),
          Option.map_some, hf]
      · -- what is no aggregate has one leaf, at 0
        next hagg =>
        refine absurd ?_ h0
        generalize C.type = T at hleaf hagg
        cases hleaf with
        | scalar => rfl
        | pointer => rfl
        | elem _ _ => exact absurd rfl hagg
        | field _ _ => exact absurd rfl hagg

/-- a canonical pointer of another size moves everything behind it -/
example : (processInitializer (fun _ _ s => some s)
    (array (.pointer 8) [pointer 8 4 0, pointer 8 8 1] : Constant Nat) () 0).map Prod.snd = some 12 := by
  decide

/-! ### two globals -/

/-- `{ i32, [2 x i8*], [0 x i32], [2 x i32] }`, whose last two arrays share an offset -/
def pointersConstant : Constant Nat :=
  struct 0 [(0, scalar 4), (8, array (.pointer 8) [pointer 8 8 0, pointer 8 8 1]),
    (24, skipped (.array 0 (.scalar 4))), (24, dataArray 2 4)] 32

theorem sized_pointer : Sized (.pointer 8) := .pointer (by decide) (by decide)

theorem sized_pointers {n : Nat} (hn : n ≤ 3) : Sized (.array n (.pointer 8)) := by
  refine .array (by unfold sizeMax; omega) ?_ sized_pointer
  show n * 8 < 2 ^ 64
  omega

theorem exactOffsets_pointersConstant : ExactOffsets pointersConstant := by
  have hscalar : Sized (.scalar 4) := .scalar (by decide) (by decide)
  have hwell : WellTyped pointersConstant := by
    refine .struct fun f hf => ?_
    rcases List.mem_cons.mp hf with rfl | hf
    · exact .scalar
    · rcases List.mem_cons.mp hf with rfl | hf
      · refine .array (fun C hC => ?_) fun C hC => ?_ <;> rcases List.mem_pair.mp hC with rfl | rfl
        · rfl
        · rfl
        · exact .pointer
        · exact .pointer
      · rcases List.mem_pair.mp hf with rfl | rfl
        · exact .skipped
        · exact .dataArray
  refine processInitializer_spec hwell ?_ ?_ ?_
  · refine .struct (by decide) (by decide) (by decide) fun f hf => ?_
    rcases List.mem_cons.mp hf with rfl | hf
    · exact hscalar
    · rcases List.mem_cons.mp hf with rfl | hf
      · exact sized_pointers (by decide)
      · rcases List.mem_pair.mp hf with rfl | rfl <;> exact .array (by decide) (by decide) hscalar
  · refine .struct fun f hf => ?_
    rcases List.mem_cons.mp hf with rfl | hf
    · exact .scalar
    · rcases List.mem_cons.mp hf with rfl | hf
      · refine .array fun C hC => ?_
        rcases List.mem_pair.mp hC with rfl | rfl <;> exact .pointer
      · rcases List.mem_pair.mp hf with rfl | rfl
        · exact .skipped
        · exact .dataArray
  · -- the pointers are at 8 and at 16, before the arrays that share an offset
    have hpointer : ∀ p, ClearAt (.pointer 8) p := by
      intro p
      refine .mk ?_ ?_ ?_ <;> rw [topArrays]
      · exact .nil
      · exact fun x hx => absurd hx List.not_mem_nil
      · exact fun x hx => absurd hx List.not_mem_nil
    have hclear : ∀ p, p = 8 ∨ p = 16 → ClearAt pointersConstant.type p := by
      intro p hp
      have hbefore : ∀ x ∈ topArrays pointersConstant.type, x.1 < p → x = (8, 2, .pointer 8) := by
        rcases hp with rfl | rfl <;> decide
      refine .mk ?_ (fun x hx hlt => ?_) fun x hx hlt _ => ?_
      · rcases hp with rfl | rfl <;> decide
      · rw [hbefore x hx hlt]
        intro h
        cases h
      · rw [hbefore x hx hlt]
        exact hpointer _
    intro π p value hat hleaf
    have hp : ∀ x ∈ pointerLeaves pointersConstant, x.2.1 = 8 ∨ x.2.1 = 16 := by decide
    exact ⟨hclear p (hp _ ((mem_pointerLeaves hwell).mpr ⟨hat, hleaf⟩)), fun _ => by decide +kernel⟩

/-- `{ i64, [0 x i32], [3 x i8*] }` -/
def flexibleConstant : Constant Nat :=
  struct 0 [(0, scalar 8), (8, skipped (.array 0 (.scalar 4))),
    (8, array (.pointer 8) [pointer 8 8 0, pointer 8 8 1, pointer 8 8 2])] 32

/-- the array of pointers is dropped from the layout, and the second pointer has no object -/
theorem not_exactOffsets_flexibleConstant : WellTyped flexibleConstant ∧ Sized flexibleConstant.type ∧
    SameSize flexibleConstant ∧ ¬ ExactOffsets flexibleConstant := by
  refine ⟨?_, ?_, ?_, ?_⟩
  · refine .struct fun f hf => ?_
    rcases List.mem_cons.mp hf with rfl | hf
    · exact .scalar
    · rcases List.mem_pair.mp hf with rfl | rfl
      · exact .skipped
      · refine .array (fun C hC => ?_) fun C hC => ?_
        · rcases List.mem_cons.mp hC with rfl | hC
          · rfl
          · rcases List.mem_pair.mp hC with rfl | rfl <;> rfl
        · rcases List.mem_cons.mp hC with rfl | hC
          · exact .pointer
          · rcases List.mem_pair.mp hC with rfl | rfl <;> exact .pointer
  · refine .struct (by decide) (by decide) (by decide) fun f hf => ?_
    rcases List.mem_cons.mp hf with rfl | hf
    · exact .scalar (by decide) (by decide)
    · rcases List.mem_pair.mp hf with rfl | rfl
      · exact .array (by decide) (by decide) (.scalar (by decide) (by decide))
      · exact sized_pointers (by decide)
  · refine .struct fun f hf => ?_
    rcases List.mem_cons.mp hf with rfl | hf
    · exact .scalar
    · rcases List.mem_pair.mp hf with rfl | rfl
      · exact .skipped
      · refine .array fun C hC => ?_
        rcases List.mem_cons.mp hC with rfl | hC
        · exact .pointer
        · rcases List.mem_pair.mp hC with rfl | rfl <;> exact .pointer
  · rintro ⟨leaves, -, hmem, -, -, hobject⟩
    have hat : At flexibleConstant [.field 2, .index 1] 1 := .field rfl (.elem rfl .pointer)
    have hleaf : Leaf flexibleConstant.type [.field 2, .index 1] (8 + (1 * 8 + 0)) :=
      .field rfl (.elem (by decide) .pointer)
    have hnone : ((globalBlock [] flexibleConstant.type []).bind fun b =>
        (b.getObjectAt 16).map Prod.fst) = some none := by decide +kernel
    obtain ⟨b, hb, hget⟩ := Option.bind_eq_some_iff.mp hnone
    obtain ⟨f, b', hsome⟩ := hobject _ ((hmem _ _ _).mpr ⟨hat, hleaf⟩) [] [] b hb
    rw [show 8 + (1 * 8 + 0) = 16 from rfl] at hsome
    rw [hsome] at hget
    cases hget

end Constant
end AserPTA
