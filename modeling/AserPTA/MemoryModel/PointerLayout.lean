import AserPTA.MemoryModel.ConstIndex

/-!
# The pointers of a layout

`pointerLayout` holds the layout offsets of the leaves that are pointers, and no others.

* `pointerPaths`        the pointers of the first elements, in the order of the type;
* `mem_layoutOf_struct_pointerLayout`   what the fields of a structure add;
* `Wf.pointerLayout`    the pointers of the layout are those of `pointerPaths`.
-/

namespace AserPTA
open IRType

namespace IRType

mutual

/-- the pointers of a type with all array indices 0 -/
def pointerPaths : IRType → List (List Step)
  | scalar _ => []
  | pointer _ => [[]]
  | array _ e => (pointerPaths e).map (.index 0 :: ·)
  | struct _ fields _ => fieldPaths 0 fields

/-- the pointers of the fields from number `k` on -/
def fieldPaths : Nat → List (Nat × IRType) → List (List Step)
  | _, [] => []
  | k, f :: rest => (pointerPaths f.2).map (.field k :: ·) ++ fieldPaths (k + 1) rest

end

theorem mem_fieldPaths {fields : List (Nat × IRType)} {k : Nat} {π : List Step} :
    π ∈ fieldPaths k fields ↔
      ∃ j f ρ, fields[j]? = some f ∧ ρ ∈ pointerPaths f.2 ∧ π = .field (k + j) :: ρ := by
  induction fields generalizing k with
  | nil => simp [fieldPaths]
  | cons f rest ih =>
    rw [fieldPaths, List.mem_append, List.mem_map, ih]
    constructor
    · rintro (⟨ρ, hρ, rfl⟩ | ⟨j, g, ρ, hg, hρ, rfl⟩)
      · exact ⟨0, f, ρ, rfl, hρ, rfl⟩
      · exact ⟨j + 1, g, ρ, hg, hρ, by rw [Nat.add_right_comm]; rfl⟩
    · rintro ⟨j, g, ρ, hg, hρ, rfl⟩
      cases j with
      | zero =>
        obtain rfl := Option.some.inj hg
        exact .inl ⟨ρ, hρ, rfl⟩
      | succ j => exact .inr ⟨j, g, ρ, hg, hρ, by rw [Nat.add_right_comm]; rfl⟩

/-- they are the steps that lead to a pointer, with all array indices 0 -/
theorem mem_pointerPaths {T : IRType} {π : List Step} :
    π ∈ pointerPaths T ↔ zeroed π = π ∧ ∃ size, typeAt T π = some (pointer size) := by
  induction T using IRType.induction generalizing π with
  | scalar size => cases π <;> simp [pointerPaths, typeAt]
  | pointer size => cases π <;> simp [pointerPaths, typeAt, zeroed]
  | array n e ih =>
    rw [pointerPaths, List.mem_map]
    cases π with
    | nil => simp [typeAt]
    | cons s π =>
      cases s with
      | index i =>
        simp only [List.cons.injEq, Step.index.injEq, zeroed, typeAt]
        constructor
        · rintro ⟨ρ, hρ, hi, rfl⟩
          exact ⟨⟨hi, (ih.mp hρ).1⟩, (ih.mp hρ).2⟩
        · rintro ⟨⟨hi, hz⟩, hat⟩
          exact ⟨π, ih.mpr ⟨hz, hat⟩, hi, rfl⟩
      | field k => simp [typeAt]
  | struct name fields size ih =>
    rw [pointerPaths, mem_fieldPaths]
    cases π with
    | nil => simp [typeAt]
    | cons s π =>
      cases s with
      | index i => simp [typeAt]
      | field k =>
        simp only [Nat.zero_add, List.cons.injEq, Step.field.injEq, zeroed, typeAt,
          Option.bind_eq_some_iff, true_and]
        constructor
        · rintro ⟨j, f, ρ, hf, hρ, rfl, rfl⟩
          obtain ⟨hz, s, hat⟩ := (ih f (List.mem_of_getElem? hf)).mp hρ
          exact ⟨hz, s, f, hf, hat⟩
        · rintro ⟨hz, s, f, hf, hat⟩
          exact ⟨k, f, π, hf, (ih f (List.mem_of_getElem? hf)).mpr ⟨hz, s, hat⟩, rfl, rfl⟩

theorem nodup_fieldPaths {fields : List (Nat × IRType)}
    (h : ∀ f ∈ fields, (pointerPaths f.2).Nodup) (k : Nat) : (fieldPaths k fields).Nodup := by
  induction fields generalizing k with
  | nil => exact List.nodup_nil
  | cons f rest ih =>
    rw [fieldPaths, List.nodup_append]
    refine ⟨(h f List.mem_cons_self).map (List.cons_injective), ih (fun g hg => h g (.tail _ hg)) _,
      fun π hπ π' hπ' => ?_⟩
    obtain ⟨ρ, -, rfl⟩ := List.mem_map.mp hπ
    obtain ⟨j, g, ρ', -, -, rfl⟩ := mem_fieldPaths.mp hπ'
    intro heq
    have hk : k = k + 1 + j := Step.field.inj (List.cons.inj heq).1
    omega

theorem nodup_pointerPaths (T : IRType) : (pointerPaths T).Nodup := by
  induction T using IRType.induction with
  | scalar size => exact List.nodup_nil
  | pointer size => exact List.nodup_singleton _
  | array n e ih => exact ih.map List.cons_injective
  | struct name fields size ih => exact nodup_fieldPaths ih 0

end IRType

/-- in a type whose arrays are not empty the steps lead to a leaf -/
theorem IRType.Leaf.of_pointer {T : IRType} {π : List Step} (h : Wf T) (hz : IRType.zeroed π = π)
    {size : Nat} (hat : typeAt T π = some (.pointer size)) : ∃ p, Leaf T π p := by
  induction h generalizing π with
  | scalar _ _ =>
    cases π with
    | nil => cases hat
    | cons s π => cases s <;> cases hat
  | pointer _ _ =>
    cases π with
    | nil => exact ⟨0, .pointer⟩
    | cons s π => cases s <;> cases hat
  | @array n e hn _ _ _ ih =>
    cases π with
    | nil => cases hat
    | cons s π =>
      cases s with
      | index i =>
        obtain ⟨hi, hz'⟩ := List.cons.inj hz
        obtain rfl : 0 = i := Step.index.inj hi
        obtain ⟨p, hp⟩ := ih hz' hat
        exact ⟨_, .elem hn hp⟩
      | field k => cases hat
  | @struct name fields size' _ _ _ ih =>
    cases π with
    | nil => cases hat
    | cons s π =>
      cases s with
      | index i => cases hat
      | field k =>
        rw [typeAt, Option.bind_eq_some_iff] at hat
        obtain ⟨f, hf, hat⟩ := hat
        obtain ⟨p, hp⟩ := ih f (List.mem_of_getElem? hf) (List.cons.inj hz).2 hat
        exact ⟨_, .field hf hp⟩

/-! ## the layout builder -/

namespace Building

theorem mem_setElementLayout_pointerLayout (b : Building) (T : IRType) {l : Nat} :
    l ∈ (b.setElementLayout T (layoutOf T)).layout.pointerLayout ↔
      l ∈ b.layout.pointerLayout ∨ ∃ m ∈ (layoutOf T).pointerLayout, l = b.lOffset + m := by
  have hmerge : ∀ sub : MemLayout,
      l ∈ (b.layout.mergeMemoryLayout sub b.pOffset b.lOffset).pointerLayout ↔
        l ∈ b.layout.pointerLayout ∨ ∃ m ∈ sub.pointerLayout, l = b.lOffset + m := by
    intro sub
    rw [(mergeMemoryLayout_spec _ _ _ _).2.1, mem_union_image_add]
  cases T with
  | scalar _ =>
    rw [layoutOf_scalar]
    exact (or_iff_left fun ⟨m, hm, _⟩ => Finset.notMem_empty m hm).symm
  | pointer _ =>
    rw [layoutOf_pointer, ← mem_union_image_add]
    show l ∈ insert b.lOffset b.layout.pointerLayout ↔ _
    rw [insert_eq_union_image]
    rfl
  | array _ _ => exact hmerge _
  | struct _ _ _ => exact hmerge _

end Building

theorem mem_layoutOf_array_pointerLayout {n : Nat} {e : IRType} {l : Nat} :
    l ∈ (layoutOf (array n e)).pointerLayout ↔ l ∈ (layoutOf e).pointerLayout := by
  rw [layoutOf_array, getArrayLayout]
  dsimp only
  rw [(Building.updateArray_spec _ _).2.1]
  show l ∈ (Building.setElementLayout _ e (layoutOf e)).layout.pointerLayout ↔ _
  rw [Building.mem_setElementLayout_pointerLayout]
  simp [MemLayout.new]

theorem mem_layoutOf_struct_pointerLayout {name size : Nat} {fields : List (Nat × IRType)}
    (hfit : FieldsFit 0 fields size) {l : Nat} :
    l ∈ (layoutOf (struct name fields size)).pointerLayout ↔
      ∃ k off T m, fields[k]? = some (off, T) ∧ m ∈ (layoutOf T).pointerLayout ∧
        l = fieldLOffset 0 0 fields k + m := by
  have hend := buildFields_offsets (b := Building.startStruct) hfit
  have hle : (buildFields fields Building.startStruct).pOffset ≤ size :=
    (congrArg Prod.snd hend).trans_le (endOffsets_le hfit)
  rw [layoutOf_struct, (finishStruct_spec hle).2.2.1, buildFields_mem
    (B := MemLayout.pointerLayout)
    (fun b T _ => Building.mem_setElementLayout_pointerLayout b T) (b := Building.startStruct) hfit]
  exact or_iff_right (Finset.notMem_empty l)

/-- the pointers of the layout are the layout offsets of `pointerPaths` -/
theorem IRType.Wf.pointerLayout {T : IRType} (h : Wf T) {l : Nat} :
    l ∈ (layoutOf T).pointerLayout ↔ ∃ π ∈ pointerPaths T, ∃ p, Slot T π p p l := by
  induction h generalizing l with
  | scalar _ _ =>
    rw [layoutOf_scalar]
    simp [scalarLayout, pointerPaths]
  | pointer _ _ =>
    rw [layoutOf_pointer]
    constructor
    · intro hl
      obtain rfl := Finset.mem_singleton.mp hl
      exact ⟨[], List.mem_singleton_self _, 0, .pointer⟩
    · rintro ⟨π, hπ, p, hslot⟩
      obtain rfl := List.mem_singleton.mp hπ
      cases hslot
      exact Finset.mem_singleton_self 0
  | @array n e hn _ _ _ ih =>
    rw [mem_layoutOf_array_pointerLayout, ih]
    constructor
    · rintro ⟨π, hπ, p, hslot⟩
      have helem := Slot.elem hn hslot
      rw [Nat.zero_mul, Nat.zero_add] at helem
      exact ⟨_, List.mem_map.mpr ⟨π, hπ, rfl⟩, p, helem⟩
    · rintro ⟨_, hmem, p, hslot⟩
      obtain ⟨π, hπ, rfl⟩ := List.mem_map.mp hmem
      obtain ⟨i, -, π', q, heq, hp, hslot⟩ := slot_array.mp hslot
      obtain ⟨hi, rfl⟩ := List.cons.inj heq
      obtain rfl : 0 = i := Step.index.inj hi
      obtain rfl : p = q := by omega
      exact ⟨π, hπ, p, hslot⟩
  | @struct name fields size hfit _ _ ih =>
    rw [mem_layoutOf_struct_pointerLayout hfit]
    constructor
    · rintro ⟨k, off, T, m, hk, hm, rfl⟩
      obtain ⟨π, hπ, p, hslot⟩ := (ih _ (List.mem_of_getElem? hk)).mp hm
      refine ⟨.field k :: π, mem_fieldPaths.mpr ⟨k, _, π, hk, hπ, ?_⟩, _, .field hk hslot⟩
      rw [Nat.zero_add]
    · rintro ⟨_, hmem, p, hslot⟩
      obtain ⟨k, f, π, hf, hπ, rfl⟩ := mem_fieldPaths.mp hmem
      obtain ⟨k', π', heq, off, T, q, d, m, hk, hslot, hp, hc, rfl⟩ := slot_struct.mp hslot
      obtain ⟨hk', rfl⟩ := List.cons.inj heq
      obtain rfl : k = k' := by rw [← Step.field.inj hk', Nat.zero_add]
      obtain rfl : q = d := by omega
      obtain rfl : f = (off, T) := Option.some.inj (hf.symm.trans hk)
      exact ⟨k, off, T, m, hk, (ih _ (List.mem_of_getElem? hk)).mpr ⟨π, hπ, q, hslot⟩, rfl⟩

end AserPTA
