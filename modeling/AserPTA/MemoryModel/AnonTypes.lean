import AserPTA.MemoryModel.AnonObjects
import AserPTA.MemoryModel.ClearLayout
import AserPTA.MemoryModel.MemBlock
import AserPTA.MemoryModel.PointerLayout

/-!
# Types that anonymous objects can have

The pointer objects of a type whose arrays have elements, and these sizes, are at the offsets of its
pointers, one at each.  Where the recursion comes to such types only, it returns.

* `ptrPlace_slot`        the pointer object at the offset of a pointer;
* `pointersAt_slot`, `pointersAt_lt`   the pointers that the recursion follows are pointers of the layout,
                         in the order of their offsets;
* `good_of_wellFormed`   such a type is good;
* `returns_of_wellFormed`   so the recursion returns.
-/

namespace AserPTA
open IRType

/-! ## the place of a pointer -/

namespace IRType

theorem SizedBlock.element {T : IRType} (h : SizedBlock T) : ∀ x ∈ topArrays T, Sized x.2.2 := by
  intro x hx
  cases h with
  | bounded _ hT => exact (hT.mem_topArrays hx).1
  | unbounded he =>
    rw [topArrays] at hx
    rw [List.mem_singleton.mp hx]
    exact he

/-- the loop is not stuck where the elements of the outermost arrays have sizes -/
theorem not_stuck_of {T : IRType} (helem : ∀ x ∈ topArrays T, 0 < x.2.2.allocSize ∧ Sized x.2.2)
    (hin : ∀ x ∈ topArrays T, ∀ p, ¬ Stuck x.2.2 p) (p : Nat) : ¬ Stuck T p := by
  have htop : ∀ x ∈ taken none (topArrays T), x ∈ topArrays T :=
    fun x hx => (taken_sublist _ _).subset hx
  intro h
  cases h with
  | pass hx _ hleafless =>
    obtain ⟨hpos, hsized⟩ := helem _ (htop _ hx)
    exact hpos.ne' (hleafless.allocSize hsized)
  | divide hx _ _ hzero => exact (helem _ (htop _ hx)).1.ne' hzero
  | inside hx _ _ h => exact hin _ (htop _ hx) _ h

theorem Wf.not_stuck (T : IRType) : Wf T → Sized T → ∀ p, ¬ Stuck T p := by
  induction T using nesting_induction with
  | h T ih =>
    intro h hT
    have helem := fun x hx => (h.level.element x hx)
    exact not_stuck_of (fun x hx => ⟨(helem x hx).2.1, (hT.mem_topArrays hx).1⟩)
      fun x hx => ih x hx (helem x hx).1 (hT.mem_topArrays hx).1

theorem BlockOk.not_stuck {T : IRType} (h : BlockOk T) (hT : SizedBlock T) (p : Nat) : ¬ Stuck T p := by
  obtain ⟨hi, hlevel⟩ := h.level
  exact not_stuck_of (fun x hx => ⟨(hlevel.element x hx).2.1, hT.element x hx⟩)
    (fun x hx => (hlevel.element x hx).1.not_stuck _ (hT.element x hx)) p

/-- a block with scalars has one at 0 -/
theorem BlockOk.leaf_zero {T : IRType} (h : BlockOk T) (hsized : SizedBlock T) (hT : ¬ Leafless T) :
    ∃ π, Leaf T π 0 := by
  have helem : ∀ {num e}, 0 < num → Sized e → Wf e → ¬ Leafless (array num e) →
      ∃ π, Leaf (array num e) π 0 := by
    intro num e hn hsized hwf hT
    obtain ⟨π, hπ⟩ := hsized.leaf_zero hwf fun he => hT (.array he)
    have hleaf := Leaf.elem hn hπ
    rw [Nat.zero_mul] at hleaf
    exact ⟨_, hleaf⟩
  cases hsized with
  | bounded _ hsized =>
    cases h with
    | bounded _ h => exact hsized.leaf_zero h hT
    | unbounded _ he =>
      cases hsized with
      | array _ _ hsized => exact helem (by decide) hsized he hT
  | unbounded hsized =>
    cases h with
    | bounded _ h =>
      cases h with
      | array hn _ _ he => exact helem hn hsized he hT
    | unbounded _ he => exact helem (by decide) hsized he hT

end IRType

/-- the pointer object at the offset of a pointer of the first elements -/
theorem Debug.ptrPlace_slot {T : IRType} (h : BlockOk T) (hT : SizedBlock T) (hnarrow : T.Narrow)
    {π : List Step} {p l : Nat} (hslot : Slot T π p p l) (hp : p < sizeMax)
    (hl : l ∈ (layoutOf T).pointerLayout) :
    Debug.ptrPlace (layoutOf T) p = (layoutOf T).elementNumber l := by
  rw [Debug.ptrPlace]
  split
  · next h0 =>
    subst h0
    obtain ⟨-, rfl⟩ := Objects.slot_zero h hslot
    exact (Objects.elementNumber_zero h ⟨π, hslot.leaf⟩).symm
  · obtain ⟨hindex, hmem⟩ := h.index_slot hslot hp
    obtain ⟨r, hr⟩ := Option.ne_none_iff_exists'.mp
      (mt (Debug.indexPhysicalOffset_eq_none hT p).mp fun hs => h.not_stuck hT p hs.2)
    obtain rfl := (Debug.indexPhysicalOffset_eq hr).symm.trans hindex
    rw [hr, Option.bind_eq_bind, Option.bind_some, hnarrow.getLogicalOffset_eq, Option.bind_eq_bind,
      Option.bind_some, if_pos]
    rw [hnarrow.offsetIsPtr_eq hmem]
    exact decide_eq_true hl

namespace AnonObjects

variable {n : Nat} {tbl : Fin n → Ty n}

/-! ## the pointers that are followed -/

mutual

/-- a pointer that is followed is one of the layout, at its offset -/
theorem pointersAt_slot : ∀ (T : Ty n) {U : IRType}, T.irType = some U → Wf U → ∀ (offset : Nat),
    ∀ x ∈ T.pointersAt offset, ∃ π ∈ pointerPaths U, ∃ p l, Slot U π p p l ∧ x.1 = offset + p
  | .other _ _ _ _, _, _, _, _, _, hx => by
    rw [Ty.pointersAt] at hx
    exact absurd hx List.not_mem_nil
  | .bodiless _, _, _, _, _, _, hx => by
    rw [Ty.pointersAt] at hx
    exact absurd hx List.not_mem_nil
  | .pointer _ size P, U, hU, _, offset, x, hx => by
    rw [Ty.irType] at hU
    obtain rfl := Option.some.inj hU
    rw [Ty.pointersAt] at hx
    rw [List.mem_singleton.mp hx]
    exact ⟨[], List.mem_singleton_self _, 0, 0, .pointer, rfl⟩
  | .array num e, U, hU, hwf, offset, x, hx => by
    rw [Ty.irType, Option.map_eq_some_iff] at hU
    obtain ⟨V, hV, rfl⟩ := hU
    rw [Ty.pointersAt] at hx
    cases hwf with
    | array hn _ _ he =>
      obtain ⟨π, hπ, p, l, hslot, hoff⟩ := pointersAt_slot e hV he offset x hx
      have hslot := Slot.elem hn hslot
      rw [Nat.zero_mul, Nat.zero_add] at hslot
      refine ⟨.index 0 :: π, ?_, p, l, hslot, hoff⟩
      rw [pointerPaths]
      exact List.mem_map_of_mem hπ
  | .struct name fields size, U, hU, hwf, offset, x, hx => by
    rw [Ty.irType, Option.map_eq_some_iff] at hU
    obtain ⟨Us, hUs, rfl⟩ := hU
    rw [Ty.pointersAt] at hx
    cases hwf with
    | struct _ _ hfields =>
      obtain ⟨k, f, hk, π, hπ, p, l, hslot, hoff⟩ := fieldPointers_slot fields hUs hfields offset x hx
      refine ⟨.field k :: π, ?_, f.1 + p, _, .field hk hslot, hoff⟩
      rw [pointerPaths, mem_fieldPaths]
      exact ⟨k, f, π, hk, hπ, by rw [Nat.zero_add]⟩

theorem fieldPointers_slot : ∀ (fields : List (Nat × Ty n)) {Us : List (Nat × IRType)},
    Ty.irFields fields = some Us → (∀ f ∈ Us, Wf f.2) → ∀ (offset : Nat),
    ∀ x ∈ Ty.fieldPointers fields offset, ∃ (k : Nat) (f : Nat × IRType), Us[k]? = some f ∧
      ∃ π ∈ pointerPaths f.2, ∃ p l, Slot f.2 π p p l ∧ x.1 = offset + (f.1 + p)
  | [], _, _, _, _, _, hx => by
    rw [Ty.fieldPointers] at hx
    exact absurd hx List.not_mem_nil
  | (elementOffset, T) :: rest, Us, hUs, hwf, offset, x, hx => by
    obtain ⟨V, Vs, hV, hVs, rfl⟩ := Ty.irFields_cons hUs
    rw [Ty.fieldPointers, List.mem_append] at hx
    rcases hx with hx | hx
    · obtain ⟨π, hπ, p, l, hslot, hoff⟩ :=
        pointersAt_slot T hV (hwf _ List.mem_cons_self) _ x hx
      exact ⟨0, _, rfl, π, hπ, p, l, hslot, by rw [hoff, Nat.add_assoc]⟩
    · obtain ⟨k, f, hk, h⟩ := fieldPointers_slot rest hVs (fun f hf => hwf f (.tail _ hf)) offset x hx
      exact ⟨k + 1, f, hk, h⟩

end

mutual

/-- in the order of their offsets -/
theorem pointersAt_lt : ∀ (T : Ty n) {U : IRType}, T.irType = some U → Wf U → ∀ (offset : Nat),
    (T.pointersAt offset).Pairwise fun x y => x.1 < y.1
  | .other _ _ _ _, _, _, _, _ => by rw [Ty.pointersAt]; exact .nil
  | .bodiless _, _, _, _, _ => by rw [Ty.pointersAt]; exact .nil
  | .pointer _ _ _, _, _, _, _ => by rw [Ty.pointersAt]; exact List.pairwise_singleton _ _
  | .array num e, U, hU, hwf, offset => by
    rw [Ty.irType, Option.map_eq_some_iff] at hU
    obtain ⟨V, hV, rfl⟩ := hU
    rw [Ty.pointersAt]
    cases hwf with
    | array _ _ _ he => exact pointersAt_lt e hV he offset
  | .struct name fields size, U, hU, hwf, offset => by
    rw [Ty.irType, Option.map_eq_some_iff] at hU
    obtain ⟨Us, hUs, rfl⟩ := hU
    rw [Ty.pointersAt]
    cases hwf with
    | struct hfit _ hfields => exact fieldPointers_lt fields hUs hfields hfit offset

theorem fieldPointers_lt : ∀ (fields : List (Nat × Ty n)) {Us : List (Nat × IRType)} {p size : Nat},
    Ty.irFields fields = some Us → (∀ f ∈ Us, Wf f.2) → FieldsFit p Us size → ∀ (offset : Nat),
    (Ty.fieldPointers fields offset).Pairwise fun x y => x.1 < y.1
  | [], _, _, _, _, _, _, _ => by rw [Ty.fieldPointers]; exact .nil
  | (elementOffset, T) :: rest, Us, p, size, hUs, hwf, hfit, offset => by
    obtain ⟨V, Vs, hV, hVs, rfl⟩ := Ty.irFields_cons hUs
    have hT := hwf _ List.mem_cons_self
    have hrest := fun f hf => hwf f (List.mem_cons_of_mem _ hf)
    rw [Ty.fieldPointers, List.pairwise_append]
    refine ⟨pointersAt_lt T hV hT _, fieldPointers_lt rest hVs hrest hfit.2 offset, fun x hx y hy => ?_⟩
    -- the first field ends before the others
    obtain ⟨π, -, q, l, hslot, hx⟩ := pointersAt_slot T hV hT _ x hx
    obtain ⟨k, f, hk, ρ, -, r, m, -, hy⟩ := fieldPointers_slot rest hVs hrest offset y hy
    have hq := (hT.indexed.slot _ _ _ _ hslot).1
    have hf := (hfit.2.get hk).1
    dsimp only at hq hf
    omega

end

/-- what holds of all pointers of the elements holds of those of a block -/
theorem pointers_block {T : Ty n} {U : IRType} (hU : T.irType = some U) (h : BlockOk U) :
    (T.pointers.Pairwise fun x y => x.1 < y.1) ∧ ∀ x ∈ T.pointers, x.1 < sizeMax ∧
      ∃ π l, Slot U π x.1 x.1 l ∧ l ∈ (layoutOf U).pointerLayout := by
  have hbound : ∀ {V : IRType} {x : Nat × Fin n} {p : Nat}, Wf V → p < V.allocSize → x.1 = 0 + p →
      x.1 < sizeMax := by
    intro V x p hV hp hx
    have := hV.size_lt
    unfold sizeMax
    omega
  cases h with
  | bounded _ h =>
    refine ⟨pointersAt_lt T hU h 0, fun x hx => ?_⟩
    obtain ⟨π, hπ, p, l, hslot, hoff⟩ := pointersAt_slot T hU h 0 x hx
    refine ⟨hbound h (h.indexed.slot _ _ _ _ hslot).1 hoff, π, l, ?_, h.pointerLayout.mpr ⟨π, hπ, p, hslot⟩⟩
    rwa [hoff, Nat.zero_add]
  | @unbounded e _ he =>
    obtain ⟨E, hE, rfl⟩ : ∃ E : Ty n, E.irType = some e ∧ T = .array sizeMax E := by
      cases T with
      | array num E =>
        rw [Ty.irType, Option.map_eq_some_iff] at hU
        obtain ⟨V, hV, heq⟩ := hU
        obtain ⟨rfl, rfl⟩ := IRType.array.inj heq
        exact ⟨E, hV, rfl⟩
      | struct _ _ _ =>
        rw [Ty.irType, Option.map_eq_some_iff] at hU
        obtain ⟨_, _, heq⟩ := hU
        cases heq
      | other _ _ _ _ => cases hU
      | pointer _ _ _ => cases hU
      | bodiless _ => cases hU
    rw [Ty.pointers, Ty.pointersAt]
    refine ⟨pointersAt_lt E hE he 0, fun x hx => ?_⟩
    obtain ⟨π, hπ, p, l, hslot, hoff⟩ := pointersAt_slot E hE he 0 x hx
    have helem := Slot.elem (i := 0) (n := sizeMax) (by decide) hslot
    rw [Nat.zero_mul, Nat.zero_add] at helem
    refine ⟨hbound he (he.indexed.slot _ _ _ _ hslot).1 hoff, .index 0 :: π, l, ?_,
      mem_layoutOf_array_pointerLayout.mpr (he.pointerLayout.mpr ⟨π, hπ, p, hslot⟩)⟩
    rwa [hoff, Nat.zero_add]

/-! ## good types -/

/-- a type with a size; where it is an aggregate, the arrays in it have elements with sizes, and the code
can store its layout -/
def WellFormed (T : Ty n) : Prop :=
  ∃ U, T.irType = some U ∧ (U.isAggregate = true → BlockOk U ∧ SizedBlock U ∧ U.Narrow)

theorem Served.of_zero (b : MemBlock) {offsets : List Nat} (h : ∀ o ∈ offsets, o = 0) :
    Served b offsets where
  object o ho := by
    rw [h o ho, ptrPlace_zero]
    rfl
  fresh := List.pairwise_cons.mpr ⟨fun o ho _ => h o ho,
    (List.pairwise_iff_getElem.mpr fun _ j _ hj _ _ => h _ (List.getElem_mem hj))⟩

/-- the pointers of a block have objects of their own -/
theorem served_block {T : Ty n} {U : IRType} (hU : T.irType = some U) (h : BlockOk U)
    (hsized : SizedBlock U) (hnarrow : U.Narrow) (S : List (Ty n)) :
    Served (.aggregate (.new (layoutOf U))) (offsets tbl S T.pointers) := by
  obtain ⟨hlt, hslots⟩ := pointers_block hU h
  have hsub : (offsets tbl S T.pointers).Sublist (T.pointers.map Prod.fst) := List.filter_sublist.map _
  have hplace : ∀ o ∈ offsets tbl S T.pointers, ∃ π l, Slot U π o o l ∧
      l ∈ (layoutOf U).elementLayout ∧
      ptrPlace (.aggregate (.new (layoutOf U))) o = (layoutOf U).elementNumber l := by
    intro o ho
    obtain ⟨x, hx, rfl⟩ := List.mem_map.mp (hsub.subset ho)
    obtain ⟨hp, π, l, hslot, hl⟩ := hslots x hx
    exact ⟨π, l, hslot, (h.index_slot hslot hp).2, Debug.ptrPlace_slot h hsized hnarrow hslot hp hl⟩
  -- pointers at one place are at one offset
  have hinj : ∀ {π ρ l m o o'}, Slot U π o o l → Slot U ρ o' o' m →
      (layoutOf U).elementNumber l = (layoutOf U).elementNumber m → l ∈ (layoutOf U).elementLayout →
      o = o' := by
    intro π ρ l m o o' hslot hslot' heq hl
    obtain ⟨f, hf⟩ := Option.isSome_iff_exists.mp (MemLayout.elementNumber_isSome.mpr hl)
    obtain rfl := MemLayout.elementNumber_inj hf (heq ▸ hf)
    have hz := hslot.leaf_zeroed.leaf
    rw [h.inj hslot hslot'] at hz
    exact hz.offset_unique hslot'.leaf_zeroed.leaf
  refine ⟨fun o ho => ?_, List.pairwise_cons.mpr ⟨fun o ho heq => ?_, ?_⟩⟩
  · obtain ⟨π, l, -, hl, hpl⟩ := hplace o ho
    rw [hpl]
    exact MemLayout.elementNumber_isSome.mpr hl
  · obtain ⟨π, l, hslot, hl, hpl⟩ := hplace o ho
    have hleaf := h.leaf_zero hsized hslot.leaf.not_leafless
    obtain ⟨ρ, hρ⟩ := hleaf
    obtain ⟨c, m, hzero⟩ := hρ.slot
    obtain ⟨rfl, rfl⟩ := Objects.slot_zero h hzero
    rw [ptrPlace_zero, hpl, ← Objects.elementNumber_zero h ⟨ρ, hρ⟩] at heq
    exact hinj hslot hzero heq.symm hl
  · have hoffsets : (offsets tbl S T.pointers).Pairwise (· < ·) :=
      (List.pairwise_map.mpr hlt).sublist hsub
    refine hoffsets.imp_of_mem fun {o o'} ho ho' hne heq => ?_
    obtain ⟨π, l, hslot, hl, hpl⟩ := hplace o ho
    obtain ⟨ρ, m, hslot', -, hpm⟩ := hplace o' ho'
    exact absurd (hinj hslot hslot' (hpl.symm.trans (heq.trans hpm)) hl) hne.ne

theorem good_of_wellFormed {T : Ty n} (h : WellFormed T) (S : List (Ty n)) : Good tbl T S := by
  obtain ⟨U, hU, hagg⟩ := h
  have hblock : U.isAggregate = true → (do
      let V ← T.irType
      let r ← Debug.getLayoutForType .empty V
      return MemBlock.aggregate (.new r.1)) = some (.aggregate (.new (layoutOf U))) := by
    intro h
    have hlayout := Debug.getLayoutForType_eq (hagg h).2.1 ((hagg h).2.1.not_collides (hagg h).2.2)
      (MemLayoutManager.consistent_afterCalls [])
    rw [hU, ← MemLayoutManager.getLayoutForType_eq [] U]
    show (Debug.getLayoutForType (MemLayoutManager.afterCalls []) U >>= _) = _
    rw [hlayout]
    rfl
  cases T with
  | other _ isVector _ _ =>
    refine ⟨rfl, _, rfl, .of_zero _ fun o ho => ?_⟩
    rw [Ty.pointers, Ty.pointersAt] at ho
    cases ho
  | pointer _ _ P =>
    refine ⟨rfl, _, rfl, .of_zero _ fun o ho => ?_⟩
    obtain ⟨x, hx, rfl⟩ := List.mem_map.mp ho
    rw [Ty.pointers, Ty.pointersAt] at hx
    rw [List.mem_singleton.mp (List.mem_of_mem_filter hx)]
  | bodiless _ => cases hU
  | array num e =>
    have hU' := hU
    rw [Ty.irType, Option.map_eq_some_iff] at hU'
    obtain ⟨V, -, rfl⟩ := hU'
    obtain ⟨h, hsized, hnarrow⟩ := hagg rfl
    exact ⟨rfl, _, hblock rfl, served_block hU h hsized hnarrow _⟩
  | struct name fields size =>
    have hU' := hU
    rw [Ty.irType, Option.map_eq_some_iff] at hU'
    obtain ⟨Us, -, rfl⟩ := hU'
    obtain ⟨h, hsized, hnarrow⟩ := hagg rfl
    exact ⟨rfl, _, hblock rfl, served_block hU h hsized hnarrow _⟩

/-- where the recursion comes to such types only, it returns -/
theorem returns_of_wellFormed {T : Option (Ty n)} {typeTree : List (Ty n)}
    (h : ∀ U, T = some U → ∀ V S, Comes tbl U typeTree V S → WellFormed V) :
    ∃ fuel, ∀ k ≥ fuel, (allocAnonObjRec tbl k T typeTree).isSome := by
  rw [← Filter.eventually_atTop]
  have hgood : AllGood tbl T typeTree := fun U hU V S hV => good_of_wellFormed (h U hU V S hV) S
  exact all_eventually_returns hgood

end AnonObjects

end AserPTA
