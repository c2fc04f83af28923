import AserPTA.MemoryModel.SizedType

/-!
# Types whose arrays do not share offsets

The map of arrays drops an array that starts where another one of its level does.  Where none does and
no array has elements without scalars, an array without elements does no harm, though the layout has a
place for it: indexing takes the offset behind it to the place of the array.

* `ClearAt`              so it is below an offset, on the way down to it;
* `Sized.place`            there a leaf is indexed as an element;
* `Clear`                so it is everywhere;
* `Canon`                the leaves, each with the offset of the leaf of the first elements;
* `Canon.level`          a leaf is in one of the outermost arrays or outside all of them;
* `Clear.index_canon`, `Clear.index_lt`   a leaf is indexed as the one of the first elements, and
                         these in their order;
* `Clear.sameObject_iff` two leaves have one object iff they differ in array indices only.
-/

namespace AserPTA
open IRType

namespace IRType

/-- on every level the arrays start at different offsets and have elements with scalars; the elements
of an array without size are not looked at -/
inductive Clear : IRType → Prop
  | mk {T} : (topArrays T).Pairwise (fun x y => x.1 < y.1) →
      (∀ x ∈ topArrays T, ¬ Leafless x.2.2) →
      (∀ x ∈ topArrays T, 0 < x.2.1 * x.2.2.allocSize → Clear x.2.2) → Clear T

/-- among the arrays of a level that start before `p`, no two share an offset and each has elements with
scalars, and so it is inside the one that `p` lies in -/
inductive ClearAt : IRType → Nat → Prop
  | mk {T p} : ((topArrays T).filter (·.1 < p)).Pairwise (fun x y => x.1 < y.1) →
      (∀ x ∈ topArrays T, x.1 < p → ¬ Leafless x.2.2) →
      (∀ x ∈ topArrays T, x.1 < p → p < x.1 + x.2.1 * x.2.2.allocSize →
        ClearAt x.2.2 ((p - x.1) % x.2.2.allocSize)) → ClearAt T p

theorem Clear.clearAt {T : IRType} (h : Clear T) (p : Nat) : ClearAt T p := by
  induction h generalizing p with
  | @mk T hkeys hfull _ ih =>
    refine .mk (hkeys.sublist List.filter_sublist) (fun x hx _ => hfull x hx) fun x hx hlt hp => ?_
    exact ih x hx (by omega) _

/-- a leaf, and the one of the first elements -/
def Canon (T : IRType) (p c : Nat) : Prop := ∃ π, Leaf T π p ∧ Leaf T (zeroed π) c

theorem Leaf.canon {T : IRType} {π : List Step} {p : Nat} (h : Leaf T π p) :
    ∃ c, Canon T p c ∧ Leaf T (IRType.zeroed π) c := by
  obtain ⟨c, -, hc⟩ := h.zeroed
  exact ⟨c, ⟨π, h, hc⟩, hc⟩

theorem Canon.self {T : IRType} {p c : Nat} (h : Canon T p c) : Canon T c c := by
  obtain ⟨π, -, hc⟩ := h
  exact ⟨zeroed π, hc, by rwa [zeroed_zeroed]⟩

/-! ## fields -/

section
variable {fields : List (Nat × IRType)} {p size j k off off' : Nat} {T T' : IRType}

theorem FieldsFit.get (h : FieldsFit p fields size) (hk : fields[k]? = some (off, T)) :
    p ≤ off ∧ off + T.allocSize ≤ size := by
  induction fields generalizing p k with
  | nil => cases hk
  | cons f rest ih =>
    cases k with
    | zero =>
      obtain rfl := Option.some.inj hk
      exact ⟨h.1, h.2.le⟩
    | succ k =>
      obtain ⟨h1, h2⟩ := ih h.2 hk
      have := h.1
      exact ⟨by omega, h2⟩

theorem FieldsFit.lt_get (h : FieldsFit p fields size) (hj : fields[j]? = some (off, T))
    (hk : fields[k]? = some (off', T')) (hjk : j < k) : off + T.allocSize ≤ off' := by
  induction fields generalizing p j k with
  | nil => cases hj
  | cons f rest ih =>
    cases k with
    | zero => exact absurd hjk (Nat.not_lt_zero j)
    | succ k =>
      cases j with
      | zero =>
        obtain rfl := Option.some.inj hj
        exact (h.2.get hk).1
      | succ j => exact ih h.2 hj hk (Nat.lt_of_succ_lt_succ hjk)

end

/-- a leaf starts inside its type -/
theorem Leaf.lt {T : IRType} {π : List Step} {p : Nat} (h : Leaf T π p) (hT : Sized T) :
    p < T.allocSize := by
  induction h with
  | scalar =>
    cases hT with
    | scalar hpos _ => exact hpos
  | pointer =>
    cases hT with
    | pointer hpos _ => exact hpos
  | @elem n e i π p hi _ ih =>
    cases hT with
    | array _ _ he =>
      have hp := ih he
      calc i * e.allocSize + p < (i + 1) * e.allocSize := by rw [Nat.add_mul, Nat.one_mul]; omega
        _ ≤ n * e.allocSize := Nat.mul_le_mul_right _ hi
  | @field name fields size k off T π p hk _ ih =>
    cases hT with
    | struct hfit _ _ hfields =>
      have hp := ih (hfields _ (List.mem_of_getElem? hk))
      have hle := (hfit.get hk).2
      show off + p < size
      omega

/-- different leaves start at different offsets -/
theorem Leaf.path_unique {T : IRType} {π ρ : List Step} {p : Nat} (h : Leaf T π p) (h' : Leaf T ρ p)
    (hT : Sized T) : π = ρ := by
  generalize hq : p = q at h'
  induction h generalizing ρ q with
  | scalar => cases h'; rfl
  | pointer => cases h'; rfl
  | @elem n e i π p hi hleaf ih =>
    cases hT with
    | array _ _ he =>
      cases h' with
      | @elem _ _ i' π' p' hi' hleaf' =>
        have hp := hleaf.lt he
        have hp' := hleaf'.lt he
        have hdiv : i = i' ∧ p = p' := by
          have h1 := Nat.add_mul_div_left p i (Nat.zero_lt_of_lt hp)
          have h2 := Nat.add_mul_div_left p' i' (Nat.zero_lt_of_lt hp')
          rw [Nat.div_eq_of_lt hp, Nat.zero_add] at h1
          rw [Nat.div_eq_of_lt hp', Nat.zero_add] at h2
          have hi : i = i' := by
            rw [← h1, ← h2, Nat.add_comm, Nat.mul_comm, hq, Nat.add_comm, Nat.mul_comm i']
          subst hi
          exact ⟨rfl, by omega⟩
        obtain ⟨rfl, rfl⟩ := hdiv
        rw [ih he _ rfl hleaf']
  | @field name fields size k off T π p hk hleaf ih =>
    cases hT with
    | struct hfit _ _ hfields =>
      cases h' with
      | @field _ _ _ k' off' T' π' p' hk' hleaf' =>
        have hp := hleaf.lt (hfields _ (List.mem_of_getElem? hk))
        have hp' := hleaf'.lt (hfields _ (List.mem_of_getElem? hk'))
        rcases Nat.lt_trichotomy k k' with hlt | rfl | hlt
        · have := hfit.lt_get hk hk' hlt
          omega
        · obtain ⟨rfl, rfl⟩ := Prod.mk.inj (Option.some.inj (hk.symm.trans hk'))
          rw [ih (hfields _ (List.mem_of_getElem? hk)) p' (by omega) hleaf']
        · have := hfit.lt_get hk' hk hlt
          omega

/-! ## levels -/

/-- a leaf is outside the outermost arrays, or in one of them -/
theorem Canon.level {T : IRType} {p c : Nat} (h : Canon T p c) (hT : Sized T) :
    (p = c ∧ ∀ x ∈ topArrays T, c < x.1 ∨ x.1 + x.2.1 * x.2.2.allocSize ≤ c) ∨
      ∃ x ∈ topArrays T, ∃ i < x.2.1, ∃ q d, Canon x.2.2 q d ∧
        p = x.1 + (i * x.2.2.allocSize + q) ∧ c = x.1 + d := by
  induction T using IRType.induction generalizing p c with
  | scalar size =>
    obtain ⟨π, hp, hc⟩ := h
    cases hp
    cases hc
    exact .inl ⟨rfl, by rw [topArrays]; exact fun _ hx => absurd hx List.not_mem_nil⟩
  | pointer size =>
    obtain ⟨π, hp, hc⟩ := h
    cases hp
    cases hc
    exact .inl ⟨rfl, by rw [topArrays]; exact fun _ hx => absurd hx List.not_mem_nil⟩
  | array n e _ =>
    obtain ⟨π, hp, hc⟩ := h
    cases hp with
    | @elem _ _ i π q hi hq =>
      cases hc with
      | @elem _ _ _ _ d _ hd =>
        refine .inr ⟨(0, n, e), ?_, i, hi, q, d, ⟨π, hq, hd⟩, (Nat.zero_add _).symm, ?_⟩
        · rw [topArrays]
          exact List.mem_singleton_self _
        · show 0 * e.allocSize + d = 0 + d
          rw [Nat.zero_mul]
  | struct name fields size ih =>
    obtain ⟨π, hp, hc⟩ := h
    cases hT with
    | struct hfit _ _ hfields =>
    cases hp with
    | @field _ _ _ k off T π q hk hq =>
    cases hc with
    | @field _ _ _ _ off' T' _ d hk' hd =>
    obtain ⟨rfl, rfl⟩ := Prod.mk.inj (Option.some.inj (hk.symm.trans hk'))
    have hmem := List.mem_of_getElem? hk
    have hdlt := hd.lt (hfields _ hmem)
    rw [topArrays]
    rcases ih _ hmem ⟨π, hq, hd⟩ (hfields _ hmem) with ⟨rfl, hout⟩ | ⟨x, hx, i, hi, r, s, hr, rfl, rfl⟩
    · refine .inl ⟨rfl, fun x hx => ?_⟩
      obtain ⟨f, hf, y, hy, rfl⟩ := mem_topArraysOf.mp hx
      obtain ⟨j, hj⟩ := List.mem_iff_getElem?.mp hf
      have hy' := (hfields f hf).ordered.key_le (List.mem_map_of_mem hy)
      rw [((hfields f hf).mem_topArrays hy).2.2] at hy'
      have hend : y.1 + y.2.1 * y.2.2.allocSize ≤ f.2.allocSize := hy'.2
      show _ < y.1 + f.1 ∨ y.1 + f.1 + y.2.1 * y.2.2.allocSize ≤ _
      rcases Nat.lt_trichotomy j k with hlt | rfl | hlt
      · have := hfit.lt_get hj hk hlt
        omega
      · obtain rfl := Option.some.inj (hj.symm.trans hk)
        have := hout y hy
        dsimp only
        omega
      · have := hfit.lt_get hk hj hlt
        omega
    · refine .inr ⟨(x.1 + off, x.2), mem_topArraysOf.mpr ⟨_, hmem, x, hx, rfl⟩, i, hi, r, s, hr, ?_, ?_⟩
      · dsimp only
        omega
      · dsimp only
        omega

/-! ## the arrays and the elements of the layout -/

/-- the first field with scalars starts the structure, also in the layout -/
theorem Leading.first {fields : List (Nat × IRType)} {size : Nat} (hlead : Leading fields size)
    (hfields : ∀ f ∈ fields, Sized f.2) (hex : ∃ f ∈ fields, ¬ Leafless f.2) :
    ∃ k T, fields[k]? = some (0, T) ∧ ¬ Leafless T ∧ fieldLOffset 0 0 fields k = 0 := by
  induction fields with
  | nil =>
    obtain ⟨f, hf, -⟩ := hex
    exact absurd hf List.not_mem_nil
  | cons f rest ih =>
    obtain ⟨off, T⟩ := f
    obtain ⟨rfl, hrest⟩ := hlead
    by_cases hT : Leafless T
    · have hsized := hfields _ List.mem_cons_self
      have hsize := hT.allocSize hsized
      have hmax := hsized.maxLOffset_eq_zero.mpr hT
      obtain ⟨f, hf, hf'⟩ := hex
      have hf := (List.mem_cons.mp hf).resolve_left fun heq => hf' (heq ▸ hT)
      obtain ⟨k, U, hk, hU, hzero⟩ := ih (hrest hsize) (fun g hg => hfields g (.tail _ hg)) ⟨f, hf, hf'⟩
      refine ⟨k + 1, U, hk, hU, ?_⟩
      dsimp only at hsize hmax
      rw [fieldLOffset, hsize, hmax]
      exact hzero
    · exact ⟨0, T, rfl, hT, rfl⟩

theorem Leafless.exists_field {name size : Nat} {fields : List (Nat × IRType)}
    (h : ¬ Leafless (.struct name fields size)) : ∃ f ∈ fields, ¬ Leafless f.2 := by
  by_contra hno
  refine h (.struct fun f hf => ?_)
  by_contra hf'
  exact hno ⟨f, hf, hf'⟩

/-- the first element of the layout is at 0 -/
theorem Sized.zero_mem {T : IRType} (h : Sized T) (hT : ¬ Leafless T) :
    0 ∈ (layoutOf T).elementLayout := by
  induction h with
  | scalar _ _ =>
    rw [layoutOf_scalar]
    exact Finset.mem_singleton_self 0
  | pointer _ _ =>
    rw [layoutOf_pointer]
    exact Finset.mem_singleton_self 0
  | array _ _ _ ih =>
    rw [layoutOf_array_elementLayout]
    exact ih fun he => hT (.array he)
  | @struct name fields size hfit hlead _ hfields ih =>
    obtain ⟨k, U, hk, hU, hzero⟩ := hlead.first hfields (Leafless.exists_field hT)
    exact ((@layoutOf_struct_eq name size fields hfit).2.2.2 0).mpr
      ⟨k, 0, U, 0, hk, ih _ (List.mem_of_getElem? hk) hU, hzero.symm⟩

/-- and it is a leaf, if the arrays have elements -/
theorem Sized.leaf_zero {T : IRType} (h : Sized T) (hwf : Wf T) (hT : ¬ Leafless T) :
    ∃ π, Leaf T π 0 := by
  induction h with
  | scalar _ _ => exact ⟨_, .scalar⟩
  | pointer _ _ => exact ⟨_, .pointer⟩
  | @array n e _ _ _ ih =>
    cases hwf with
    | array hn _ _ he =>
      obtain ⟨π, hπ⟩ := ih he fun he => hT (.array he)
      have hleaf := Leaf.elem hn hπ
      rw [Nat.zero_mul] at hleaf
      exact ⟨_, hleaf⟩
  | struct _ hlead _ hfields ih =>
    cases hwf with
    | struct _ _ hwf =>
      obtain ⟨k, U, hk, hU, -⟩ := hlead.first hfields (Leafless.exists_field hT)
      have hmem := List.mem_of_getElem? hk
      obtain ⟨π, hπ⟩ := ih _ hmem (hwf _ hmem) hU
      exact ⟨_, .field hk hπ⟩

/-- indexing an array is indexing its element -/
theorem Sized.index_elem {x : Nat × Nat × IRType} (h : Sized x.2.2) (p : Nat) :
    (((arrayOf x).2.indexPhysicalOffset p).1 : Int) =
        (between (layoutOf x.2.2).subArrays (p % x.2.2.allocSize) 0).1 ∧
      ((arrayOf x).2.indexPhysicalOffset p).2 =
        (between (layoutOf x.2.2).subArrays (p % x.2.2.allocSize) 0).2 := by
  have hord := h.ordered_subArrays
  rw [arrayOf]
  cases hsub : (layoutOf x.2.2).subArrays with
  | nil => exact ⟨(sub_zero _).symm, rfl⟩
  | cons y rest =>
    rw [hsub] at hord
    have hfrom := indexBetweenArraysFrom_eq hord h.size_lt (Nat.zero_le 0)
      (Nat.zero_le (p % x.2.2.allocSize)) (l := 0)
    rw [Nat.cast_zero, sub_zero] at hfrom
    rw [hfrom]
    exact ⟨rfl, rfl⟩

/-- outermost arrays that share an offset are one -/
theorem Sized.eq_of_overlap {T : IRType} (hT : Sized T) {x y : Nat × Nat × IRType}
    (hx : x ∈ topArrays T) (hy : y ∈ topArrays T) {d : Nat} (hxd : x.1 ≤ d)
    (hdx : d < x.1 + x.2.1 * x.2.2.allocSize) (hyd : y.1 ≤ d)
    (hdy : d < y.1 + y.2.1 * y.2.2.allocSize) : x = y := by
  rw [← (hT.mem_topArrays hx).2.2] at hdx
  rw [← (hT.mem_topArrays hy).2.2] at hdy
  have hpair : (topArrays T).Pairwise fun z w => z.1 + (arrayOf z).2.getArraySize ≤ w.1 :=
    List.pairwise_map.mp hT.ordered.pairwise
  have hone := List.Pairwise.forall_of_forall_of_flip
    (R := fun z w => z.1 ≤ d → w.1 ≤ d → d < z.1 + (arrayOf z).2.getArraySize →
      d < w.1 + (arrayOf w).2.getArraySize → z = w)
    (fun _ _ _ _ _ _ => rfl) (hpair.imp fun hle h1 h2 h3 _ => absurd h3 (by omega))
    (hpair.imp fun hle h1 h2 _ h4 => absurd h4 (by omega))
  exact hone hx hy hxd hyd hdx hdy

/-! ## the arrays below an offset -/

theorem Sized.keys_le {T : IRType} (hT : Sized T) :
    (topArrays T).Pairwise fun x y => x.1 ≤ y.1 := by
  have h := hT.ordered.keys_le
  rwa [List.pairwise_map] at h

namespace ClearAt

/-- no array is dropped that starts before -/
theorem between {T : IRType} {p : Nat} (h : ClearAt T p) (hT : Sized T) (d : Int) :
    AserPTA.between (layoutOf T).subArrays p d =
      AserPTA.between ((topArrays T).map arrayOf) p d := by
  cases h with
  | mk hkeys _ _ =>
    have hmap : ∀ A : List (Nat × Nat × IRType),
        (A.map arrayOf).filter (·.1 < p) = (A.filter (·.1 < p)).map arrayOf :=
      fun A => List.filter_map
    rw [← between_filter hT.ordered_subArrays.keys_le, ← between_filter hT.ordered.keys_le, hmap,
      hT.subArrays_eq, hmap, taken_filter hT.keys_le, taken_eq_self hkeys (by exact nofun)]

theorem element {n p : Nat} {e : IRType} (h : ClearAt (.array n e) p) (hp : 0 < p)
    (hlt : p < n * e.allocSize) : ClearAt e (p % e.allocSize) := by
  cases h with
  | mk _ _ hin =>
    have hmem : (0, n, e) ∈ topArrays (.array n e) := by
      rw [topArrays]
      exact List.mem_singleton_self _
    exact hin _ hmem hp (by rwa [Nat.zero_add])

theorem field {name size p d : Nat} {fields : List (Nat × IRType)}
    (h : ClearAt (.struct name fields size) p) {f : Nat × IRType} (hf : f ∈ fields) (hd : f.1 + d = p) :
    ClearAt f.2 d := by
  cases h with
  | mk hkeys hfull hin =>
    rw [topArrays] at hkeys hfull hin
    have hmem : ∀ x ∈ topArrays f.2, (x.1 + f.1, x.2) ∈ topArraysOf fields :=
      fun x hx => mem_topArraysOf.mpr ⟨f, hf, x, hx, rfl⟩
    refine .mk ?_ (fun x hx hlt => hfull (x.1 + f.1, x.2) (hmem x hx) (by dsimp only; omega))
      fun x hx hlt hp => ?_
    · have hsub : ((topArrays f.2).map fun x => (x.1 + f.1, x.2)).Sublist (topArraysOf fields) := by
        clear hkeys hfull hin hmem
        induction fields with
        | nil => exact absurd hf List.not_mem_nil
        | cons g rest ih =>
          rw [topArraysOf]
          rcases List.mem_cons.mp hf with rfl | hf
          · exact List.sublist_append_left _ _
          · exact (ih hf).trans (List.sublist_append_right _ _)
      have hpair := hkeys.sublist (hsub.filter _)
      rw [List.filter_map] at hpair
      have hsame : ((fun x : Nat × Nat × IRType => decide (x.1 < p)) ∘ fun x => (x.1 + f.1, x.2)) =
          fun x : Nat × Nat × IRType => decide (x.1 < d) := by
        funext x
        exact decide_eq_decide.mpr (by dsimp only; omega)
      rw [hsame] at hpair
      exact (List.pairwise_map.mp hpair).imp fun hlt => Nat.lt_of_add_lt_add_right hlt
    · have h := hin (x.1 + f.1, x.2) (hmem x hx) (by dsimp only; omega) (by dsimp only; omega)
      have hsub : p - (x.1 + f.1) = d - x.1 := by omega
      dsimp only at h
      rwa [hsub] at h

end ClearAt

/-- what the arrays of the fields lose, dropped or not -/
theorem lost_topArraysOf {fields : List (Nat × IRType)}
    (hfields : ∀ f ∈ fields,
      lost ((topArrays f.2).map arrayOf) = f.2.allocSize - (layoutOf f.2).maxLOffset)
    {l p size : Nat} (hfit : FieldsFit p fields size) :
    lost ((topArraysOf fields).map arrayOf) =
      ((endOffsets l p fields).2 : Int) - (endOffsets l p fields).1 - (p - l) := by
  induction fields generalizing l p with
  | nil => exact (sub_self _).symm
  | cons f rest ih =>
    obtain ⟨off, T⟩ := f
    have hT := hfields _ List.mem_cons_self
    have hoff : p ≤ off := hfit.1
    rw [topArraysOf, List.map_append, map_arrayOf_shift, lost_append, lost_shift, hT,
      ih (fun g hg => hfields g (.tail _ hg)) (l := l + (off - p) + (layoutOf T).maxLOffset) hfit.2]
    show _ = ((endOffsets _ _ rest).2 : Int) - (endOffsets _ _ rest).1 - _
    push_cast [Nat.cast_sub hoff]
    ring

theorem Sized.lost {T : IRType} (hT : Sized T) :
    AserPTA.lost ((topArrays T).map arrayOf) = T.allocSize - (layoutOf T).maxLOffset := by
  induction hT with
  | @scalar size _ _ =>
    rw [layoutOf_scalar, topArrays]
    exact (sub_self _).symm
  | @pointer size _ _ =>
    rw [layoutOf_pointer, topArrays]
    exact (sub_self _).symm
  | @array n e hn hmul he _ =>
    have htop : topArrays (.array n e) = [(0, n, e)] := by rw [topArrays]
    have hsize := ((Sized.array hn hmul he).mem_topArrays (htop ▸ List.mem_singleton_self _)).2.2
    rw [htop, layoutOf_array_maxLOffset]
    show ((arrayOf (0, n, e)).2.getArraySize : Int) - (layoutOf e).maxLOffset + 0 = _
    rw [hsize, add_zero]
    rfl
  | @struct name fields size hfit _ _ _ ih =>
    obtain ⟨-, hmax, -⟩ := @layoutOf_struct_eq name size fields hfit
    have hle : (endOffsets 0 0 fields).2 ≤ size := endOffsets_le hfit
    rw [topArrays, hmax, lost_topArraysOf ih (l := 0) hfit]
    push_cast [Nat.cast_sub hle]
    show _ = (size : Int) - _
    ring

/-! ## indexing -/

/-- a leaf or the start of an outermost array with scalars -/
def Place (T : IRType) (p : Nat) : Prop :=
  (∃ π, Leaf T π p) ∨ ∃ x ∈ topArrays T, x.1 = p ∧ ¬ Leafless x.2.2

theorem Leaf.not_leafless {T : IRType} {π : List Step} {p : Nat} (h : Leaf T π p) : ¬ Leafless T := by
  induction h with
  | scalar => exact nofun
  | pointer => exact nofun
  | elem _ _ ih =>
    rintro ⟨he⟩
    exact ih he
  | field hk _ ih =>
    intro h
    cases h with
    | struct hfields => exact ih (hfields _ (List.mem_of_getElem? hk))

theorem Place.field {name size p : Nat} {fields : List (Nat × IRType)}
    (h : Place (.struct name fields size) p) :
    ∃ (k off : Nat) (U : IRType) (d : Nat),
      fields[k]? = some (off, U) ∧ Place U d ∧ off + d = p := by
  rcases h with ⟨π, hπ⟩ | ⟨x, hx, rfl, hfull⟩
  · cases hπ with
    | @field _ _ _ k off U π q hk hq => exact ⟨k, off, U, q, hk, .inl ⟨π, hq⟩, rfl⟩
  · rw [topArrays] at hx
    obtain ⟨f, hf, y, hy, rfl⟩ := mem_topArraysOf.mp hx
    obtain ⟨k, hk⟩ := List.mem_iff_getElem?.mp hf
    exact ⟨k, f.1, f.2, y.1, hk, .inr ⟨y, hy, rfl, hfull⟩, Nat.add_comm _ _⟩

theorem Place.le {T : IRType} {p : Nat} (h : Place T p) (hT : Sized T) : p ≤ T.allocSize := by
  rcases h with ⟨π, hπ⟩ | ⟨x, hx, rfl, -⟩
  · exact (hπ.lt hT).le
  · have := (hT.ordered.key_le (List.mem_map_of_mem hx)).2
    exact (Nat.le_add_right _ _).trans this

/-- the places of the fields are indexed as elements of the fields -/
theorem place_fields {P : Nat} {fields : List (Nat × IRType)} (hsized : ∀ f ∈ fields, Sized f.2)
    (ih : ∀ f ∈ fields, ∀ d, f.1 + d = P → Place f.2 d → ∃ l ∈ (layoutOf f.2).elementLayout,
      (between ((topArrays f.2).map arrayOf) d 0).1 = (l : Int))
    {l p size : Nat} (hfit : FieldsFit p fields size) {k off c : Nat} {T : IRType}
    (hk : fields[k]? = some (off, T)) (hc : Place T c) (hP : off + c = P) :
    ∃ k' off' T' m, fields[k']? = some (off', T') ∧ m ∈ (layoutOf T').elementLayout ∧
      (between ((topArraysOf fields).map arrayOf) P (p - l)).1 =
        (fieldLOffset l p fields k' + m : Nat) := by
  induction fields generalizing l p k with
  | nil => cases hk
  | cons f rest ihrest =>
    obtain ⟨off₀, T₀⟩ := f
    have hT₀ : Sized T₀ := hsized _ List.mem_cons_self
    have hoff : p ≤ off₀ := hfit.1
    have hrest : Ordered (off₀ + T₀.allocSize) ((topArraysOf rest).map arrayOf) size :=
      ordered_topArraysOf (fun g hg => (hsized g (.tail _ hg)).ordered) hfit.2
    have hhead : Ordered off₀ (shift off₀ ((topArrays T₀).map arrayOf)) (off₀ + T₀.allocSize) := by
      have h := hT₀.ordered.shift off₀
      rwa [Nat.zero_add, Nat.add_comm] at h
    rw [topArraysOf, List.map_append, map_arrayOf_shift]
    -- a place of this field, and one that the loop does not tell from it
    have hfirst : ∀ d, off₀ + d = P → Place T₀ d → ∃ m ∈ (layoutOf T₀).elementLayout,
        (between (shift off₀ ((topArrays T₀).map arrayOf) ++ (topArraysOf rest).map arrayOf) P
          (p - l)).1 = (l + (off₀ - p) + m : Nat) := by
      intro d hd hplace
      obtain ⟨m, hm, heq⟩ := ih _ List.mem_cons_self d hd hplace
      refine ⟨m, hm, ?_⟩
      have hle := hplace.le hT₀
      rw [between_append hrest (by omega), ← hd, Nat.add_comm off₀ d, between_shift, between_sub]
      dsimp only at heq ⊢
      rw [heq]
      push_cast [Nat.cast_sub hoff]
      ring
    cases k with
    | zero =>
      obtain ⟨rfl, rfl⟩ := Prod.mk.inj (Option.some.inj hk)
      obtain ⟨m, hm, heq⟩ := hfirst c hP hc
      exact ⟨0, off₀, T₀, m, rfl, hm, heq⟩
    | succ k =>
      have hbehind : off₀ + T₀.allocSize ≤ P := by
        have := (hfit.2.get (k := k) hk).1
        omega
      by_cases hempty : ∀ z ∈ topArrays T₀, P ≤ z.1 + off₀ → Leafless z.2.2
      · obtain ⟨k', off', T', m, hk', hm, heq⟩ := ihrest (fun g hg => hsized g (.tail _ hg))
          (fun g hg => ih g (.tail _ hg)) (l := l + (off₀ - p) + (layoutOf T₀).maxLOffset) hfit.2 hk
        refine ⟨k' + 1, off', T', m, hk', hm, ?_⟩
        rw [between_past_lost hhead hrest hbehind ?_, lost_shift, hT₀.lost]
        · refine Eq.trans ?_ heq
          congr 2
          push_cast [Nat.cast_sub hoff]
          ring
        · intro x hx hge
          obtain ⟨y, hy, rfl⟩ := List.mem_map.mp hx
          obtain ⟨z, hz, rfl⟩ := List.mem_map.mp hy
          obtain ⟨hsized, -, hsize⟩ := hT₀.mem_topArrays hz
          have hleafless := hempty z hz hge
          have hmax : (arrayOf z).2.layoutSize = 0 := hsized.maxLOffset_eq_zero.mpr hleafless
          dsimp only
          rw [hsize, hleafless.allocSize hsized, hmax, Nat.mul_zero]
      · -- an array at the end of this field
        push Not at hempty
        obtain ⟨z, hz, hge, hfull⟩ := hempty
        have hend := (hT₀.ordered.key_le (List.mem_map_of_mem hz)).2
        have hkey : z.1 = T₀.allocSize := by
          change z.1 + _ ≤ _ at hend
          omega
        obtain ⟨m, hm, heq⟩ := hfirst z.1 (by omega) (.inr ⟨z, hz, rfl, hfull⟩)
        exact ⟨0, off₀, T₀, m, rfl, hm, heq⟩

/-- a place is indexed as an element -/
theorem Sized.place {T : IRType} (hT : Sized T) {p : Nat} (h : ClearAt T p) (hp : Place T p) :
    ∃ l ∈ (layoutOf T).elementLayout, (between ((topArrays T).map arrayOf) p 0).1 = (l : Int) := by
  induction hT generalizing p with
  | @scalar size _ _ =>
    rw [layoutOf_scalar, topArrays]
    rcases hp with ⟨π, hπ⟩ | ⟨x, hx, -⟩
    · cases hπ
      exact ⟨0, Finset.mem_singleton_self 0, rfl⟩
    · rw [topArrays] at hx
      exact absurd hx List.not_mem_nil
  | @pointer size _ _ =>
    rw [layoutOf_pointer, topArrays]
    rcases hp with ⟨π, hπ⟩ | ⟨x, hx, -⟩
    · cases hπ
      exact ⟨0, Finset.mem_singleton_self 0, rfl⟩
    · rw [topArrays] at hx
      exact absurd hx List.not_mem_nil
  | @array n e hn hmul he ih =>
    have htop : topArrays (.array n e) = [(0, n, e)] := by rw [topArrays]
    have hsize := ((Sized.array hn hmul he).mem_topArrays (htop ▸ List.mem_singleton_self _)).2.2
    have hstart : ¬ Leafless e → ∃ l ∈ (layoutOf (.array n e)).elementLayout,
        (between ((topArrays (.array n e)).map arrayOf) 0 0).1 = (l : Int) := by
      intro hfull
      rw [layoutOf_array_elementLayout, htop]
      refine ⟨0, he.zero_mem hfull, ?_⟩
      rw [List.map_singleton, between, if_pos (Nat.zero_le _)]
      rfl
    rcases hp with ⟨π, hπ⟩ | ⟨x, hx, rfl, hfull⟩
    · have hlt : p < n * e.allocSize := hπ.lt (.array hn hmul he)
      cases hπ with
      | @elem _ _ i π q hi hq =>
      rcases Nat.eq_zero_or_pos (i * e.allocSize + q) with hzero | hpos
      · rw [hzero]
        exact hstart hq.not_leafless
      · have hmod : (i * e.allocSize + q) % e.allocSize = q := by
          rw [Nat.mul_comm, Nat.mul_add_mod, Nat.mod_eq_of_lt (hq.lt he)]
        have hclear := h.element hpos hlt
        rw [hmod] at hclear
        obtain ⟨l, hl, heq⟩ := ih hclear (.inl ⟨π, hq⟩)
        refine ⟨l, by rwa [layoutOf_array_elementLayout], ?_⟩
        have hindex := (Sized.index_elem (x := (0, n, e)) he (i * e.allocSize + q)).1
        rw [hmod, hclear.between he, heq] at hindex
        rw [htop, List.map_singleton, between_cons_inside (Nat.zero_le _)]
        · show ((ArrayLayout.indexPhysicalOffset _ (_ - 0)).1 : Int) + (((0 : Nat) : Int) - 0) = l
          rw [Nat.sub_zero, hindex]
          push_cast
          ring
        · rw [hsize]
          show _ < 0 + n * e.allocSize
          omega
    · rw [htop] at hx
      obtain rfl := List.mem_singleton.mp hx
      exact hstart hfull
  | @struct name fields size hfit _ _ hfields ih =>
    obtain ⟨k, off, U, d, hk, hd, hP⟩ := Place.field hp
    obtain ⟨k', off', T', m, hk', hm, heq⟩ := place_fields hfields
      (fun f hf d hd => ih f hf (h.field hf hd)) (l := 0) hfit hk hd hP
    rw [Nat.cast_zero, sub_zero] at heq
    rw [topArrays]
    exact ⟨_, ((@layoutOf_struct_eq name size fields hfit).2.2.2 _).mpr
      ⟨k', off', T', m, hk', hm, rfl⟩, heq⟩

/-- the code's indexing of a leaf -/
theorem ClearAt.index {T : IRType} {p : Nat} (h : ClearAt T p) (hT : Sized T) {π : List Step}
    (hπ : Leaf T π p) : ∃ l ∈ (layoutOf T).elementLayout,
      (AserPTA.between (layoutOf T).subArrays p 0).1 = (l : Int) ∧
        (layoutOf T).indexPhysicalOffset p = (l, (AserPTA.between (layoutOf T).subArrays p 0).2) := by
  obtain ⟨l, hl, heq⟩ := hT.place h (.inl ⟨π, hπ⟩)
  rw [← h.between hT] at heq
  refine ⟨l, hl, heq, ?_⟩
  have hpair : ∀ r : Nat × Nat, ((r.1 : Int), r.2) = AserPTA.between (layoutOf T).subArrays p 0 →
      r = (l, (AserPTA.between (layoutOf T).subArrays p 0).2) := by
    intro r hr
    rw [← hr] at heq ⊢
    exact Prod.ext (Int.ofNat_inj.mp heq) rfl
  rw [MemLayout.indexPhysicalOffset]
  split
  · next hnil =>
    refine hpair (p, p) ?_
    rw [hnil, AserPTA.between, sub_zero]
  · rw [if_neg (Nat.not_le.mpr (hT.maxPOffset.symm ▸ hπ.lt hT))]
    have hfrom := indexBetweenArraysFrom_eq hT.ordered_subArrays hT.size_lt (Nat.zero_le 0)
      (Nat.zero_le p) (l := 0)
    rw [Nat.cast_zero, sub_zero] at hfrom
    exact hpair _ hfrom.symm

/-- a leaf has an object -/
theorem ClearAt.lookup_isSome {T : IRType} {p : Nat} (h : ClearAt T p) (hT : Sized T)
    {b : AggregateMemBlock} (hb : b.layout = layoutOf T) {π : List Step} (hπ : Leaf T π p) :
    (b.lookup p).1.isSome := by
  obtain ⟨l, hl, -, hindex⟩ := h.index hT hπ
  obtain ⟨f, hf⟩ := Option.isSome_iff_exists.mp (MemLayout.elementNumber_isSome.mpr hl)
  rw [AggregateMemBlock.lookup]
  split
  · rfl
  · rw [hb, hindex]
    dsimp only
    rw [hf]
    rfl

/-- no array is dropped -/
theorem Clear.subArrays {T : IRType} (h : Clear T) (hT : Sized T) :
    (layoutOf T).subArrays = (topArrays T).map arrayOf := by
  cases h with
  | mk hkeys _ _ => rw [hT.subArrays_eq, taken_eq_self hkeys (by exact nofun)]

/-- a leaf is indexed as the one of the first elements, whose offset is left -/
theorem Clear.index_canon (T : IRType) : Clear T → Sized T → ∀ p c, Canon T p c →
    between (layoutOf T).subArrays p 0 = ((between (layoutOf T).subArrays c 0).1, c) := by
  induction T using nesting_induction with
  | h T ih =>
    intro h hT p c hc
    have hA := h.subArrays hT
    rcases hc.level hT with ⟨rfl, hout⟩ | ⟨x, hx, i, hi, q, d, hd, rfl, rfl⟩
    · refine Prod.ext rfl (between_outside (fun y hy => ?_) 0)
      rw [hA] at hy
      obtain ⟨x, hx, rfl⟩ := List.mem_map.mp hy
      rw [(hT.mem_topArrays hx).2.2]
      exact (hout x hx).imp_left Nat.le_of_lt
    · obtain ⟨he, -, hsize⟩ := hT.mem_topArrays hx
      have hq : q < x.2.2.allocSize := by
        obtain ⟨π, hπ, -⟩ := hd
        exact hπ.lt he
      have hdlt : d < x.2.2.allocSize := by
        obtain ⟨π, -, hπ⟩ := hd
        exact hπ.lt he
      have hpos := Nat.zero_lt_of_lt hq
      have hle : i * x.2.2.allocSize + x.2.2.allocSize ≤ x.2.1 * x.2.2.allocSize := by
        rw [← Nat.succ_mul]
        exact Nat.mul_le_mul_right _ hi
      have hclear : Clear x.2.2 := by
        cases h with
        | mk _ _ hin => exact hin x hx (Nat.mul_pos (Nat.zero_lt_of_lt hi) hpos)
      -- both offsets are in the array, and in the same place of the element
      have hindex := ih x hx hclear he q d hd
      have hself := ih x hx hclear he d d hd.self
      have hmod : (i * x.2.2.allocSize + q) % x.2.2.allocSize = q := by
        rw [Nat.mul_comm, Nat.mul_add_mod, Nat.mod_eq_of_lt hq]
      obtain ⟨hiq1, hiq2⟩ := he.index_elem (i * x.2.2.allocSize + q)
      obtain ⟨hid1, hid2⟩ := he.index_elem d
      rw [hmod, hindex] at hiq1 hiq2
      rw [Nat.mod_eq_of_lt hdlt, hself] at hid1 hid2
      obtain ⟨base, hbase⟩ := between_in hT.ordered_subArrays hT.keys_lt
        (hA ▸ List.mem_map_of_mem hx : arrayOf x ∈ (layoutOf T).subArrays) 0
      have hsub : ∀ r, x.1 + r - x.1 = r := Nat.add_sub_cancel_left x.1
      have hp := hbase (x.1 + (i * x.2.2.allocSize + q)) (Nat.le_add_right _ _)
        (by rw [hsize]; show x.1 + _ < x.1 + _; omega)
      have hc := hbase (x.1 + d) (Nat.le_add_right _ _)
        (by rw [hsize]; show x.1 + _ < x.1 + _; omega)
      change between _ _ 0 = ((((arrayOf x).2.indexPhysicalOffset (x.1 + _ - x.1)).1 : Int) + base,
        x.1 + ((arrayOf x).2.indexPhysicalOffset (x.1 + _ - x.1)).2) at hp hc
      rw [hsub] at hp hc
      rw [hp, hc]
      exact Prod.ext (congrArg (· + base) (hiq1.trans hid1.symm)) (congrArg (x.1 + ·) hiq2)

/-- the leaves of the first elements are indexed in their order -/
theorem Clear.index_lt (T : IRType) : Clear T → Sized T → ∀ c c', Canon T c c → Canon T c' c' →
    c < c' → (between (layoutOf T).subArrays c 0).1 < (between (layoutOf T).subArrays c' 0).1 := by
  induction T using nesting_induction with
  | h T ih =>
    intro h hT c c' hc hc' hlt
    have hA := h.subArrays hT
    have hfull : ∀ x ∈ topArrays T, ¬ Leafless x.2.2 := by
      cases h with
      | mk _ hfull _ => exact hfull
    -- a leaf that is not outside an array is one of its first element
    have hin : ∀ x ∈ topArrays T, ∀ d, Canon T d d → x.1 ≤ d → d < x.1 + x.2.1 * x.2.2.allocSize →
        Clear x.2.2 ∧ Canon x.2.2 (d - x.1) (d - x.1) := by
      intro x hx d hd hxd hdx
      rcases hd.level hT with ⟨-, hout⟩ | ⟨y, hy, i, hi, q, r, hr, hdq, hdr⟩
      · have := hout x hx
        omega
      · have hrlt : r < y.2.2.allocSize := by
          obtain ⟨π, -, hπ⟩ := hr
          exact hπ.lt (hT.mem_topArrays hy).1
        have hle : y.2.2.allocSize ≤ y.2.1 * y.2.2.allocSize :=
          Nat.le_mul_of_pos_left _ (Nat.zero_lt_of_lt hi)
        obtain rfl : x = y := hT.eq_of_overlap hx hy hxd hdx (by omega) (by omega)
        have hpos : 0 < x.2.1 * x.2.2.allocSize := by omega
        refine ⟨?_, ?_⟩
        · cases h with
          | mk _ _ hin => exact hin x hx hpos
        · have hsub : d - x.1 = r := by omega
          rw [hsub]
          exact hr.self
    have hlocal : ∀ x ∈ topArrays T, ∀ d, Canon x.2.2 d d →
        (((arrayOf x).2.indexPhysicalOffset d).1 : Int) =
          (between (layoutOf x.2.2).subArrays d 0).1 := by
      intro x hx d hd
      obtain ⟨he, -, -⟩ := hT.mem_topArrays hx
      have hdlt : d < x.2.2.allocSize := by
        obtain ⟨π, hπ, -⟩ := hd
        exact hπ.lt he
      have hidx := (he.index_elem d).1
      rwa [Nat.mod_eq_of_lt hdlt] at hidx
    refine between_lt hT.ordered_subArrays hlt ?_ ?_ 0
    · rw [hA]
      intro y hy
      obtain ⟨x, hx, rfl⟩ := List.mem_map.mp hy
      have hne := mt (hT.mem_topArrays hx).1.maxLOffset_eq_zero.mp (hfull x hx)
      exact Nat.pos_of_ne_zero hne
    · rw [hA]
      intro y hy hxc hcx
      obtain ⟨x, hx, rfl⟩ := List.mem_map.mp hy
      obtain ⟨he, -, hsize⟩ := hT.mem_topArrays hx
      rw [hsize] at hcx ⊢
      obtain ⟨hclear, hd⟩ := hin x hx c hc hxc hcx
      obtain ⟨m, hm, heq⟩ : ∃ m ∈ (layoutOf x.2.2).elementLayout,
          (between (layoutOf x.2.2).subArrays (c - x.1) 0).1 = (m : Int) := by
        obtain ⟨π, hπ, -⟩ := hd
        obtain ⟨m, hm, heq, -⟩ := (hclear.clearAt _).index he hπ
        exact ⟨m, hm, heq⟩
      have hmlt := he.bits.1 m hm
      have hloc := hlocal x hx _ hd
      refine ⟨?_, fun hcx' => ?_⟩
      · show ((arrayOf x).2.indexPhysicalOffset (c - x.1)).1 < (layoutOf x.2.2).maxLOffset
        omega
      · obtain ⟨-, hd'⟩ := hin x hx c' hc' (le_trans hxc hlt.le) hcx'
        have hmono := ih x hx hclear he _ _ hd hd' (by change x.1 ≤ c at hxc; omega)
        have hloc' := hlocal x hx _ hd'
        show ((arrayOf x).2.indexPhysicalOffset (c - x.1)).1 <
          ((arrayOf x).2.indexPhysicalOffset (c' - x.1)).1
        omega

/-! ## the objects of a block -/

namespace Clear

variable {T : IRType} (h : Clear T) (hT : Sized T)
include h hT

/-- the code's indexing of a leaf -/
theorem index_leaf {p c : Nat} (hc : Canon T p c) : ∃ l ∈ (layoutOf T).elementLayout,
    (between (layoutOf T).subArrays c 0).1 = (l : Int) ∧
      (layoutOf T).indexPhysicalOffset p = (l, c) := by
  have hcanon := index_canon T h hT p c hc
  obtain ⟨π, hπ, -⟩ := hc
  obtain ⟨l, hl, heq, hindex⟩ := (h.clearAt p).index hT hπ
  rw [hcanon] at heq hindex
  exact ⟨l, hl, heq, hindex⟩

variable {b b' : AggregateMemBlock} (hb : b.layout = layoutOf T) (hb' : b'.layout = layoutOf T)

include hb in
/-- the object of a leaf is the one of its element -/
theorem lookup {p c : Nat} (hc : Canon T p c) : ∃ l ∈ (layoutOf T).elementLayout,
    (between (layoutOf T).subArrays c 0).1 = (l : Int) ∧
      (b.lookup p).1 = (layoutOf T).elementNumber l := by
  obtain ⟨l, hl, heq, hindex⟩ := h.index_leaf hT hc
  refine ⟨l, hl, heq, ?_⟩
  rw [AggregateMemBlock.lookup]
  by_cases h0 : p = 0
  · subst h0
    obtain ⟨π, hπ, hz⟩ := hc
    obtain ⟨c', hle, hc'⟩ := hπ.zeroed
    obtain rfl : c = 0 := (hz.offset_unique hc').trans (Nat.le_zero.mp hle)
    rw [between_before hT.ordered_subArrays le_rfl, sub_zero] at heq
    obtain rfl : 0 = l := Int.ofNat_inj.mp heq
    rw [if_pos rfl]
    refine (MemLayout.elementNumber_eq_some.mpr ⟨hl, ?_⟩).symm
    rw [Finset.card_eq_zero, Finset.filter_eq_empty_iff]
    exact fun x _ => Nat.not_lt_zero x
  · rw [if_neg h0, hb, hindex]
    dsimp only
    cases hf : (layoutOf T).elementNumber l with
    | none => rfl
    | some f => rfl

include hb hb' in
/-- two leaves have one object iff they differ in array indices only -/
theorem sameObject_iff {π ρ : List Step} {p q : Nat} (hπ : Leaf T π p) (hρ : Leaf T ρ q) :
    (b.lookup p).1 = (b'.lookup q).1 ↔ zeroed π = zeroed ρ := by
  obtain ⟨c, hc, hcleaf⟩ := hπ.canon
  obtain ⟨d, hd, hdleaf⟩ := hρ.canon
  obtain ⟨l, hl, hlc, heq⟩ := h.lookup hT hb hc
  obtain ⟨m, hm, hmd, heq'⟩ := h.lookup hT hb' hd
  rw [heq, heq']
  constructor
  · intro hsame
    obtain ⟨f, hf⟩ := Option.isSome_iff_exists.mp (MemLayout.elementNumber_isSome.mpr hl)
    obtain rfl := MemLayout.elementNumber_inj hf (hsame ▸ hf)
    -- the offsets of the first elements are in the order of the elements
    obtain rfl : c = d := by
      rcases Nat.lt_trichotomy c d with hlt | hcd | hlt
      · have := index_lt T h hT c d hc.self hd.self hlt
        omega
      · exact hcd
      · have := index_lt T h hT d c hd.self hc.self hlt
        omega
    exact hcleaf.path_unique hdleaf hT
  · intro hz
    obtain rfl := hcleaf.offset_unique (hz ▸ hdleaf)
    obtain rfl : l = m := Int.ofNat_inj.mp (hlc.symm.trans hmd)
    rfl

end Clear

end IRType
end AserPTA
