import AserPTA.MemoryModel.MemBlock

/-!
# Constant indices

An object remembers the offset of the leaf with all array indices 0, so what a GEP with a constant
offset is added to is that offset and not the one that was asked for.  Forwards this makes no
difference; backwards the sum leaves the object, or wraps around.

* `typeAt`, `Leaf.move`     an array in a type, and another element of it;
* `SameObject`, `Placed.sameObject_iff`   when adding an offset to an object gives another one;
* `Wraps`                   the wrapped offset is one of the same leaf in an unbounded array;
* `indexObject_const_iff`   when a GEP by `k` elements gives the object of the element `k` further on.
-/

namespace AserPTA
open IRType

namespace IRType

/-- the type that the steps lead to -/
def typeAt : IRType → List Step → Option IRType
  | T, [] => some T
  | array _ e, .index _ :: π => typeAt e π
  | struct _ fields _, .field k :: π => (fields[k]?).bind fun f => typeAt f.2 π
  | _, _ :: _ => none

/-- the leaf in another element of an array -/
theorem Leaf.move {T e : IRType} {π₁ π₂ : List Step} {n i j p : Nat}
    (hat : typeAt T π₁ = some (array n e)) (h : Leaf T (π₁ ++ .index i :: π₂) p) (hj : j < n) :
    ∃ r, p = r + i * e.allocSize ∧ i < n ∧ Leaf T (π₁ ++ .index j :: π₂) (r + j * e.allocSize) := by
  induction π₁ generalizing T p with
  | nil =>
    obtain rfl : T = array n e := by
      rw [typeAt] at hat
      exact Option.some.inj hat
    cases h with
    | @elem _ _ _ _ q hi hleaf =>
      refine ⟨q, Nat.add_comm _ _, hi, ?_⟩
      rw [Nat.add_comm]
      exact .elem hj hleaf
  | cons s π₁ ih =>
    cases h with
    | @elem m e' a _ q hi hleaf =>
      obtain ⟨r, rfl, hi', hmove⟩ := ih (by rw [typeAt] at hat; exact hat) hleaf
      refine ⟨a * e'.allocSize + r, (Nat.add_assoc _ _ _).symm, hi', ?_⟩
      rw [Nat.add_assoc]
      exact .elem hi hmove
    | @field _ fields _ k off T' _ q hk hleaf =>
      have hat' : typeAt T' π₁ = some (array n e) := by
        rw [typeAt, hk] at hat
        exact hat
      obtain ⟨r, rfl, hi', hmove⟩ := ih hat' hleaf
      refine ⟨off + r, (Nat.add_assoc _ _ _).symm, hi', ?_⟩
      rw [Nat.add_assoc]
      exact .field hk hmove

theorem zeroed_append (π₁ π₂ : List Step) : zeroed (π₁ ++ π₂) = zeroed π₁ ++ zeroed π₂ := by
  induction π₁ with
  | nil => rfl
  | cons s π₁ ih => cases s <;> simp only [List.cons_append, zeroed, ih]

theorem zeroed_move (π₁ π₂ : List Step) (i j : Nat) :
    zeroed (π₁ ++ .index i :: π₂) = zeroed (π₁ ++ .index j :: π₂) := by
  rw [zeroed_append, zeroed_append]
  rfl

theorem typeAt_zeroed {T : IRType} {π : List Step} : typeAt T (zeroed π) = typeAt T π := by
  induction π generalizing T with
  | nil => rfl
  | cons s π ih =>
    cases s with
    | index i => cases T <;> simp only [zeroed, typeAt, ih]
    | field k => cases T <;> simp only [zeroed, typeAt, ih]

/-- what a well-formed type consists of is well-formed -/
theorem Wf.typeAt {T U : IRType} {π : List Step} (h : Wf T) (hat : typeAt T π = some U) : Wf U := by
  induction π generalizing T with
  | nil =>
    rw [IRType.typeAt] at hat
    cases hat
    exact h
  | cons s π ih =>
    cases h with
    | scalar _ _ => cases s <;> cases hat
    | pointer _ _ => cases s <;> cases hat
    | array _ _ _ he =>
      cases s with
      | index _ => exact ih he (by rw [IRType.typeAt] at hat; exact hat)
      | field _ => cases hat
    | @struct _ fields _ _ _ hfields =>
      cases s with
      | index _ => cases hat
      | field k =>
        rw [IRType.typeAt, Option.bind_eq_some_iff] at hat
        obtain ⟨f, hf, hat⟩ := hat
        exact ih (hfields f (List.mem_of_getElem? hf)) hat

/-- array elements have a size -/
theorem BlockOk.elem_pos {T e : IRType} {π : List Step} {n : Nat} (h : BlockOk T)
    (hat : typeAt T π = some (array n e)) : 0 < e.allocSize := by
  have hwf : Wf (array n e) → 0 < e.allocSize := by
    intro h
    cases h with
    | array _ hs _ _ => exact hs
  cases h with
  | bounded _ h => exact hwf (h.typeAt hat)
  | @unbounded e' hs he =>
    cases π with
    | nil =>
      rw [IRType.typeAt] at hat
      cases hat
      exact hs
    | cons s π =>
      cases s with
      | index _ => exact hwf (he.typeAt (by rw [IRType.typeAt] at hat; exact hat))
      | field _ => cases hat

end IRType

/-! ## adding to the offset of an object -/

/-- adding `offset` to the object at `p` gives the object at `p'` -/
def SameObject (b : AggregateMemBlock) (p : Nat) (offset : Int) (p' : Nat) : Prop :=
  ∃ f b₁ b₂ b₃ g, (MemBlock.aggregate b).getObjectAt p = some (some f, b₁) ∧
    b₁.indexObject f (.const offset) = some (some g, b₂) ∧ b₂.getObjectAt p' = some (some g, b₃)

/-- the largest offset is behind every block, and has no bit -/
theorem bitNumber_sizeMax {T : IRType} (hT : BlockOk T) :
    (layoutOf T).bitNumber ((layoutOf T).indexPhysicalOffset sizeMax).1 = none := by
  have hmax : (layoutOf T).maxPOffset ≤ sizeMax := by
    cases hT with
    | bounded hagg h =>
      have := h.size_lt
      rw [h.maxPOffset hagg]
      unfold sizeMax
      omega
    | unbounded _ _ => rw [layoutOf_unbounded_maxPOffset]
  have hindex : ((layoutOf T).indexPhysicalOffset sizeMax).1 = sizeMax := by
    rw [MemLayout.indexPhysicalOffset, if_pos hmax]
    split <;> rfl
  rw [hindex, MemLayout.bitNumber, MemLayout.numberIn, if_neg]
  intro hmem
  obtain ⟨l, -, hl⟩ := Finset.mem_image.mp hmem
  unfold sizeMax at hl
  omega

section
variable {T : IRType} {b : AggregateMemBlock} {π π' : List Step} {p p' c l : Nat} {offset : Int}

/-- if the layout can be cached, the offset added to is the one of the first elements, and the sum has to
be an offset of the same leaf -/
theorem Placed.sameObject_iff (hb : Placed T b) (hT : BlockOk T) (h0 : ∃ π, Leaf T π 0)
    (hc : (layoutOf T).Cacheable) (hslot : Slot T π p c l) (hπ' : Leaf T π' p')
    (hz : zeroed π' = zeroed π) (hp : p < 2 ^ 64) (hp' : p' < 2 ^ 64) :
    SameObject b p offset p' ↔ l < 2 ^ 32 ∧ p < sizeMax ∧ p' < sizeMax ∧
      ((c + offset) % 2 ^ 64).toNat < sizeMax ∧
        ∃ ρ, Leaf T ρ ((c + offset) % 2 ^ 64).toNat ∧ zeroed ρ = zeroed π := by
  obtain ⟨q, hq⟩ : ∃ q, q = ((c + offset) % 2 ^ 64).toNat := ⟨_, rfl⟩
  have hqlt : q < 2 ^ 64 := by
    have := Int.emod_lt_of_pos ((c : Int) + offset) (show (0 : Int) < 2 ^ 64 by decide)
    omega
  obtain ⟨c', l', hslot'⟩ := hπ'.slot
  obtain ⟨rfl, rfl⟩ := hslot.unique_zeroed hslot' hz.symm
  -- what the three lookups give
  obtain ⟨b₁, hget, hb₁, hobject⟩ := hb.getObjectAt hT h0 hc p
  obtain ⟨b₂, hget₁, hb₂, -⟩ := hb₁.getObjectAt hT h0 hc q
  obtain ⟨b₃, hget₂, -, -⟩ := hb₂.getObjectAt hT h0 hc p'
  have hlt : ∀ {x g}, x < 2 ^ 64 →
      (layoutOf T).bitNumber ((layoutOf T).indexPhysicalOffset x).1 = some g → x < sizeMax := by
    intro x g hx hg
    refine Nat.lt_of_not_le fun hle => ?_
    obtain rfl : x = sizeMax := by unfold sizeMax at hle ⊢; omega
    rw [bitNumber_sizeMax hT] at hg
    cases hg
  have hadd : ∀ f, p < sizeMax → (layoutOf T).bitNumber l = some f →
      (MemBlock.aggregate b₁).indexObject f (.const offset) = (MemBlock.aggregate b₁).getObjectAt q := by
    intro f hp hf
    have hobj : (MemBlock.aggregate b₁).object f = some ⟨c, l⟩ := hobject _ _ _ _ hslot hp hf
    rw [MemBlock.indexObject, hobj, hq]
  rw [← hq]
  constructor
  · rintro ⟨f, B₁, B₂, B₃, g, hf₀, hg₁, hg₂⟩
    rw [hget] at hf₀
    obtain ⟨hf, rfl⟩ := Prod.mk.inj (Option.some.inj hf₀)
    have hps := hlt hp hf
    rw [(hT.index_slot hslot hps).1] at hf
    rw [hadd f hps hf, hget₁] at hg₁
    obtain ⟨hg, rfl⟩ := Prod.mk.inj (Option.some.inj hg₁)
    rw [hget₂] at hg₂
    obtain ⟨hg', -⟩ := Prod.mk.inj (Option.some.inj hg₂)
    have hps' := hlt hp' hg'
    obtain ⟨hindex, hmem⟩ := hT.index_slot hslot' hps'
    rw [hindex] at hg'
    have hsame := MemLayout.numberIn_inj hg hg'
    obtain ⟨ρ, hρ⟩ := hT.slot_of_element (p := q) (by rw [hsame]; exact hmem)
    rw [hsame] at hρ
    obtain ⟨m, -, hm⟩ := Finset.mem_image.mp (MemLayout.numberIn_eq_some.mp hf).1
    exact ⟨by omega, hps, hps', hlt hqlt hg, ρ, hρ.leaf, hT.inj hρ hslot⟩
  · rintro ⟨hl, hps, hps', hqs, ρ, hρ, hzρ⟩
    obtain ⟨hindex, hmem⟩ := hT.index_slot hslot hps
    obtain ⟨f, hf⟩ : ∃ f, (layoutOf T).bitNumber l = some f :=
      Option.isSome_iff_exists.mp (MemLayout.numberIn_isSome.mpr
        (Finset.mem_image.mpr ⟨l, hmem, Nat.mod_eq_of_lt hl⟩))
    obtain ⟨d, m, hslotρ⟩ := hρ.slot
    obtain ⟨rfl, rfl⟩ := hslot.unique_zeroed hslotρ hzρ.symm
    rw [hindex, hf] at hget
    rw [(hT.index_slot hslotρ hqs).1, hf] at hget₁
    rw [(hT.index_slot hslot' hps').1, hf] at hget₂
    exact ⟨f, _, _, _, f, hget, (hadd f hps hf).trans hget₁, hget₂⟩

/-- otherwise only the object at offset 0 can be asked for -/
theorem Placed.sameObject_zero (hb : Placed T b) (hc : ¬ (layoutOf T).Cacheable) :
    SameObject b p offset p' ↔ p = 0 ∧ offset % 2 ^ 64 = 0 ∧ p' = 0 := by
  have hzero : ∀ {x r}, (MemBlock.aggregate b).getObjectAt x = some r →
      x = 0 ∧ r = (some 0, .aggregate b) := by
    intro x r h
    have hask := (MemBlock.getObjectAt_isSome (.aggregate b)).mp (Option.isSome_of_eq_some h)
    rw [MemBlock.Askable, hb.layout, or_iff_left hc] at hask
    subst hask
    rw [MemBlock.getObjectAt_zero] at h
    exact ⟨rfl, (Option.some.inj h).symm⟩
  have hadd : (MemBlock.aggregate b).indexObject 0 (.const offset) =
      (MemBlock.aggregate b).getObjectAt (offset % 2 ^ 64).toNat := by
    have hfirst : (MemBlock.aggregate b).object 0 = some ⟨0, 0⟩ := hb.first
    rw [MemBlock.indexObject, hfirst]
    simp only [Nat.cast_zero, zero_add]
  constructor
  · rintro ⟨f, B₁, B₂, B₃, g, hf, hg, hg'⟩
    obtain ⟨rfl, hr⟩ := hzero hf
    obtain ⟨hf, rfl⟩ := Prod.mk.inj hr
    cases hf
    rw [hadd] at hg
    obtain ⟨hq, hr⟩ := hzero hg
    obtain ⟨-, rfl⟩ := Prod.mk.inj hr
    have := Int.emod_nonneg offset (show (2 : Int) ^ 64 ≠ 0 by decide)
    exact ⟨rfl, by omega, (hzero hg').1⟩
  · rintro ⟨rfl, hq, rfl⟩
    refine ⟨0, .aggregate b, .aggregate b, .aggregate b, 0, MemBlock.getObjectAt_zero _, ?_,
      MemBlock.getObjectAt_zero _⟩
    rw [hadd, hq]
    exact MemBlock.getObjectAt_zero _

end

/-- `c + offset` is negative, and what it wraps around to is an offset of the leaf `π` in an unbounded
array; a sum of `-1` becomes `sizeMax` and is behind the block -/
def Wraps (T : IRType) (π : List Step) (c : Nat) (offset : Int) : Prop :=
  ∃ e, T = array sizeMax e ∧ (c : Int) + offset < 0 ∧ (c : Int) + offset ≠ -1 ∧
    ∃ ρ, Leaf e ρ ((2 ^ 64 + (c + offset)).toNat % e.allocSize) ∧ .index 0 :: zeroed ρ = zeroed π

/-- a leaf is in its block -/
theorem IRType.Leaf.lt_size {T : IRType} (hT : Wf T) {π : List Step} {p : Nat} (h : Leaf T π p) :
    p < T.allocSize := by
  obtain ⟨c, l, hslot⟩ := h.slot
  exact (hT.indexed.slot _ _ _ _ hslot).1

/-- a leaf of an array is one of its element -/
theorem IRType.Leaf.elem_mod {n : Nat} {e : IRType} (he : Wf e) {π : List Step} {p : Nat}
    (h : Leaf (array n e) π p) : ∃ i π', π = .index i :: π' ∧ Leaf e π' (p % e.allocSize) := by
  cases h with
  | @elem _ _ i π' q hi hleaf =>
    refine ⟨i, π', rfl, ?_⟩
    rwa [Nat.mul_comm, Nat.mul_add_mod, Nat.mod_eq_of_lt (hleaf.lt_size he)]

section
variable {T : IRType} {π : List Step} {p c : Nat} {offset : Int}

/-- backwards, the sum is only right when it wraps around -/
theorem wraps_of_backward (hT : BlockOk T) (hπ : Leaf T π p) (hc : Leaf T (zeroed π) c)
    (hneg : offset < 0) (hback : 0 ≤ (p : Int) + offset) (hp : p < 2 ^ 64)
    (hlt : ((c + offset) % 2 ^ 64).toNat < sizeMax) {ρ : List Step}
    (hρ : Leaf T ρ ((c + offset) % 2 ^ 64).toNat) (hz : zeroed ρ = zeroed π) :
    Wraps T π c offset := by
  have hcp : c ≤ p := by
    obtain ⟨d, hd, hleaf⟩ := hπ.zeroed
    rwa [← hc.offset_unique hleaf] at hd
  -- what is left of an offset is not larger
  have hge : c ≤ ((c + offset) % 2 ^ 64).toNat := by
    obtain ⟨d, hd, hleaf⟩ := hρ.zeroed
    rw [hz] at hleaf
    rwa [← hc.offset_unique hleaf] at hd
  have hsum : (c : Int) + offset < 0 := by
    by_contra hpos
    rw [Int.emod_eq_of_lt (by omega) (by omega)] at hge
    omega
  have hwrap : ((c : Int) + offset) % 2 ^ 64 = 2 ^ 64 + (c + offset) := by
    rw [← Int.add_emod_left, Int.emod_eq_of_lt (by omega) (by omega)]
  rw [hwrap] at hρ hlt
  cases hT with
  | bounded _ hT =>
    have h1 := hπ.lt_size hT
    have h2 := hρ.lt_size hT
    have h3 := hT.size_lt
    omega
  | @unbounded e hs he =>
    obtain ⟨j, ρ', rfl, hleaf⟩ := hρ.elem_mod he
    exact ⟨e, rfl, hsum, by unfold sizeMax at hlt; omega, ρ', hleaf, hz⟩

/-- such a sum is an offset of the leaf -/
theorem leaf_of_wraps (hT : BlockOk T) (hneg : -(2 ^ 64) ≤ (c : Int) + offset) (h : Wraps T π c offset) :
    ((c + offset) % 2 ^ 64).toNat < sizeMax ∧
      ∃ ρ, Leaf T ρ ((c + offset) % 2 ^ 64).toNat ∧ zeroed ρ = zeroed π := by
  obtain ⟨e, rfl, hsum, hne, ρ, hleaf, hz⟩ := h
  have hs : 0 < e.allocSize := by
    cases hT with
    | bounded _ h =>
      cases h with
      | array _ hs _ _ => exact hs
    | unbounded hs _ => exact hs
  have hwrap : ((c : Int) + offset) % 2 ^ 64 = 2 ^ 64 + (c + offset) := by
    rw [← Int.add_emod_left, Int.emod_eq_of_lt (by omega) (by omega)]
  rw [hwrap]
  have hlt : (2 ^ 64 + ((c : Int) + offset)).toNat < sizeMax := by
    unfold sizeMax
    omega
  refine ⟨hlt, .index ((2 ^ 64 + ((c : Int) + offset)).toNat / e.allocSize) :: ρ, ?_, hz⟩
  have hquot := (Nat.div_le_self (2 ^ 64 + ((c : Int) + offset)).toNat e.allocSize).trans_lt hlt
  have helem := Leaf.elem hquot hleaf
  rwa [Nat.div_add_mod'] at helem

end

/-- In a block of the type, after any layouts and any queries, a GEP by `k` elements of an array gives the
object of the element `k` further on exactly when the layout can be cached and the leaf's layout offset
is an `unsigned`, neither offset is the largest of all, which is behind every block, and it goes forward
or its sum wraps around to an offset of the same leaf.  A GEP by nothing at offset 0 is not looked up. -/
theorem indexObject_const_iff {T : IRType} (hT : BlockOk T) (h0 : ∃ π, Leaf T π 0) (Ts : List IRType)
    (qs : List Query) {b : AggregateMemBlock} (hb : blockAfter Ts T qs = some b) {e : IRType}
    {π₁ π₂ : List Step} {n i p c l : Nat} {k : Int} (hat : typeAt T π₁ = some (array n e))
    (hslot : Slot T (π₁ ++ .index i :: π₂) p c l) (hk : 0 ≤ i + k) (hkn : i + k < n)
    (hp : p < 2 ^ 64) (hpk : (p : Int) + k * e.allocSize < 2 ^ 64) :
    SameObject b p (k * e.allocSize) (p + k * e.allocSize).toNat ↔ (p = 0 ∧ k = 0) ∨
      (layoutOf T).Cacheable ∧ l < 2 ^ 32 ∧ p ≠ sizeMax ∧ (p : Int) + k * e.allocSize ≠ sizeMax ∧
        (0 ≤ k ∨ Wraps T (π₁ ++ .index i :: π₂) c (k * e.allocSize)) := by
  have hplaced := Placed.blockAfter hT h0 hb
  have hπ := hslot.leaf
  have hc := hslot.leaf_zeroed.leaf
  -- the element `i + k`, and the element `k` of the first elements
  obtain ⟨j, hj⟩ : ∃ j : Nat, (j : Int) = i + k := ⟨(i + k).toNat, Int.toNat_of_nonneg hk⟩
  obtain ⟨r, rfl, hi, hmove⟩ := hπ.move hat (j := j) (by omega)
  have hsum : ((r + i * e.allocSize : Nat) : Int) + k * e.allocSize =
      (r + j * e.allocSize : Nat) := by
    push_cast
    rw [hj]
    ring
  rw [hsum] at hpk ⊢
  rw [Int.toNat_natCast]
  have hz := zeroed_move π₁ π₂ j i
  have hcp : c ≤ r + i * e.allocSize := by
    obtain ⟨d, hd, hleaf⟩ := hπ.zeroed
    rwa [← hc.offset_unique hleaf] at hd
  have hs := hT.elem_pos hat
  -- at offset 0 the element is the first one
  have hzero : ∀ x, r + x * e.allocSize = 0 → x = 0 := by
    intro x hx
    rcases Nat.mul_eq_zero.mp (by omega : x * e.allocSize = 0) with hx | hs0
    · exact hx
    · omega
  by_cases hcache : (layoutOf T).Cacheable
  · rw [hplaced.sameObject_iff hT h0 hcache hslot hmove hz hp (by omega)]
    constructor
    · rintro ⟨hl, h1, h2, h3, ρ, hρ, hzρ⟩
      refine .inr ⟨hcache, hl, h1.ne, by omega, ?_⟩
      rcases Int.lt_or_le k 0 with hneg | hpos
      · right
        have hoffset : k * e.allocSize < 0 := Int.mul_neg_of_neg_of_pos hneg (by omega)
        exact wraps_of_backward hT hπ hc hoffset (by omega) hp h3 hρ hzρ
      · exact Or.inl hpos
    · rintro (⟨hp0, rfl⟩ | ⟨-, hl, h1, h2, h3⟩)
      · have hr : r = 0 := by omega
        have hi0 := hzero i hp0
        obtain rfl : j = i := by omega
        rw [hp0] at hslot ⊢
        obtain ⟨rfl, rfl⟩ := Objects.slot_zero hT hslot
        rw [Int.zero_mul]
        exact ⟨by decide, by decide, by decide, by decide, _, hslot.leaf, rfl⟩
      · refine ⟨hl, by unfold sizeMax at h1 ⊢; omega, by unfold sizeMax at h2 ⊢; omega, ?_⟩
        rcases h3 with hpos | hwraps
        · obtain ⟨m, rfl⟩ := Int.eq_ofNat_of_zero_le hpos
          rw [zeroed_append] at hc
          obtain ⟨r', rfl, -, hmove'⟩ := Leaf.move (j := m) (by rw [typeAt_zeroed]; exact hat) hc
            (by omega)
          have hnat : (((r' + 0 * e.allocSize : Nat) : Int) + (m : Int) * e.allocSize) % 2 ^ 64 =
              (r' + m * e.allocSize : Nat) := by
            rw [Int.emod_eq_of_lt (by positivity) (by omega)]
            push_cast
            ring
          rw [hnat, Int.toNat_natCast]
          refine ⟨?_, _, hmove', ?_⟩
          · have hnext : r + i * e.allocSize + m * e.allocSize = r + j * e.allocSize := by
              exact_mod_cast hsum
            unfold sizeMax at h2 ⊢
            omega
          · rw [zeroed_append, zeroed_append, zeroed_zeroed, zeroed, zeroed, zeroed_zeroed]
        · exact leaf_of_wraps hT (by omega) hwraps
  · rw [hplaced.sameObject_zero hcache, or_iff_left fun h => hcache h.1]
    constructor
    · rintro ⟨hp0, -, hp'⟩
      have hi0 := hzero i hp0
      have hj0 := hzero j hp'
      exact ⟨hp0, by omega⟩
    · rintro ⟨hp0, rfl⟩
      obtain rfl : j = i := by omega
      exact ⟨hp0, by rw [Int.zero_mul]; rfl, hp0⟩

/-- `[2 x i32]` -/
def twoInts : IRType := array 2 (scalar 4)

theorem blockOk_twoInts : BlockOk twoInts :=
  .bounded rfl (.array (by decide) (by decide) (by decide) (.scalar (by decide) (by decide)))

theorem slot_twoInts {i : Nat} (hi : i < 2) : Slot twoInts [.index i] (i * 4 + 0) 0 0 := .elem hi .scalar

theorem indexObject_const_iff_twoInts :
    ∃ b, blockAfter [] twoInts [] = some b ∧ SameObject b 0 (1 * 4) 4 := by
  refine ⟨_, rfl, ?_⟩
  have hat : typeAt twoInts [] = some (array 2 (scalar 4)) := rfl
  have hslot : Slot twoInts ([] ++ .index 0 :: []) 0 0 0 := slot_twoInts (by decide)
  exact (indexObject_const_iff blockOk_twoInts ⟨_, hslot.leaf⟩ [] [] rfl (k := 1) hat hslot
    (by decide) (by decide) (by decide) (by decide)).mpr
      (.inr ⟨by decide, by decide, by decide, by decide, .inl (by decide)⟩)

/-- from the second element back to the first: the sum `0 - 4` is behind the block -/
theorem indexObject_backward :
    ∃ b b₁ b₂ b₃, blockAfter [] twoInts [] = some b ∧
      (MemBlock.aggregate b).getObjectAt 4 = some (some 0, b₁) ∧
      b₁.indexObject 0 (.const (-1 * 4)) = some (none, b₂) ∧ b₂.getObjectAt 0 = some (some 0, b₃) :=
  ⟨_, _, _, _, rfl, rfl, rfl, rfl⟩

end AserPTA
