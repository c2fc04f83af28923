import AserPTA.ConsGraph.Node
import AserPTA.Loop.Fold

/-!
# Points-to sets that know their converse

`PointedByPts` keeps the vector `pointedBy` beside `pointsTo`.  `onNewNodeCreation`, `insert` and
`unionWith` write both; `clear` empties the points-to set only.

* `Converse`       the two vectors are the converse of each other;
* `Kept`           what holds in every run: `pointedBy` misses nothing, so the assertion of
                   `unionWith` never fails;
* `converse_iff`   `Converse` holds all along a run iff `clear` is only called on empty sets.
-/

namespace AserPTA

structure PointedByPts where
  /-- the length of both vectors -/
  size : Nat := 0
  pointsTo : NodeID → Finset NodeID := fun _ => ∅
  pointedBy : NodeID → Finset NodeID := fun _ => ∅
  asserts : Bool := true

namespace PointedByPts

variable (p : PointedByPts)

def setPointsTo (n : NodeID) (s : Finset NodeID) : PointedByPts :=
  { p with pointsTo := fun m => if m = n then s else p.pointsTo m }

/-- `pointedBy[n].set(a)` -/
def setPointedBy (n a : NodeID) : PointedByPts :=
  { p with pointedBy := fun m => if m = n then insert a (p.pointedBy m) else p.pointedBy m }

def onNewNodeCreation (id : NodeID) : PointedByPts :=
  { size := p.size + 1
    pointsTo := fun m => if m = p.size then ∅ else p.pointsTo m
    pointedBy := fun m => if m = p.size then ∅ else p.pointedBy m
    asserts := p.asserts && decide (id = p.size) }

/-- one turn of the loop of `unionWith`, with its assertion -/
def pointBy (src dst id : NodeID) : PointedByPts :=
  { p.setPointedBy id src with asserts := p.asserts && decide (dst ∈ p.pointedBy id) }

/-- true if the points-to set of `src` has changed -/
def unionWith (src dst : NodeID) : PointedByPts × Bool :=
  -- update the pointed by relation first
  let p1 := (bits (p.pointsTo dst)).foldl (fun p id => p.pointBy src dst id) p
  (p1.setPointsTo src (p1.pointsTo src ∪ p1.pointsTo dst),
    decide (¬ p1.pointsTo dst ⊆ p1.pointsTo src))

/-- true if `idx` is new -/
def insert (src idx : NodeID) : PointedByPts × Bool :=
  let p1 := p.setPointedBy idx src
  (p1.setPointsTo src (Insert.insert idx (p1.pointsTo src)), decide (idx ∉ p1.pointsTo src))

def clear (id : NodeID) : PointedByPts := p.setPointsTo id ∅

def getPointedBy (id : NodeID) : Finset NodeID := p.pointedBy id

def getPointsTo (id : NodeID) : Finset NodeID := p.pointsTo id

/-- one call -/
inductive Call where
  | onNewNodeCreation (id : NodeID)
  | insert (src idx : NodeID)
  | unionWith (src dst : NodeID)
  | clear (id : NodeID)

/-- what the called function asserts of its arguments -/
def Call.Legal : Call → Prop
  | .onNewNodeCreation id => id = p.size
  | .insert src idx => src < p.size ∧ idx < p.size
  | .unionWith src dst => src < p.size ∧ dst < p.size
  | .clear id => id < p.size

def Call.apply (p : PointedByPts) : Call → PointedByPts
  | .onNewNodeCreation id => p.onNewNodeCreation id
  | .insert src idx => (p.insert src idx).1
  | .unionWith src dst => (p.unionWith src dst).1
  | .clear id => p.clear id

/-- the call does not clear a set that has elements -/
def Call.ClearsEmpty : Call → Prop
  | .clear id => p.pointsTo id = ∅
  | _ => True

instance (c : Call) : Decidable (c.Legal p) :=
  match c with
  | .onNewNodeCreation id => inferInstanceAs (Decidable (id = p.size))
  | .insert src idx => inferInstanceAs (Decidable (src < p.size ∧ idx < p.size))
  | .unionWith src dst => inferInstanceAs (Decidable (src < p.size ∧ dst < p.size))
  | .clear id => inferInstanceAs (Decidable (id < p.size))

instance (c : Call) : Decidable (c.ClearsEmpty p) :=
  match c with
  | .clear id => inferInstanceAs (Decidable (p.pointsTo id = ∅))
  | .onNewNodeCreation _ => isTrue trivial
  | .insert _ _ => isTrue trivial
  | .unionWith _ _ => isTrue trivial

/-- both directions are consistent -/
def Converse : Prop :=
  ∀ a b, a < p.size → b < p.size → (b ∈ p.getPointsTo a ↔ a ∈ p.getPointedBy b)

/-- what every run keeps -/
structure Kept : Prop where
  to_lt : ∀ a b, b ∈ p.pointsTo a → a < p.size ∧ b < p.size
  by_lt : ∀ a b, a ∈ p.pointedBy b → a < p.size ∧ b < p.size
  by_of_to : ∀ a b, b ∈ p.pointsTo a → a ∈ p.pointedBy b
  asserts : p.asserts = true

variable {p}

/-! ## one call -/

theorem mem_setPointsTo (n a b : NodeID) (s : Finset NodeID) :
    b ∈ (p.setPointsTo n s).pointsTo a ↔ (a = n ∧ b ∈ s) ∨ (a ≠ n ∧ b ∈ p.pointsTo a) := by
  by_cases h : a = n <;> simp [setPointsTo, h]

theorem mem_setPointedBy (n x a b : NodeID) :
    a ∈ (p.setPointedBy n x).pointedBy b ↔ a ∈ p.pointedBy b ∨ (a = x ∧ b = n) := by
  by_cases h : b = n
  · simp [setPointedBy, h, or_comm]
  · simp [setPointedBy, h]

/-- the loop of `unionWith` adds `src` to the sets of all elements and nothing else; its assertion
holds when `dst` is in all of these sets -/
theorem foldl_pointBy (src dst : NodeID) (l : List NodeID) :
    let p' := l.foldl (fun p id => p.pointBy src dst id) p
    p'.size = p.size ∧ p'.pointsTo = p.pointsTo ∧
      (∀ a b, a ∈ p'.pointedBy b ↔ a ∈ p.pointedBy b ∨ (a = src ∧ b ∈ l)) ∧
      ((∀ id ∈ l, dst ∈ p.pointedBy id) → p'.asserts = p.asserts) := by
  induction l generalizing p with
  | nil => simp
  | cons id l ih =>
    have hone : ∀ a b, a ∈ (p.pointBy src dst id).pointedBy b ↔
        a ∈ p.pointedBy b ∨ (a = src ∧ b = id) := mem_setPointedBy id src
    obtain ⟨h1, h2, h3, h4⟩ := ih (p := p.pointBy src dst id)
    refine ⟨h1, h2, fun a b => ?_, fun hall => ?_⟩
    · rw [List.foldl_cons, h3, hone, List.mem_cons, or_assoc, ← and_or_left]
    · have hid := hall id (List.mem_cons_self ..)
      rw [List.foldl_cons, h4 fun x hx => (hone dst x).mpr (.inl (hall x (.tail _ hx)))]
      simp [pointBy, hid]

/-- both sets after a union -/
theorem unionWith_spec (src dst : NodeID) :
    (p.unionWith src dst).1.size = p.size ∧
    (∀ a b, b ∈ (p.unionWith src dst).1.pointsTo a ↔
      b ∈ p.pointsTo a ∨ (a = src ∧ b ∈ p.pointsTo dst)) ∧
    (∀ a b, a ∈ (p.unionWith src dst).1.pointedBy b ↔
      a ∈ p.pointedBy b ∨ (a = src ∧ b ∈ p.pointsTo dst)) ∧
    ((∀ b ∈ p.pointsTo dst, dst ∈ p.pointedBy b) →
      (p.unionWith src dst).1.asserts = p.asserts) := by
  obtain ⟨h1, h2, h3, h4⟩ := foldl_pointBy (p := p) src dst (bits (p.pointsTo dst))
  refine ⟨h1, fun a b => ?_, fun a b => ?_, fun hall => ?_⟩
  · rw [unionWith]
    dsimp only
    rw [mem_setPointsTo, h2, Finset.mem_union]
    by_cases ha : a = src <;> simp [ha]
  · refine (h3 a b).trans ?_
    rw [mem_bits]
  · exact h4 fun b hb => hall b ((mem_bits ..).mp hb)

theorem mem_insert_pointsTo (src idx a b : NodeID) :
    b ∈ (p.insert src idx).1.pointsTo a ↔ b ∈ p.pointsTo a ∨ (a = src ∧ b = idx) := by
  rw [insert]
  dsimp only
  rw [mem_setPointsTo, Finset.mem_insert]
  by_cases ha : a = src
  · simp [ha, setPointedBy, or_comm]
  · simp [ha, setPointedBy]

theorem mem_insert_pointedBy (src idx a b : NodeID) :
    a ∈ (p.insert src idx).1.pointedBy b ↔ a ∈ p.pointedBy b ∨ (a = src ∧ b = idx) :=
  mem_setPointedBy idx src a b

/-- the new node is in no set, and its own sets were empty -/
theorem Kept.mem_new (h : p.Kept) (id a b : NodeID) :
    (b ∈ (p.onNewNodeCreation id).pointsTo a ↔ b ∈ p.pointsTo a) ∧
    (a ∈ (p.onNewNodeCreation id).pointedBy b ↔ a ∈ p.pointedBy b) := by
  constructor
  · by_cases ha : a = p.size
    · have hno : b ∉ p.pointsTo p.size := fun hb => lt_irrefl _ (h.to_lt _ b hb).1
      simp [onNewNodeCreation, ha, hno]
    · simp [onNewNodeCreation, ha]
  · by_cases hb : b = p.size
    · have hno : a ∉ p.pointedBy p.size := fun ha => lt_irrefl _ (h.by_lt a _ ha).2
      simp [onNewNodeCreation, hb, hno]
    · simp [onNewNodeCreation, hb]

theorem mem_clear_pointsTo (id a b : NodeID) :
    b ∈ (p.clear id).pointsTo a ↔ a ≠ id ∧ b ∈ p.pointsTo a := by
  rw [clear, mem_setPointsTo]
  simp

theorem Kept.apply (h : p.Kept) (c : Call) (hc : c.Legal p) : (c.apply p).Kept := by
  cases c with
  | onNewNodeCreation id =>
    have hgrow : ∀ a b, a < p.size ∧ b < p.size → a < p.size + 1 ∧ b < p.size + 1 :=
      fun a b hab => ⟨Nat.lt_succ_of_lt hab.1, Nat.lt_succ_of_lt hab.2⟩
    refine ⟨fun a b hb => ?_, fun a b ha => ?_, fun a b hb => ?_, ?_⟩
    · exact hgrow a b (h.to_lt a b ((h.mem_new id a b).1.mp hb))
    · exact hgrow a b (h.by_lt a b ((h.mem_new id a b).2.mp ha))
    · exact (h.mem_new id a b).2.mpr (h.by_of_to a b ((h.mem_new id a b).1.mp hb))
    · obtain rfl : id = p.size := hc
      show (p.asserts && decide (p.size = p.size)) = true
      simp [h.asserts]
  | insert src idx =>
    refine ⟨fun a b hb => ?_, fun a b ha => ?_, fun a b hb => ?_, h.asserts⟩
    · rcases (mem_insert_pointsTo ..).mp hb with hb | ⟨rfl, rfl⟩
      · exact h.to_lt a b hb
      · exact hc
    · rcases (mem_insert_pointedBy ..).mp ha with ha | ⟨rfl, rfl⟩
      · exact h.by_lt a b ha
      · exact hc
    · rw [Call.apply, mem_insert_pointedBy]
      exact ((mem_insert_pointsTo ..).mp hb).imp_left (h.by_of_to a b)
  | unionWith src dst =>
    obtain ⟨h1, h2, h3, h4⟩ := unionWith_spec (p := p) src dst
    refine ⟨fun a b hb => ?_, fun a b ha => ?_, fun a b hb => ?_, ?_⟩
    · rw [Call.apply, h1]
      rcases (h2 a b).mp hb with hb' | ⟨rfl, hb'⟩
      · exact h.to_lt a b hb'
      · exact ⟨hc.1, (h.to_lt dst b hb').2⟩
    · rw [Call.apply, h1]
      rcases (h3 a b).mp ha with ha | ⟨rfl, hb⟩
      · exact h.by_lt a b ha
      · exact ⟨hc.1, (h.to_lt dst b hb).2⟩
    · rw [Call.apply, h3]
      exact ((h2 a b).mp hb).imp_left (h.by_of_to a b)
    · rw [Call.apply, h4 fun b hb => h.by_of_to dst b hb]
      exact h.asserts
  | clear id =>
    refine ⟨fun a b hb => ?_, h.by_lt, fun a b hb => ?_, h.asserts⟩
    · exact h.to_lt a b ((mem_clear_pointsTo ..).mp hb).2
    · exact h.by_of_to a b ((mem_clear_pointsTo ..).mp hb).2

/-- between nodes that exist or not, the vectors of a consistent state agree -/
theorem Kept.iff_of_converse (h : p.Kept) (hconv : p.Converse) (a b : NodeID) :
    b ∈ p.pointsTo a ↔ a ∈ p.pointedBy b := by
  refine ⟨h.by_of_to a b, fun ha => ?_⟩
  obtain ⟨h1, h2⟩ := h.by_lt a b ha
  exact (hconv a b h1 h2).mpr ha

/-- Where the two vectors agree, a call keeps them so iff it does not clear a set that has elements:
`clear` leaves the cleared node in `pointedBy` of each of them. -/
theorem Kept.converse_apply (h : p.Kept) (hconv : p.Converse) (c : Call) (hc : c.Legal p) :
    (c.apply p).Converse ↔ c.ClearsEmpty p := by
  cases c with
  | onNewNodeCreation id =>
    refine iff_of_true (fun a b _ _ => ?_) trivial
    obtain ⟨h1, h2⟩ := h.mem_new id a b
    exact h1.trans ((h.iff_of_converse hconv a b).trans h2.symm)
  | insert src idx =>
    refine iff_of_true (fun a b _ _ => ?_) trivial
    rw [getPointsTo, getPointedBy, Call.apply, mem_insert_pointsTo, mem_insert_pointedBy]
    exact or_congr_left (h.iff_of_converse hconv a b)
  | unionWith src dst =>
    obtain ⟨-, h2, h3, -⟩ := unionWith_spec (p := p) src dst
    refine iff_of_true (fun a b _ _ => ?_) trivial
    rw [getPointsTo, getPointedBy, Call.apply, h2, h3]
    exact or_congr_left (h.iff_of_converse hconv a b)
  | clear id =>
    constructor
    · intro hconv'
      refine Finset.eq_empty_of_forall_notMem fun b hb => ?_
      have hmem := (hconv' id b hc (h.to_lt id b hb).2).mpr (h.by_of_to id b hb)
      exact ((mem_clear_pointsTo ..).mp hmem).1 rfl
    · intro hemp a b _ _
      have hne : b ∈ p.pointsTo a → a ≠ id := by
        rintro hb rfl
        rw [show p.pointsTo a = ∅ from hemp] at hb
        cases hb
      have hto := (mem_clear_pointsTo (p := p) id a b).trans (and_iff_right_of_imp hne)
      exact hto.trans (h.iff_of_converse hconv a b)

/-! ## runs -/

theorem Kept.empty : Kept {} :=
  ⟨fun _ _ hb => (Finset.notMem_empty _ hb).elim, fun _ _ ha => (Finset.notMem_empty _ ha).elim,
    fun _ _ hb => (Finset.notMem_empty _ hb).elim, rfl⟩

theorem Converse.empty : Converse {} := fun a b _ _ => by simp [getPointsTo, getPointedBy]

/-- In every state on the way of a run from `clearAll` the two vectors are the converse of each other
and no assertion has failed, iff each `clear` of the run meets an empty points-to set. -/
theorem converse_iff (calls : List Call)
    (hl : Loop.FoldOk (fun p c => Call.Legal p c) Call.apply calls {}) :
    (∀ pre, pre <+: calls → (pre.foldl Call.apply {}).Converse ∧
      (pre.foldl Call.apply {}).asserts = true) ↔
    Loop.FoldOk (fun p c => Call.ClearsEmpty p c) Call.apply calls {} := by
  refine Loop.prefix_iff (I := Kept) (P := fun p => p.Converse ∧ p.asserts = true)
    (fun p c h hc => h.apply c hc) (fun p c h hp hc => ?_) calls hl .empty ⟨.empty, rfl⟩
  rw [and_iff_left (h.apply c hc).asserts]
  exact h.converse_apply hp.1 c hc

/-- the node that is cleared points to nothing -/
def clearedEmpty : List Call :=
  [.onNewNodeCreation 0, .onNewNodeCreation 1, .insert 0 1, .unionWith 1 1, .clear 1]

theorem converse_clearedEmpty : (clearedEmpty.foldl Call.apply {}).Converse :=
  ((converse_iff clearedEmpty (by decide)).mpr (by decide) clearedEmpty (List.prefix_refl _)).1

/-- node 0 points to 1 and is then cleared, as a node merged into another one is -/
def clearedNode : List Call := [.onNewNodeCreation 0, .onNewNodeCreation 1, .insert 0 1, .clear 0]

/-- 0 stays in `pointedBy` of 1 -/
theorem not_converse_clearedNode :
    Loop.FoldOk (fun p c => Call.Legal p c) Call.apply clearedNode {} ∧
      0 ∈ (clearedNode.foldl Call.apply {}).getPointedBy 1 ∧
      1 ∉ (clearedNode.foldl Call.apply {}).getPointsTo 0 ∧
      ¬ (clearedNode.foldl Call.apply {}).Converse := by
  refine ⟨by decide, by decide, by decide, fun h => ?_⟩
  have h1 := (h 0 1 (by decide) (by decide)).mpr (by decide)
  exact absurd h1 (by decide)

end PointedByPts

end AserPTA
