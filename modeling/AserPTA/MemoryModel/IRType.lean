import Mathlib.Algebra.Ring.Int.Defs
import Mathlib.Algebra.Ring.Nat
import Mathlib.Data.List.Basic
import Mathlib.Data.Nat.Basic
import Mathlib.Tactic.Common

/-!
# The types of memory blocks, their leaves and the offsets of these

A type as `llvm::Type` and the data layout give it: a structure comes with the offsets that its
`StructLayout` has for its fields and with its allocation size, the elements of an array stand one
allocation size apart.

* `IRType`, `allocSize`   the types and `DL.getTypeAllocSize`;
* `Leaf`                  a scalar of the type, by the steps that lead to it and its physical offset;
* `zeroed`                the steps with every array index 0: arrays are collapsed, so this is which
                          object a leaf belongs to;
* `Wf`, `BlockOk`         what the data layout promises of a type and of the type of a block.
-/

namespace AserPTA

/-- `std::numeric_limits<size_t>::max()`; as a number of elements it marks an unbounded array -/
abbrev sizeMax : Nat := 2 ^ 64 - 1

/-- a `name` tells identified structures of one layout apart -/
inductive IRType
  | scalar (size : Nat)
  | pointer (size : Nat)
  | array (elementNum : Nat) (element : IRType)
  | struct (name : Nat) (fields : List (Nat × IRType)) (size : Nat)

namespace IRType

/-- `DL.getTypeAllocSize` -/
def allocSize : IRType → Nat
  | scalar size => size
  | pointer size => size
  | array n e => n * e.allocSize
  | struct _ _ size => size

def isAggregate : IRType → Bool
  | scalar _ => false
  | pointer _ => false
  | array _ _ => true
  | struct _ _ _ => true

theorem induction {motive : IRType → Prop} (scalar : ∀ size, motive (scalar size))
    (pointer : ∀ size, motive (pointer size)) (array : ∀ n e, motive e → motive (array n e))
    (struct : ∀ name fields size, (∀ f ∈ fields, motive f.2) → motive (struct name fields size)) :
    ∀ T, motive T :=
  IRType.rec (motive_2 := fun fields => ∀ f ∈ fields, motive f.2) (motive_3 := fun f => motive f.2)
    scalar pointer array struct (fun _ h => absurd h (List.not_mem_nil))
    (fun _ _ hhead htail _ hf => (List.mem_cons.mp hf).elim (fun h => h ▸ hhead) (htail _))
    (fun _ _ h => h)

mutual

def decEq : (T U : IRType) → Decidable (T = U)
  | scalar s, scalar t => decidable_of_iff (s = t) (by rw [scalar.injEq])
  | pointer s, pointer t => decidable_of_iff (s = t) (by rw [pointer.injEq])
  | array n e, array m e' =>
    have := decEq e e'
    decidable_of_iff (n = m ∧ e = e') (by rw [array.injEq])
  | struct a fs s, struct b gs t =>
    have := decEqFields fs gs
    decidable_of_iff (a = b ∧ fs = gs ∧ s = t) (by rw [struct.injEq])
  | scalar _, pointer _ | scalar _, array _ _ | scalar _, struct _ _ _ => isFalse nofun
  | pointer _, scalar _ | pointer _, array _ _ | pointer _, struct _ _ _ => isFalse nofun
  | array _ _, scalar _ | array _ _, pointer _ | array _ _, struct _ _ _ => isFalse nofun
  | struct _ _ _, scalar _ | struct _ _ _, pointer _ | struct _ _ _, array _ _ => isFalse nofun

def decEqFields : (fs gs : List (Nat × IRType)) → Decidable (fs = gs)
  | [], [] => isTrue rfl
  | [], _ :: _ => isFalse nofun
  | _ :: _, [] => isFalse nofun
  | (o, T) :: fs, (p, U) :: gs =>
    have := decEq T U
    have := decEqFields fs gs
    decidable_of_iff ((o = p ∧ T = U) ∧ fs = gs) (by rw [List.cons.injEq, Prod.mk.injEq])

end

instance : DecidableEq IRType := decEq

/-! ## leaves -/

/-- one step from a type into it -/
inductive Step
  | index (i : Nat)
  | field (k : Nat)
  deriving DecidableEq

/-- the scalar that the steps lead to, and its physical offset -/
inductive Leaf : IRType → List Step → Nat → Prop
  | scalar {size} : Leaf (scalar size) [] 0
  | pointer {size} : Leaf (pointer size) [] 0
  | elem {n e i π p} : i < n → Leaf e π p → Leaf (array n e) (.index i :: π) (i * e.allocSize + p)
  | field {name fields size k off T π p} : fields[k]? = some (off, T) → Leaf T π p →
      Leaf (struct name fields size) (.field k :: π) (off + p)

/-- the steps with every array index 0 -/
def zeroed : List Step → List Step
  | [] => []
  | .index _ :: π => .index 0 :: zeroed π
  | .field k :: π => .field k :: zeroed π

theorem zeroed_zeroed (π : List Step) : zeroed (zeroed π) = zeroed π := by
  induction π with
  | nil => rfl
  | cons s π ih => cases s <;> simp only [zeroed, ih]

/-- steps lead to one offset -/
theorem Leaf.offset_unique {T : IRType} {π : List Step} {p q : Nat} (h : Leaf T π p)
    (h' : Leaf T π q) : p = q := by
  induction h generalizing q with
  | scalar => cases h'; rfl
  | pointer => cases h'; rfl
  | elem hi _ ih =>
    cases h' with
    | elem _ hleaf => rw [ih hleaf]
  | field hk _ ih =>
    cases h' with
    | field hk' hleaf =>
      rw [hk] at hk'
      cases hk'
      rw [ih hleaf]

/-- the leaf of the first elements -/
theorem Leaf.zeroed {T : IRType} {π : List Step} {p : Nat} (h : Leaf T π p) :
    ∃ c ≤ p, Leaf T (zeroed π) c := by
  induction h with
  | scalar => exact ⟨0, le_rfl, .scalar⟩
  | pointer => exact ⟨0, le_rfl, .pointer⟩
  | @elem n e i π p hi _ ih =>
    obtain ⟨c, hle, hc⟩ := ih
    refine ⟨0 * e.allocSize + c, ?_, .elem (Nat.zero_lt_of_lt hi) hc⟩
    rw [Nat.zero_mul, Nat.zero_add]
    exact Nat.le_trans hle (Nat.le_add_left p _)
  | field hk _ ih =>
    obtain ⟨c, hle, hc⟩ := ih
    exact ⟨_, Nat.add_le_add_left hle _, .field hk hc⟩

/-! ## what the data layout promises -/

/-- the fields stand in increasing order between `p` and the size and do not overlap -/
def FieldsFit : Nat → List (Nat × IRType) → Nat → Prop
  | p, [], size => p ≤ size
  | p, (off, T) :: rest, size => p ≤ off ∧ FieldsFit (off + T.allocSize) rest size

instance FieldsFit.decidable : ∀ p fields size, Decidable (FieldsFit p fields size)
  | p, [], size => inferInstanceAs (Decidable (p ≤ size))
  | p, (off, T) :: rest, size =>
    have := decidable (off + T.allocSize) rest size
    inferInstanceAs (Decidable (p ≤ off ∧ FieldsFit (off + T.allocSize) rest size))

/-- a bounded type -/
inductive Wf : IRType → Prop
  | scalar {size} : 0 < size → size < 2 ^ 63 → Wf (scalar size)
  | pointer {size} : 0 < size → size < 2 ^ 63 → Wf (pointer size)
  | array {n e} : 0 < n → 0 < e.allocSize → n * e.allocSize < 2 ^ 63 → Wf e → Wf (array n e)
  | struct {name fields size} : FieldsFit 0 fields size → size < 2 ^ 63 → (∀ f ∈ fields, Wf f.2) →
      Wf (struct name fields size)

/-- the type of an aggregate block; only the outermost array may be unbounded -/
inductive BlockOk : IRType → Prop
  | bounded {T} : T.isAggregate → Wf T → BlockOk T
  | unbounded {e} : 0 < e.allocSize → Wf e → BlockOk (array sizeMax e)

theorem Wf.size_lt {T : IRType} (h : Wf T) : T.allocSize < 2 ^ 63 := by
  cases h with
  | scalar _ h => exact h
  | pointer _ h => exact h
  | array _ _ h _ => exact h
  | struct _ h _ => exact h

theorem FieldsFit.le {fields : List (Nat × IRType)} {p size : Nat} (h : FieldsFit p fields size) :
    p ≤ size := by
  induction fields generalizing p with
  | nil => exact h
  | cons f rest ih => exact Nat.le_trans (Nat.le_trans h.1 (Nat.le_add_right _ _)) (ih h.2)

end IRType
end AserPTA
