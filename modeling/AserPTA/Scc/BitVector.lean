import Mathlib.Data.List.Range

/-!
# Bit vectors

`llvm::BitVector`, with the methods the solvers and the iterator use.  The searches give `none` where
the source returns -1.
-/

namespace AserPTA

structure BitVector where
  size : Nat := 0
  bit : Nat → Bool := fun _ => false

namespace BitVector

variable (b : BitVector)

def test (i : Nat) : Bool := b.bit i

def set (i : Nat) : BitVector := { b with bit := fun j => if j = i then true else b.bit j }

def reset (i : Nat) : BitVector := { b with bit := fun j => if j = i then false else b.bit j }

def setAll : BitVector := { b with bit := fun _ => true }

/-- grow to `n` bits, the new ones equal to `v` -/
def resize (n : Nat) (v : Bool) : BitVector :=
  { size := n, bit := fun j => if j < b.size then b.bit j else v }

def all : Bool := (List.range b.size).all fun i => b.bit i

def findFirstUnset : Option Nat := (List.range b.size).find? fun i => !b.bit i

/-- the first unset bit after `i` -/
def findNextUnset (i : Nat) : Option Nat :=
  (List.range b.size).find? fun j => decide (i < j) && !b.bit j

/-- the unset bits, in the order in which `find_first_unset` and `find_next_unset` give them while
the vector does not change -/
def unsetBits : List Nat := (List.range b.size).filter fun i => !b.bit i

variable {b}

theorem mem_unsetBits {i : Nat} : i ∈ b.unsetBits ↔ i < b.size ∧ b.test i = false := by
  simp [unsetBits, test]

@[simp] theorem size_set (i : Nat) : (b.set i).size = b.size := rfl
@[simp] theorem size_reset (i : Nat) : (b.reset i).size = b.size := rfl

theorem test_set (i j : Nat) : (b.set i).test j = if j = i then true else b.test j := rfl
theorem test_reset (i j : Nat) : (b.reset i).test j = if j = i then false else b.test j := rfl
theorem test_resize (n : Nat) (v : Bool) (j : Nat) :
    (b.resize n v).test j = if j < b.size then b.test j else v := rfl

theorem all_iff : b.all = true ↔ ∀ i < b.size, b.test i = true := by
  simp [all, test]

theorem findFirstUnset_eq_none : b.findFirstUnset = none ↔ ∀ i < b.size, b.test i = true := by
  simp [findFirstUnset, test]

theorem findFirstUnset_eq_some {i : Nat} (h : b.findFirstUnset = some i) :
    i < b.size ∧ b.test i = false ∧ ∀ j < i, b.test j = true := by
  obtain ⟨h1, as, bs, heq, h2⟩ := List.find?_eq_some_iff_append.mp h
  have hi : i ∈ List.range b.size := heq ▸ by simp
  refine ⟨List.mem_range.mp hi, by simpa [test] using h1, fun j hj => ?_⟩
  have hj' : j ∈ List.range b.size := List.mem_range.mpr (hj.trans (List.mem_range.mp hi))
  have hsort : (List.range b.size).Pairwise (· < ·) := List.pairwise_lt_range
  rw [heq] at hj' hsort
  rcases List.mem_append.mp hj' with hj' | hj'
  · simpa [test] using h2 j hj'
  · have := (List.pairwise_append.mp hsort).2.1
    rcases List.mem_cons.mp hj' with rfl | hj'
    · exact absurd hj (lt_irrefl _)
    · exact absurd hj (Nat.not_lt_of_gt ((List.pairwise_cons.mp this).1 j hj'))

theorem findNextUnset_eq_none {i : Nat} :
    b.findNextUnset i = none ↔ ∀ j < b.size, i < j → b.test j = true := by
  simp [findNextUnset, test]

theorem findNextUnset_eq_some {i j : Nat} (h : b.findNextUnset i = some j) :
    j < b.size ∧ i < j ∧ b.test j = false ∧ ∀ k, i < k → k < j → b.test k = true := by
  obtain ⟨h1, as, bs, heq, h2⟩ := List.find?_eq_some_iff_append.mp h
  have hj : j ∈ List.range b.size := heq ▸ by simp
  rw [Bool.and_eq_true, decide_eq_true_eq] at h1
  refine ⟨List.mem_range.mp hj, h1.1, by simpa [test] using h1.2, fun k hik hkj => ?_⟩
  have hk : k ∈ List.range b.size := List.mem_range.mpr (hkj.trans (List.mem_range.mp hj))
  have hsort : (List.range b.size).Pairwise (· < ·) := List.pairwise_lt_range
  rw [heq] at hk hsort
  rcases List.mem_append.mp hk with hk | hk
  · have := h2 k hk
    simpa [test, hik] using this
  · have := (List.pairwise_append.mp hsort).2.1
    rcases List.mem_cons.mp hk with rfl | hk
    · exact absurd hkj (lt_irrefl _)
    · exact absurd hkj (Nat.not_lt_of_gt ((List.pairwise_cons.mp this).1 k hk))

end BitVector

end AserPTA
