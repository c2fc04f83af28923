import Mathlib.Data.Int.Basic
import AserPTA.MemoryModel.IRType

/-!
# The types of heap objects

`DefaultHeapModel` infers the type of an object from the `bitcast` behind its allocation and from the
size operands.

* `getNextBitCastDestType`             the element type, if the next instruction gives a sized one;
* `inferCallocType`, `inferMallocType` the type of the object;
* `MallocOk`, `CallocOk`               no division by zero, and the inferred type is as large as the
                                       memory that was asked for;
* `inferTypes_iff`                     both hold iff no constant, positive number of bytes is
                                       divided into elements without size.
-/

namespace AserPTA

/-- `llvm::ConstantInt`, of at most 64 bits -/
structure ConstantInt where
  width : Nat
  value : BitVec width
  width_le : width ≤ 64

/-- `int64_t`; read as `size_t` by `toNat` -/
def ConstantInt.getSExtValue (c : ConstantInt) : BitVec 64 := c.value.signExtend 64

inductive Operand
  | constantInt (c : ConstantInt)
  | other

/-- the instruction behind an allocation; the pointee of a `bitcast` has no size if it is opaque -/
inductive NextInst
  | bitCast (destTy : Option IRType)
  | other

/-- a call goes on with the next instruction, an invoke with the first one of its normal
destination -/
inductive AllocSite
  | call (getArgOperand : Nat → Operand) (nextNode : Option NextInst)
  | invoke (getArgOperand : Nat → Operand) (normalDest : Option NextInst)

def AllocSite.getArgOperand : AllocSite → Nat → Operand
  | call args _ => args
  | invoke args _ => args

inductive Trap
  | divisionByZero
  deriving DecidableEq

namespace HeapModel

def getNextBitCastDestType (allocSite : AllocSite) : Option IRType :=
  let nextInst := match allocSite with
    | .call _ nextNode => nextNode
    | .invoke _ normalDest => normalDest
  match nextInst with
  | some (.bitCast destTy) => destTy
  | _ => none

/-- every sized type is a valid element type -/
def getBoundedArrayTy (elemType : IRType) (num : Nat) : Option IRType := some (.array num elemType)

def getUnboundedArrayTy (elemType : IRType) : Option IRType := getBoundedArrayTy elemType sizeMax

def checkedMod (a b : Nat) : Except Trap Nat :=
  if b = 0 then .error .divisionByZero else .ok (a % b)

def checkedDiv (a b : Nat) : Except Trap Nat :=
  if b = 0 then .error .divisionByZero else .ok (a / b)

def inferCallocType (allocSite : AllocSite) (numArgNo sizeArgNo : Nat) : Option IRType :=
  match getNextBitCastDestType allocSite with
  | none => none
  | some elemType =>
    let elemSize := elemType.allocSize
    match allocSite.getArgOperand sizeArgNo with
    | .other => none
    | .constantInt size =>
      if elemSize = size.getSExtValue.toNat then
        match allocSite.getArgOperand numArgNo with
        | .constantInt elemNum => getBoundedArrayTy elemType elemNum.getSExtValue.toNat
        -- the element number can not be determined
        | .other => getUnboundedArrayTy elemType
      else none

def inferMallocType (allocSite : AllocSite) (sizeArgNo : Int) : Except Trap (Option IRType) :=
  match getNextBitCastDestType allocSite with
  | none => .ok none
  | some elemType =>
    -- if the sizeArgNo is not specified, treat it as unbounded array
    if sizeArgNo < 0 then .ok (getUnboundedArrayTy elemType)
    else
      let elemSize := elemType.allocSize
      match allocSite.getArgOperand sizeArgNo.toNat with
      | .constantInt constSize =>
        let memSize := constSize.getSExtValue.toNat
        if memSize = elemSize then .ok (some elemType)
        else do
          if (← checkedMod memSize elemSize) = 0 then
            return getBoundedArrayTy elemType (← checkedDiv memSize elemSize)
          return none
      | .other =>
        -- a int8_t[] is equal to a field-insensitive object.
        if elemSize = 1 then .ok none else .ok (getUnboundedArrayTy elemType)

/-! ## what is asked of the two functions -/

/-- `inferMallocType` returns, and what it infers from a constant size has that size -/
def MallocOk (allocSite : AllocSite) (sizeArgNo : Int) : Prop :=
  ∃ R, inferMallocType allocSite sizeArgNo = .ok R ∧ ∀ T, R = some T → 0 ≤ sizeArgNo →
    ∀ size, allocSite.getArgOperand sizeArgNo.toNat = .constantInt size → 0 ≤ size.value.toInt →
      (T.allocSize : Int) = size.value.toInt

/-- what `inferCallocType` infers from two constants has their product as its size -/
def CallocOk (allocSite : AllocSite) (numArgNo sizeArgNo : Nat) : Prop :=
  ∀ T, inferCallocType allocSite numArgNo sizeArgNo = some T →
    ∀ num size, allocSite.getArgOperand numArgNo = .constantInt num →
      allocSite.getArgOperand sizeArgNo = .constantInt size →
      0 ≤ num.value.toInt → 0 ≤ size.value.toInt → num.value.toInt * size.value.toInt < 2 ^ 64 →
      (T.allocSize : Int) = num.value.toInt * size.value.toInt

/-- a constant number of bytes, not zero, is to be divided into elements of size zero -/
def ZeroSizedElements (allocSite : AllocSite) (sizeArgNo : Int) : Prop :=
  ∃ elemType size, getNextBitCastDestType allocSite = some elemType ∧ 0 ≤ sizeArgNo ∧
    allocSite.getArgOperand sizeArgNo.toNat = .constantInt size ∧
    elemType.allocSize = 0 ∧ size.getSExtValue.toNat ≠ 0

/-! ## the constants -/

/-- a constant that is not negative is the same number as a `size_t` -/
theorem toNat_getSExtValue {c : ConstantInt} (h : 0 ≤ c.value.toInt) :
    (c.getSExtValue.toNat : Int) = c.value.toInt := by
  have h1 : c.getSExtValue.toInt = c.value.toInt := BitVec.toInt_signExtend_of_le c.width_le
  have h2 : 0 ≤ c.getSExtValue.toInt := h1.symm ▸ h
  rw [← h1]
  exact (BitVec.toInt_eq_toNat_of_lt (BitVec.toInt_pos_iff.mp h2)).symm

/-! ## the two functions -/

/-- `calloc`: the element type is only taken when it is as large as the element -/
theorem callocOk (allocSite : AllocSite) (numArgNo sizeArgNo : Nat) :
    CallocOk allocSite numArgNo sizeArgNo := by
  intro T hT num size hnum hsize hnum0 hsize0 _
  rw [inferCallocType] at hT
  split at hT
  · cases hT
  · rename_i elemType _
    simp only [hsize, hnum] at hT
    split at hT
    · rename_i heq
      obtain rfl : IRType.array num.getSExtValue.toNat elemType = T := Option.some.inj hT
      rw [← toNat_getSExtValue hnum0, ← toNat_getSExtValue hsize0, ← heq]
      exact Int.natCast_mul ..
    · cases hT

/-- `malloc` with a constant size: the memory is one element, an array of them, or not typed -/
theorem inferMallocType_const {allocSite : AllocSite} {sizeArgNo : Int} {elemType : IRType}
    {size : ConstantInt} (helem : getNextBitCastDestType allocSite = some elemType)
    (harg : 0 ≤ sizeArgNo) (hsize : allocSite.getArgOperand sizeArgNo.toNat = .constantInt size) :
    inferMallocType allocSite sizeArgNo =
      if size.getSExtValue.toNat = elemType.allocSize then .ok (some elemType)
      else if elemType.allocSize = 0 then .error .divisionByZero
      else if size.getSExtValue.toNat % elemType.allocSize = 0 then
        .ok (some (.array (size.getSExtValue.toNat / elemType.allocSize) elemType))
      else .ok none := by
  rw [inferMallocType, helem]
  simp only [if_neg (Int.not_lt.mpr harg), hsize]
  by_cases h0 : elemType.allocSize = 0
  · simp only [checkedMod, if_pos h0]
    rfl
  · simp only [checkedMod, checkedDiv, if_neg h0]
    split
    · rfl
    · show (if _ then _ else _) = _
      split <;> rfl

/-- without a constant size nothing is divided -/
theorem inferMallocType_ok {allocSite : AllocSite} {sizeArgNo : Int}
    (h : ∀ elemType size, getNextBitCastDestType allocSite = some elemType → 0 ≤ sizeArgNo →
      allocSite.getArgOperand sizeArgNo.toNat ≠ .constantInt size) :
    ∃ R, inferMallocType allocSite sizeArgNo = .ok R := by
  rw [inferMallocType]
  split
  · exact ⟨_, rfl⟩
  · rename_i elemType helem
    split
    · exact ⟨_, rfl⟩
    · rename_i harg
      split
      · rename_i size hsize
        exact absurd hsize (h elemType size helem (Int.not_lt.mp harg))
      · dsimp only
        split <;> exact ⟨_, rfl⟩

/-- `malloc`: the only division by zero is that of a constant size into elements of size zero -/
theorem mallocOk_iff (allocSite : AllocSite) (sizeArgNo : Int) :
    MallocOk allocSite sizeArgNo ↔ ¬ ZeroSizedElements allocSite sizeArgNo := by
  constructor
  · rintro ⟨R, hR, -⟩ ⟨elemType, size, helem, harg, hsize, h0, hne⟩
    rw [inferMallocType_const helem harg hsize, if_neg (h0 ▸ hne), if_pos h0] at hR
    cases hR
  · intro hz
    by_cases hconst : ∃ elemType size, getNextBitCastDestType allocSite = some elemType ∧
        0 ≤ sizeArgNo ∧ allocSite.getArgOperand sizeArgNo.toNat = .constantInt size
    · obtain ⟨elemType, size, helem, harg, hsize⟩ := hconst
      have heq := inferMallocType_const helem harg hsize
      have hone : ∀ size', allocSite.getArgOperand sizeArgNo.toNat = .constantInt size' →
          size' = size := by
        intro size' hsize'
        rw [hsize] at hsize'
        exact (Operand.constantInt.inj hsize').symm
      by_cases hfit : size.getSExtValue.toNat = elemType.allocSize
      · refine ⟨_, heq.trans (if_pos hfit), fun T hT _ size' hsize' h0 => ?_⟩
        obtain rfl := hone size' hsize'
        obtain rfl := Option.some.inj hT
        rw [← toNat_getSExtValue h0, hfit]
      · have hpos : elemType.allocSize ≠ 0 := fun h0 =>
          hz ⟨elemType, size, helem, harg, hsize, h0, fun hs => hfit (hs.trans h0.symm)⟩
        rw [if_neg hfit, if_neg hpos] at heq
        by_cases hdvd : size.getSExtValue.toNat % elemType.allocSize = 0
        · refine ⟨_, heq.trans (if_pos hdvd), fun T hT _ size' hsize' h0 => ?_⟩
          obtain rfl := hone size' hsize'
          obtain rfl := Option.some.inj hT
          rw [← toNat_getSExtValue h0, IRType.allocSize,
            Nat.div_mul_cancel (Nat.dvd_of_mod_eq_zero hdvd)]
        · exact ⟨_, heq.trans (if_neg hdvd), fun T hT => by cases hT⟩
    · obtain ⟨R, hR⟩ : ∃ R, inferMallocType allocSite sizeArgNo = .ok R := inferMallocType_ok
        fun elemType size helem harg hsize => hconst ⟨elemType, size, helem, harg, hsize⟩
      refine ⟨R, hR, fun T hT harg size hsize _ => ?_⟩
      have helem : ∃ elemType, getNextBitCastDestType allocSite = some elemType := by
        refine Option.isSome_iff_exists.mp ?_
        by_contra hnone
        rw [Option.not_isSome_iff_eq_none] at hnone
        rw [inferMallocType, hnone] at hR
        obtain rfl := Except.ok.inj hR
        cases hT
      obtain ⟨elemType, helem⟩ := helem
      exact absurd ⟨elemType, size, helem, harg, hsize⟩ hconst

/-- The inference is total and consistent with the sizes that are asked for, for `malloc` and for
`calloc`, iff no constant size is to be divided into elements of size zero. -/
theorem inferTypes_iff (allocSite : AllocSite) (sizeArgNo : Int) :
    (MallocOk allocSite sizeArgNo ∧
      ∀ numArgNo sizeArgNo', CallocOk allocSite numArgNo sizeArgNo') ↔
    ¬ ZeroSizedElements allocSite sizeArgNo := by
  rw [mallocOk_iff]
  exact and_iff_left fun numArgNo sizeArgNo' => callocOk allocSite numArgNo sizeArgNo'

/-- `malloc(4)`, cast to a pointer to the empty structure -/
def emptyStructSite : AllocSite :=
  .call (fun _ => .constantInt ⟨64, 4, by decide⟩) (some (.bitCast (some (.struct 0 [] 0))))

theorem inferMallocType_divisionByZero :
    inferMallocType emptyStructSite 0 = .error .divisionByZero ∧ ¬ MallocOk emptyStructSite 0 := by
  have h : inferMallocType emptyStructSite 0 = .error .divisionByZero := rfl
  refine ⟨h, fun ⟨R, hR, _⟩ => ?_⟩
  rw [h] at hR
  cases hR

end HeapModel

end AserPTA
