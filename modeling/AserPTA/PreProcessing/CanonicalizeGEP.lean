import AserPTA.MemoryModel.IRType

/-!
# Splitting `getelementptr` instructions

`CanonicalizeGEPPass` replaces an instruction with variable indices by a chain of instructions that
have constant indices only or the form `getGEPStepSize` expects.

* `GEP`, `GEP.eval`      an instruction, and the typed pointer it computes from one;
* `GEP.strided`          its variable indices, each with the type it strides over;
* `getGEPStepSize`       the step of a canonical instruction;
* `splitVariableGEP`     the pass; `Split` is the state of its loop;
* `splitVariableGEP_spec` the chain computes the pointer of the original, and every instruction of it
                         is canonical.
-/

namespace AserPTA

/-- an index operand: a `ConstantInt` of some width, or a variable -/
inductive Idx (Var : Type)
  | const (width : Nat) (value : Int)
  | var (x : Var)

/-- a typed pointer -/
structure TypedPtr where
  addr : BitVec 64
  pointee : IRType

/-- `getelementptr source, source* p, indices` -/
structure GEP (Var : Type) where
  source : IRType
  indices : List (Idx Var)

variable {Var : Type}

namespace Idx

def isConstant : Idx Var → Bool
  | const _ _ => true
  | var _ => false

def isZeroValue : Idx Var → Bool
  | const _ c => decide (c = 0)
  | var _ => false

def value (v : Var → Int) : Idx Var → Int
  | const _ c => c
  | var x => v x

/-- `ConstantInt::get(IntegerType::getInt32Ty(..), 0)` -/
def zero : Idx Var := const 32 0

end Idx

namespace IRType

/-- the type that an index into a type leads to; a field has a constant number -/
def indexedType : IRType → Idx Var → Option IRType
  | array _ e, _ => some e
  | struct _ fields _, .const _ k => if 0 ≤ k then (fields[k.toNat]?).map Prod.snd else none
  | _, _ => none

/-- the bytes that an index into a type adds -/
def indexedOffset (v : Var → Int) : IRType → Idx Var → Int
  | array _ e, i => i.value v * e.allocSize
  | struct _ fields _, .const _ k => ((fields[k.toNat]?).map fun f => (f.1 : Int)).getD 0
  | _, _ => 0

end IRType

namespace GEP

def hasAllConstantIndices (g : GEP Var) : Bool := g.indices.all Idx.isConstant

/-- the type that the indices behind the first one lead to -/
def typeInto : IRType → List (Idx Var) → Option IRType
  | T, [] => some T
  | T, i :: is => (T.indexedType i).bind fun U => typeInto U is

/-- the bytes that the indices behind the first one add -/
def offsetInto (v : Var → Int) : IRType → List (Idx Var) → Int
  | _, [] => 0
  | T, i :: is => T.indexedOffset v i + ((T.indexedType i).map fun U => offsetInto v U is).getD 0

/-- the variables of the indices behind the first one, with the types they stride over -/
def stridedInto : IRType → List (Idx Var) → List (Var × IRType)
  | _, [] => []
  | T, i :: is => ((T.indexedType i).map fun U => match i with
      | .const _ _ => stridedInto U is
      | .var x => (x, U) :: stridedInto U is).getD []

/-- the pointee of the result; none if an index does not fit its type -/
def resultType (g : GEP Var) : Option IRType := typeInto g.source g.indices.tail

/-- the first index strides over the pointee of the operand -/
def offset (v : Var → Int) (g : GEP Var) : Int :=
  match g.indices with
  | [] => 0
  | i :: is => i.value v * g.source.allocSize + offsetInto v g.source is

/-- the variable indices in order, each with the type it strides over -/
def strided (g : GEP Var) : List (Var × IRType) :=
  match g.indices with
  | [] => []
  | .const _ _ :: is => stridedInto g.source is
  | .var x :: is => (x, g.source) :: stridedInto g.source is

/-- the pointer that the instruction computes; its operand has to have the source type -/
def eval (v : Var → Int) (p : TypedPtr) (g : GEP Var) : Option TypedPtr :=
  if p.pointee = g.source then
    g.resultType.map fun U => ⟨p.addr + BitVec.ofInt 64 (g.offset v), U⟩
  else none

end GEP

/-- `getGEPStepSize`; none where an assertion fails -/
def getGEPStepSize (g : GEP Var) : Option Nat :=
  if g.hasAllConstantIndices then none
  else match g.indices with
  -- getelementptr [type], [type *] %obj, %var
  | [.var _] => some g.source.allocSize
  -- the first index returns
  | [.var _, _] => some g.source.allocSize
  -- getelementptr [type], [type *] %obj, 0, %var
  | [.const _ c, .var y] =>
    if c = 0 then (g.source.indexedType (.var y)).map IRType.allocSize else none
  | _ => none

/-- the state of `splitVariableGEP` on one instruction: the pointee of `lastBasePtr`, the constant
indices that are stored, and what is emitted -/
structure Split (Var : Type) where
  lastType : IRType
  consIndices : List (Idx Var) := []
  emitted : List (GEP Var) := []

namespace Split

variable (s : Split Var)

/-- `lastBasePtr = builder.CreateGEP(lastBasePtr, indices)` -/
def createGEP (indices : List (Idx Var)) : Option (Split Var) :=
  let g : GEP Var := ⟨s.lastType, indices⟩
  g.resultType.map fun U => { s with lastType := U, emitted := s.emitted ++ [g] }

/-- emit the stored constant indices if there are any -/
def flush : Option (Split Var) :=
  if s.consIndices.length ≠ 1 then s.createGEP s.consIndices else some s

/-- the loop over the indices, and what follows it -/
def loop (s : Split Var) : List (Idx Var) → Option (Split Var)
  | [] =>
    if s.consIndices.length ≠ 1 then s.createGEP s.consIndices
    else match s.consIndices with
    -- the first should be a zero
    | [.const 32 0] => some s
    | _ => none
  | .const w c :: rest => loop { s with consIndices := s.consIndices ++ [.const w c] } rest
  | .var x :: rest =>
    -- 1st, emit stored constant index if we have any; 2nd, emit the variable index
    (s.flush.bind fun s => s.createGEP [.zero, .var x]).bind fun s =>
      loop { s with consIndices := [.zero] } rest

end Split

/-- the chain that replaces the instruction; none where an assertion fails -/
def splitVariableGEP (g : GEP Var) : Option (List (GEP Var)) :=
  if g.hasAllConstantIndices then some [g]
  else match g.indices with
  | [] => some [g]
  | i :: rest =>
    let s : Split Var := { lastType := g.source }
    let s' :=
      -- the first index is not a constant, or it is but not a zero
      if i.isConstant && i.isZeroValue then s.loop (i :: rest)
      else (s.createGEP [i]).bind fun s => { s with consIndices := [.zero] }.loop rest
    s'.map Split.emitted

/-! ## cutting an instruction in two -/

namespace GEP

theorem typeInto_append (T : IRType) (is js : List (Idx Var)) :
    typeInto T (is ++ js) = (typeInto T is).bind fun U => typeInto U js := by
  induction is generalizing T with
  | nil => rfl
  | cons i is ih =>
    rw [List.cons_append, typeInto, typeInto, Option.bind_assoc]
    exact congrArg _ (funext fun U => ih U)

theorem offsetInto_append (v : Var → Int) {T U : IRType} {is : List (Idx Var)}
    (h : typeInto T is = some U) (js : List (Idx Var)) :
    offsetInto v T (is ++ js) = offsetInto v T is + offsetInto v U js := by
  induction is generalizing T with
  | nil =>
    obtain rfl := Option.some.inj h
    exact (Int.zero_add _).symm
  | cons i is ih =>
    rw [typeInto, Option.bind_eq_some_iff] at h
    obtain ⟨T', hT', h⟩ := h
    simp only [List.cons_append, offsetInto, hT', Option.map_some, Option.getD_some, ih h]
    omega

theorem stridedInto_append {T U : IRType} {is : List (Idx Var)} (h : typeInto T is = some U)
    (js : List (Idx Var)) : stridedInto T (is ++ js) = stridedInto T is ++ stridedInto U js := by
  induction is generalizing T with
  | nil =>
    obtain rfl := Option.some.inj h
    rfl
  | cons i is ih =>
    rw [typeInto, Option.bind_eq_some_iff] at h
    obtain ⟨T', hT', h⟩ := h
    cases i with
    | const w c => simp only [List.cons_append, stridedInto, hT', Option.map_some, Option.getD_some,
        ih h]
    | var x => simp only [List.cons_append, stridedInto, hT', Option.map_some, Option.getD_some,
        ih h]

/-- what an instruction with a first index and then `is` computes, and from there an instruction
with a zero and then `js` -/
theorem eval_cut (v : Var → Int) {T U : IRType} {is : List (Idx Var)} (h : typeInto T is = some U)
    (i : Idx Var) (js : List (Idx Var)) (w : Nat) (base : BitVec 64) :
    eval v ⟨base, T⟩ ⟨T, i :: (is ++ js)⟩ =
      (eval v ⟨base, T⟩ ⟨T, i :: is⟩).bind fun p => eval v p ⟨U, .const w 0 :: js⟩ := by
  have hleft : resultType ⟨T, i :: (is ++ js)⟩ = typeInto U js := by
    show typeInto T (is ++ js) = _
    rw [typeInto_append, h, Option.bind_some]
  have hmid : resultType ⟨T, i :: is⟩ = some U := h
  have hright : resultType ⟨U, Idx.const w 0 :: js⟩ = typeInto U js := rfl
  simp only [eval, if_true, hleft, hmid, hright, Option.map_some, Option.bind_some]
  refine congrArg (fun f => (typeInto U js).map f) (funext fun U' => ?_)
  refine congrArg (fun a => TypedPtr.mk a U') ?_
  simp only [offset, offsetInto_append v h, Idx.value, Int.zero_mul, Int.zero_add, BitVec.add_assoc,
    ← BitVec.ofInt_add, Int.add_assoc]

theorem strided_cut {T U : IRType} {is : List (Idx Var)} (h : typeInto T is = some U) (i : Idx Var)
    (js : List (Idx Var)) (w : Nat) :
    strided ⟨T, i :: (is ++ js)⟩ = strided ⟨T, i :: is⟩ ++ strided ⟨U, .const w 0 :: js⟩ := by
  cases i with
  | const w' c => exact stridedInto_append h js
  | var x => exact congrArg ((x, T) :: ·) (stridedInto_append h js)

/-- an instruction the analysis can read: constant indices only, or one variable behind at most a
zero, and then `getGEPStepSize` gives the size of what the variable strides over -/
def Canonical (g : GEP Var) : Prop :=
  g.hasAllConstantIndices = true ∨
    ∃ x S, (g.indices = [.var x] ∨ ∃ w, g.indices = [.const w 0, .var x]) ∧
      g.strided = [(x, S)] ∧ getGEPStepSize g = some S.allocSize

/-- the chain computes what the instruction does, from canonical instructions that have its
variable indices in order and with the types they stride over -/
structure SplitsTo (g : GEP Var) (chain : List (GEP Var)) : Prop where
  eval : ∀ (v : Var → Int) base,
    chain.foldlM (GEP.eval v) ⟨base, g.source⟩ = g.eval v ⟨base, g.source⟩
  canonical : ∀ h ∈ chain, Canonical h
  strided : chain.flatMap GEP.strided = g.strided

theorem SplitsTo.single {g : GEP Var} (h : Canonical g) : SplitsTo g [g] := by
  refine ⟨fun v base => ?_, fun g' hg' => ?_, ?_⟩
  · simp
  · rwa [List.mem_singleton.mp hg']
  · simp

/-- an instruction with a zero only computes its operand -/
theorem SplitsTo.zero (T : IRType) (w : Nat) : SplitsTo (⟨T, [.const w 0]⟩ : GEP Var) [] := by
  refine ⟨fun v base => ?_, fun g hg => (List.not_mem_nil hg).elim, rfl⟩
  simp [GEP.eval, resultType, typeInto, offset, offsetInto, Idx.value]

theorem SplitsTo.cut {T U : IRType} {l r : List (Idx Var)} {i : Idx Var} {w : Nat}
    {c c' : List (GEP Var)} (h : typeInto T l = some U) (h1 : SplitsTo ⟨T, i :: l⟩ c)
    (h2 : SplitsTo ⟨U, .const w 0 :: r⟩ c') : SplitsTo ⟨T, i :: (l ++ r)⟩ (c ++ c') := by
  refine ⟨fun v base => ?_, fun g hg => ?_, ?_⟩
  · have hmid : GEP.eval v ⟨base, T⟩ ⟨T, i :: l⟩ =
        some ⟨base + BitVec.ofInt 64 (GEP.offset v ⟨T, i :: l⟩), U⟩ := by
      rw [GEP.eval, if_pos rfl, show resultType ⟨T, i :: l⟩ = some U from h, Option.map_some]
    rw [List.foldlM_append, h1.eval, eval_cut v h i r w, hmid]
    exact h2.eval v _
  · exact (List.mem_append.mp hg).elim (h1.canonical g) (h2.canonical g)
  · rw [List.flatMap_append, h1.strided, h2.strided, strided_cut h]

theorem canonical_const {T : IRType} {is : List (Idx Var)} (h : ∀ i ∈ is, i.isConstant = true) :
    Canonical ⟨T, is⟩ := .inl (List.all_eq_true.mpr h)

theorem canonical_var (T : IRType) (x : Var) : Canonical ⟨T, [.var x]⟩ :=
  .inr ⟨x, T, .inl rfl, rfl, rfl⟩

theorem canonical_zero_var {T U : IRType} {x : Var} (h : T.indexedType (.var x) = some U) :
    Canonical ⟨T, [.zero, .var x]⟩ := by
  refine .inr ⟨x, U, .inr ⟨32, rfl⟩, ?_, ?_⟩
  · simp [GEP.strided, Idx.zero, stridedInto, h]
  · simp [getGEPStepSize, hasAllConstantIndices, Idx.isConstant, Idx.zero, h]

end GEP

/-! ## the loop -/

namespace Split

variable {s : Split Var}

/-- an emitted instruction, if its indices fit -/
theorem createGEP_eq {l : List (Idx Var)} {U : IRType}
    (h : GEP.resultType ⟨s.lastType, l⟩ = some U) :
    s.createGEP l =
      some { s with lastType := U, emitted := s.emitted ++ [⟨s.lastType, l⟩] } := by
  rw [createGEP, h, Option.map_some]

/-- after the stored constants are emitted, `lastBasePtr` is what they lead to -/
theorem flush_spec {w : Nat} {l : List (Idx Var)} {U : IRType}
    (hcons : s.consIndices = .const w 0 :: l) (hconst : ∀ i ∈ l, i.isConstant = true)
    (ht : GEP.typeInto s.lastType l = some U) :
    ∃ s' new, s.flush = some s' ∧ s'.lastType = U ∧ s'.emitted = s.emitted ++ new ∧
      GEP.SplitsTo ⟨s.lastType, .const w 0 :: l⟩ new := by
  rw [flush, hcons]
  cases l with
  | nil =>
    refine ⟨s, [], if_neg (by simp), Option.some.inj ht, (List.append_nil _).symm, ?_⟩
    exact .zero s.lastType w
  | cons i l =>
    have hres : GEP.resultType ⟨s.lastType, .const w 0 :: i :: l⟩ = some U := ht
    rw [if_pos (by simp), createGEP_eq hres]
    refine ⟨_, _, rfl, rfl, rfl, .single (GEP.canonical_const fun j hj => ?_)⟩
    rcases List.mem_cons.mp hj with rfl | hj
    · rfl
    · exact hconst j hj

/-- The loop emits a chain for the stored constants and the indices that are left.  The induction is
on the latter; the first stored index is a zero, and it is the `zero` of the pass unless a variable
is still to come. -/
theorem loop_spec (rest : List (Idx Var)) {w : Nat} {l : List (Idx Var)} {U : IRType}
    (hcons : s.consIndices = .const w 0 :: l) (hconst : ∀ i ∈ l, i.isConstant = true)
    (ht : GEP.typeInto s.lastType (l ++ rest) = some U)
    (hw : w = 32 ∨ rest.all Idx.isConstant = false) :
    ∃ s' new, s.loop rest = some s' ∧ s'.emitted = s.emitted ++ new ∧
      GEP.SplitsTo ⟨s.lastType, .const w 0 :: (l ++ rest)⟩ new := by
  induction rest generalizing s w l with
  | nil =>
    rw [List.append_nil] at ht ⊢
    rw [loop]
    cases l with
    | nil =>
      obtain rfl := hw.resolve_right (by simp)
      refine ⟨s, [], ?_, (List.append_nil _).symm, .zero s.lastType 32⟩
      rw [hcons, if_neg (by simp)]
      rfl
    | cons i l =>
      obtain ⟨s', new, hf, -, hem, hsp⟩ := flush_spec hcons hconst ht
      refine ⟨s', new, ?_, hem, hsp⟩
      rw [flush, hcons, if_pos (by simp)] at hf
      rw [hcons, if_pos (by simp), hf]
  | cons i rest ih =>
    cases i with
    | const w' c =>
      have hassoc : l ++ .const w' c :: rest = (l ++ [.const w' c]) ++ rest := by simp
      rw [hassoc] at ht ⊢
      rw [loop]
      refine ih (s := { s with consIndices := s.consIndices ++ [.const w' c] }) ?_ ?_ ht ?_
      · simp [hcons]
      · intro j hj
        rcases List.mem_append.mp hj with hj | hj
        · exact hconst j hj
        · rw [List.mem_singleton.mp hj]
          rfl
      · simpa [Idx.isConstant] using hw
    | var x =>
      rw [GEP.typeInto_append, Option.bind_eq_some_iff] at ht
      obtain ⟨U1, ht1, ht⟩ := ht
      rw [GEP.typeInto, Option.bind_eq_some_iff] at ht
      obtain ⟨U2, ht2, ht⟩ := ht
      -- the stored constants lead to `U1`, the variable index from there to `U2`
      obtain ⟨s1, new1, hf, hl1, hem1, hsp1⟩ := flush_spec hcons hconst ht1
      have hone : GEP.typeInto U1 [.var x] = some U2 := by rw [GEP.typeInto, ht2]; rfl
      have hc := createGEP_eq (s := s1) (l := [.zero, .var x]) (U := U2) (hl1.symm ▸ hone)
      obtain ⟨s', new, hloop, hem, hsp⟩ := ih (s := { s1 with
        lastType := U2
        consIndices := [.zero]
        emitted := s1.emitted ++ [⟨s1.lastType, [.zero, .var x]⟩] }) (w := 32) (l := []) rfl
        (fun i hi => by cases hi) ht (.inl rfl)
      refine ⟨s', new1 ++ ([⟨U1, [.zero, .var x]⟩] ++ new), ?_, ?_, ?_⟩
      · rw [loop, hf, Option.bind_some, hc, Option.bind_some]
        exact hloop
      · rw [hem, hem1, hl1]
        simp
      · refine .cut ht1 hsp1 (w := 32) ?_
        exact .cut (l := [.var x]) hone (.single (GEP.canonical_zero_var ht2)) hsp

end Split

/-- The chain that replaces an instruction with a variable index computes the pointer of the
original, for all values of the variables and every base address; its instructions are canonical,
and their variables stride over the types they stride over in the original. -/
theorem splitVariableGEP_spec (g : GEP Var) {U : IRType} (ht : g.resultType = some U)
    (hvar : g.hasAllConstantIndices = false) :
    ∃ chain, splitVariableGEP g = some chain ∧
      (∀ (v : Var → Int) base,
        chain.foldlM (GEP.eval v) ⟨base, g.source⟩ = g.eval v ⟨base, g.source⟩) ∧
      (∀ h ∈ chain, h.Canonical) ∧ chain.flatMap GEP.strided = g.strided := by
  suffices h : ∃ chain, splitVariableGEP g = some chain ∧ g.SplitsTo chain by
    obtain ⟨chain, hchain, hsp⟩ := h
    exact ⟨chain, hchain, hsp.eval, hsp.canonical, hsp.strided⟩
  obtain ⟨T, indices⟩ := g
  rw [splitVariableGEP, hvar]
  cases indices with
  | nil => cases hvar
  | cons i rest =>
    have hrest : GEP.typeInto T rest = some U := ht
    dsimp only
    rw [if_neg Bool.false_ne_true]
    by_cases hz : (i.isConstant && i.isZeroValue) = true
    · rw [if_pos hz]
      cases i with
      | var x => cases hz
      | const w c =>
        obtain rfl : c = 0 := by simpa [Idx.isConstant, Idx.isZeroValue] using hz
        obtain ⟨s', new, hloop, hem, hsp⟩ := Split.loop_spec
          (s := { lastType := T, consIndices := [.const w 0] }) rest (l := []) rfl
          (fun i hi => by cases hi) hrest (.inr hvar)
        refine ⟨new, ?_, hsp⟩
        have hstep : Split.loop { lastType := T } (.const w 0 :: rest) = some s' := by
          rw [Split.loop]
          exact hloop
        rw [hstep, Option.map_some, hem]
        rfl
    · rw [if_neg hz]
      have hc := Split.createGEP_eq (s := { lastType := T }) (l := [i]) (U := T) rfl
      obtain ⟨s', new, hloop, hem, hsp⟩ := Split.loop_spec
        (s := { lastType := T, consIndices := [.zero], emitted := [⟨T, [i]⟩] }) rest (w := 32)
        (l := []) rfl (fun i hi => by cases hi) hrest (.inl rfl)
      refine ⟨[⟨T, [i]⟩] ++ new, ?_, ?_⟩
      · rw [hc, Option.bind_some]
        refine (congrArg (Option.map Split.emitted) hloop).trans ?_
        rw [Option.map_some, hem]
      · refine .cut (l := []) rfl (.single ?_) hsp
        cases i with
        | const w c => exact GEP.canonical_const fun j hj => by rw [List.mem_singleton.mp hj]; rfl
        | var x => exact GEP.canonical_var T x

/-- a field of an array element: `getelementptr [2 x {i64, [3 x i32]}], %p, 0, %0, 1, %1` -/
def nestedGEP : GEP Nat :=
  ⟨.array 2 (.struct 0 [(0, .scalar 8), (8, .array 3 (.scalar 4))] 24),
    [.const 64 0, .var 0, .const 32 1, .var 1]⟩

theorem splitVariableGEP_nestedGEP :
    nestedGEP.resultType = some (.scalar 4) ∧
      ∃ chain, splitVariableGEP nestedGEP = some chain ∧
        (∀ (v : Nat → Int) base, chain.foldlM (GEP.eval v) ⟨base, nestedGEP.source⟩ =
          nestedGEP.eval v ⟨base, nestedGEP.source⟩) ∧
        (∀ h ∈ chain, h.Canonical) ∧ chain.flatMap GEP.strided = nestedGEP.strided :=
  ⟨rfl, splitVariableGEP_spec nestedGEP (U := .scalar 4) rfl rfl⟩

end AserPTA
