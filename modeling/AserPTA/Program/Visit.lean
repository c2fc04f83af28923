import AserPTA.Program.Builder
import Mathlib.Logic.Relation

/-!
# Visiting a function

When `initFunction` succeeds, and which pointers have nodes after it.

* `asked`, `needed`       the values an instruction asks a node for, and those that must have one later;
* `Grew`                  the pointers, return nodes and memory blocks that are added;
* `visit_ok_iff`, `run_ok_iff`   when a visit, and a run of visits, succeeds;
* `Dominates`, `Ssa`      definitions dominate uses;
* `initFunction_ok_iff`   the exact condition on the instructions in layout order.
-/

namespace AserPTA

open Relation

variable {Ctx Fun Val Ty : Type}

namespace Program

variable (P : Program Fun Val Ty) [DecidableEq Val]

/-- the values that the visitor of an instruction gets or creates a node for -/
def asked (I : Val) : List Val :=
  match P.instr I with
  | .load ptr => if P.isPointer I then [ptr, I] else []
  | .store value ptr =>
    if P.isPointer value then
      if P.canonicalize ptr = P.uniValue ∨ P.canonicalize ptr = P.nullValue then [] else [value, ptr]
    else []
  | .getElementPtr base =>
    if P.canonicalize base ≠ P.canonicalize I then [P.canonicalize I, P.canonicalize base] else []
  | .phi incoming => if P.isPointer I then I :: incoming.map (·.1) else []
  | .select t f => if P.isPointer I then [I, t, f] else []
  | .call _ => if P.isPointer I then (if P.canonicalize I ≠ I then [] else [I]) else []
  | .memcpy source dest _ => [source, dest]
  | .extractValue => if P.isPointer I then [I] else []
  | _ => []

/-- the pointers that calls and returns use later -/
def needed (I : Val) : List Val :=
  match P.instr I with
  | .call cs | .memcpy _ _ cs => cs.calledValue :: cs.args.filter P.isPointer
  | .ret (some V) => if P.isPointer V then [V] else []
  | _ => []

/-! ## dominance -/

/-- blocks that are reached from the entry block by a path that avoids `d` -/
inductive ReachAvoiding (F : Fun) (d : Nat) : Nat → Prop where
  | entry : 0 ≠ d → ReachAvoiding F d 0
  | step {i j : Nat} {B : Block Val} : ReachAvoiding F d i → (P.blocks F)[i]? = some B →
      j ∈ B.succs → j ≠ d → ReachAvoiding F d j

/-- every path from the entry block to the block `j` goes through the block `d` -/
def Dominates (F : Fun) (d j : Nat) : Prop := ¬ ReachAvoiding P F d j

/-- the operands of an instruction that is no `phi` -/
def operands : Instr Fun Val → List Val
  | .load ptr => [ptr]
  | .store value ptr => [value, ptr]
  | .getElementPtr base => [base]
  | .select t f => [t, f]
  | .call cs | .memcpy _ _ cs => cs.calledValue :: cs.args
  | .ret (some V) => [V]
  | _ => []

/-- Definitions dominate uses: an operand is defined before in the same block or in a block that
dominates it, an incoming value of a `phi` in a block that dominates the block it comes from. -/
structure Ssa (F : Fun) : Prop where
  use : ∀ (j : Nat) (B : Block Val), (P.blocks F)[j]? = some B →
    ∀ pre I post, B.insts = pre ++ I :: post → ∀ V ∈ operands (P.instr I), V ∈ P.insts F →
      V ∈ pre ∨ ∃ (i : Nat) (D : Block Val), (P.blocks F)[i]? = some D ∧ V ∈ D.insts ∧ i ≠ j ∧
        P.Dominates F i j
  phi : ∀ (j : Nat) (B : Block Val), (P.blocks F)[j]? = some B → ∀ I ∈ B.insts,
    ∀ incoming, P.instr I = .phi incoming → ∀ p ∈ incoming, p.1 ∈ P.insts F →
      ∃ (i : Nat) (D : Block Val), (P.blocks F)[i]? = some D ∧ p.1 ∈ D.insts ∧
        P.Dominates F i p.2

end Program

namespace Builder

variable (P : Program Fun Val Ty) (T : CtxDomain Ctx Val)

section
variable [DecidableEq Fun] [DecidableEq Val]

/-- the place of a pointer in the set, if it is looked up there -/
def keyOf (C : Ctx) (V : Val) : Option (Ctx × Val) :=
  if P.canonicalize V = P.uniValue ∨ P.canonicalize V = P.nullValue then none
  else some (ctxOf P T C (P.canonicalize V), P.canonicalize V)

/-- the pointers that a visit adds -/
def added (C : Ctx) (I : Val) : List (Ctx × Val) :=
  (if P.instr I = .alloca then [(C, I)] else []) ++ (P.asked I).filterMap (keyOf P T C)

/-- the memory block that a visit adds -/
def allocated (C : Ctx) (I : Val) : List (Ctx × Val) :=
  if P.instr I = .alloca then [(C, I)] else []

end

/-- pointers are added at the keys `K`, and memory blocks for the sites `A` -/
structure Grew (K A : List (Ctx × Val)) (b b' : Builder Ctx Fun Val) : Prop where
  ptrs : ∀ k, (b'.ptrs k).isSome ↔ (b.ptrs k).isSome ∨ k ∈ K
  rets : b'.retPtrMap = b.retPtrMap
  blocks : ∀ s, s ∈ b'.memBlockMap ↔ s ∈ b.memBlockMap ∨ s ∈ A

variable {P T} {b b' b'' : Builder Ctx Fun Val} {K K' A A' : List (Ctx × Val)}

theorem Grew.refl (b : Builder Ctx Fun Val) : Grew [] [] b b :=
  ⟨fun k => by simp, rfl, fun s => by simp⟩

theorem Grew.trans (h : Grew K A b b') (h' : Grew K' A' b' b'') :
    Grew (K ++ K') (A ++ A') b b'' := by
  refine ⟨fun k => ?_, h'.rets.trans h.rets, fun s => ?_⟩
  · rw [h'.ptrs, h.ptrs, List.mem_append, or_assoc]
  · rw [h'.blocks, h.blocks, List.mem_append, or_assoc]

theorem Grew.addConstraints (h : Grew K A b b') (src dst : NodeID) (k : Constraints) :
    Grew K A b (b'.addConstraints src dst k) := ⟨h.ptrs, h.rets, h.blocks⟩

variable [DecidableEq Val]

/-- a pointer has a node if the set has one at its key -/
theorem isSome_getPtrNodeOrNull (b : Builder Ctx Fun Val) (C : Ctx) (V : Val) :
    (getPtrNodeOrNull P T b C V).isSome ↔ ∀ k ∈ keyOf P T C V, (b.ptrs k).isSome := by
  unfold getPtrNodeOrNull keyOf specialPtr
  dsimp only
  by_cases hu : P.canonicalize V = P.uniValue
  · simp [hu]
  · by_cases hn : P.canonicalize V = P.nullValue
    · rw [if_neg hu, if_pos hn, if_pos (.inr hn)]
      simp
    · simp [hu, hn]

variable [DecidableEq Ctx]

theorem Grew.insertPtr (b : Builder Ctx Fun Val) (C : Ctx) (V : Val) :
    Grew [(C, V)] [] b (b.insertPtr C V).1 := by
  refine ⟨fun k => ?_, rfl, fun s => by simp [Builder.insertPtr, addPtrNode]⟩
  show (Function.update b.ptrs (C, V) _ k).isSome ↔ _
  by_cases hk : k = (C, V)
  · subst hk
    simp
  · rw [Function.update_of_ne hk]
    simp [hk]

theorem Grew.getOrCreate (b : Builder Ctx Fun Val) (C : Ctx) (V : Val) :
    Grew (keyOf P T C V).toList [] b (getOrCreatePtrNode P T b C V).1 := by
  unfold getOrCreatePtrNode
  cases hget : getPtrNodeOrNull P T b C V with
  | some n =>
    have hsome := (isSome_getPtrNodeOrNull (P := P) (T := T) b C V).mp (by rw [hget]; rfl)
    refine ⟨fun k => ⟨.inl, ?_⟩, rfl, fun s => by simp⟩
    rintro (h | h)
    · exact h
    · exact hsome k (Option.mem_toList.mp h)
  | none =>
    have hkey : keyOf P T C V = some (ctxOf P T C (P.canonicalize V), P.canonicalize V) := by
      unfold keyOf
      rw [if_neg]
      intro hs
      have := (isSome_getPtrNodeOrNull (P := P) (T := T) b C V).mpr (by
        unfold keyOf
        rw [if_pos hs]
        intro k hk
        cases hk)
      rw [hget] at this
      cases this
    rw [hkey]
    exact Grew.insertPtr b _ _

theorem Grew.addEdge (b : Builder Ctx Fun Val) (C : Ctx) (first second : Val)
    {edge : NodeID → NodeID → Builder Ctx Fun Val → Builder Ctx Fun Val}
    (hedge : ∀ m n b, Grew [] [] b (edge m n b)) :
    Grew ([first, second].filterMap (keyOf P T C)) [] b
      (Builder.addEdge P T b C first second edge) := by
  have h1 := Grew.getOrCreate (P := P) (T := T) b C first
  have h2 := Grew.getOrCreate (P := P) (T := T) (getOrCreatePtrNode P T b C first).1 C second
  have h3 := hedge (getOrCreatePtrNode P T b C first).2
    (getOrCreatePtrNode P T (getOrCreatePtrNode P T b C first).1 C second).2
    (getOrCreatePtrNode P T (getOrCreatePtrNode P T b C first).1 C second).1
  have h := (h1.trans h2).trans h3
  have heq : [first, second].filterMap (keyOf P T C) =
      (keyOf P T C first).toList ++ (keyOf P T C second).toList ++ [] := by
    cases h1 : keyOf P T C first <;> cases h2 : keyOf P T C second <;> simp [h1, h2]
  rw [heq]
  exact h

theorem Grew.incoming (C : Ctx) (dst : NodeID) (l : List Val) (b : Builder Ctx Fun Val) :
    Grew (l.filterMap (keyOf P T C)) [] b (l.foldl (addIncoming P T C dst) b) := by
  induction l generalizing b with
  | nil => exact Grew.refl b
  | cons V l ih =>
    have h1 : Grew (keyOf P T C V).toList [] b (addIncoming P T C dst b V) :=
      (Grew.getOrCreate b C V).addConstraints _ _ _
    have h := h1.trans (ih (addIncoming P T C dst b V))
    have heq : (V :: l).filterMap (keyOf P T C) =
        (keyOf P T C V).toList ++ l.filterMap (keyOf P T C) := by
      cases hk : keyOf P T C V <;> simp [hk]
    rw [heq]
    exact h

/-- the operands of a `phi` or a `select` -/
theorem Grew.copies (b : Builder Ctx Fun Val) (C : Ctx) (I : Val) (l : List Val) :
    Grew ((I :: l).filterMap (keyOf P T C)) [] b
      (l.foldl (addIncoming P T C (getOrCreatePtrNode P T b C I).2)
        (getOrCreatePtrNode P T b C I).1) := by
  have h := (Grew.getOrCreate (P := P) (T := T) b C I).trans
    (Grew.incoming (P := P) (T := T) C (getOrCreatePtrNode P T b C I).2 l
      (getOrCreatePtrNode P T b C I).1)
  have heq : (I :: l).filterMap (keyOf P T C) =
      (keyOf P T C I).toList ++ l.filterMap (keyOf P T C) := by
    cases hk : keyOf P T C I <;> simp [hk]
  rw [heq]
  exact h

/-- when the visit of an instruction succeeds -/
def VisitOk (P : Program Fun Val Ty) (T : CtxDomain Ctx Val) (C : Ctx) (F : Fun)
    (b : Builder Ctx Fun Val) (I : Val) : Prop :=
  match P.instr I with
  | .alloca => (C, I) ∉ b.memBlockMap ∧ b.ptrs (C, I) = none
  | .ret (some V) => P.isPointer V = true →
      (getPtrNodeOrNull P T b C V).isSome ∧ (b.retPtrMap (C, F)).isSome
  | _ => True

variable [DecidableEq Fun]

/-- a visit succeeds or not, and what it adds when it does -/
theorem visit_spec (C : Ctx) (F : Fun) (b : Builder Ctx Fun Val) (I : Val) :
    (VisitOk P T C F b I → ∃ b', visit P T C F b I = .ok b') ∧
    ∀ b', visit P T C F b I = .ok b' →
      VisitOk P T C F b I ∧ Grew (added P T C I) (allocated P C I) b b' := by
  have hok : ∀ {b₁ : Builder Ctx Fun Val} {K : List (Ctx × Val)}, Grew K [] b b₁ →
      (True → ∃ b', (Except.ok b₁ : Except Abort _) = .ok b') ∧
        ∀ b', (Except.ok b₁ : Except Abort _) = .ok b' → True ∧ Grew K [] b b' := by
    intro b₁ K h
    refine ⟨fun _ => ⟨b₁, rfl⟩, fun b' hb' => ?_⟩
    cases hb'
    exact ⟨trivial, h⟩
  unfold visit VisitOk added allocated Program.asked
  cases hI : P.instr I with
  | alloca =>
    simp only [if_true]
    unfold visitAllocaInst allocate createPtrNode
    by_cases hblock : (C, I) ∈ b.memBlockMap
    · rw [if_pos hblock]
      exact ⟨fun h => absurd hblock h.1, fun b' hb' => (by cases hb')⟩
    · rw [if_neg hblock]
      cases hptr : b.ptrs (C, I) with
      | some n =>
        refine ⟨fun h => (by cases h.2), fun b' hb' => ?_⟩
        simp only [bind, Except.bind, hptr] at hb'
        cases hb'
      | none =>
        simp only [bind, Except.bind, hptr, pure, Except.pure]
        refine ⟨fun _ => ⟨_, rfl⟩, fun b' hb' => ⟨⟨hblock, trivial⟩, ?_⟩⟩
        cases hb'
        have h1 : Grew [] [(C, I)] b { b with
            core := b.core.addCGNode (.objNode ⟨C, I, 0⟩)
            memBlockMap := (C, I) :: b.memBlockMap } :=
          ⟨fun k => by simp, rfl, fun s => by simp [or_comm]⟩
        exact (h1.trans (Grew.insertPtr _ C I)).addConstraints _ _ _
  | load ptr =>
    unfold visitLoadInst
    dsimp only
    by_cases hp : P.isPointer I = true
    · rw [if_pos hp, if_pos hp]
      exact hok (Grew.addEdge b C ptr I fun m n b => (Grew.refl b).addConstraints m n .load)
    · rw [if_neg hp, if_neg hp]
      exact hok (Grew.refl b)
  | store value ptr =>
    unfold visitStoreInst
    dsimp only
    by_cases hp : P.isPointer value = true
    · rw [if_pos hp, if_pos hp]
      by_cases hs : P.canonicalize ptr = P.uniValue ∨ P.canonicalize ptr = P.nullValue
      · rw [if_pos hs, if_pos hs]
        exact hok (Grew.refl b)
      · rw [if_neg hs, if_neg hs]
        exact hok (Grew.addEdge b C value ptr fun m n b => (Grew.refl b).addConstraints m n .store)
    · rw [if_neg hp, if_neg hp]
      exact hok (Grew.refl b)
  | getElementPtr base =>
    unfold visitGetElementPtrInst
    dsimp only
    by_cases hne : P.canonicalize base ≠ P.canonicalize I
    · rw [if_pos hne, if_pos hne]
      exact hok (Grew.addEdge b C _ _ fun m n b => (Grew.refl b).addConstraints n m .offset)
    · rw [if_neg hne, if_neg hne]
      exact hok (Grew.refl b)
  | phi incoming =>
    unfold visitPHINode
    dsimp only
    by_cases hp : P.isPointer I = true
    · rw [if_pos hp, if_pos hp]
      exact hok (Grew.copies b C I _)
    · rw [if_neg hp, if_neg hp]
      exact hok (Grew.refl b)
  | select t f =>
    unfold visitSelectInst
    dsimp only
    by_cases hp : P.isPointer I = true
    · rw [if_pos hp, if_pos hp]
      exact hok (Grew.copies b C I [t, f])
    · rw [if_neg hp, if_neg hp]
      exact hok (Grew.refl b)
  | call cs =>
    unfold visitCallSite
    dsimp only
    by_cases hp : P.isPointer I = true
    · rw [if_pos hp, if_pos hp]
      by_cases hc : P.canonicalize I ≠ I
      · rw [if_pos hc, if_pos hc]
        exact hok (Grew.refl b)
      · rw [if_neg hc, if_neg hc]
        have h := Grew.copies (P := P) (T := T) b C I []
        exact hok h
    · rw [if_neg hp, if_neg hp]
      exact hok (Grew.refl b)
  | memcpy source dest cs =>
    exact hok (Grew.addEdge b C source dest fun _ _ b => Grew.refl b)
  | ret value =>
    cases value with
    | none => exact hok (Grew.refl b)
    | some V =>
      unfold visitReturnInst
      dsimp only
      by_cases hp : P.isPointer V = true
      · rw [if_pos hp]
        unfold getPtrNode getRetNode
        cases hget : getPtrNodeOrNull P T b C V with
        | none => exact ⟨fun h => (by cases (h hp).1), fun b' hb' => (by cases hb')⟩
        | some n =>
          cases hret : b.retPtrMap (C, F) with
          | none => exact ⟨fun h => (by cases (h hp).2), fun b' hb' => (by cases hb')⟩
          | some m =>
            refine ⟨fun _ => ⟨_, rfl⟩, fun b' hb' => ⟨fun _ => ⟨rfl, rfl⟩, ?_⟩⟩
            cases hb'
            exact (Grew.refl b).addConstraints n m .copy
      · rw [if_neg hp]
        refine ⟨fun _ => ⟨b, rfl⟩, fun b' hb' => ⟨fun h => absurd h hp, ?_⟩⟩
        cases hb'
        exact Grew.refl b
  | extractValue =>
    unfold visitExtractValueInst
    dsimp only
    by_cases hp : P.isPointer I = true
    · rw [if_pos hp, if_pos hp]
      exact hok (Grew.copies (P := P) (T := T) b C I [])
    · rw [if_neg hp, if_neg hp]
      exact hok (Grew.refl b)
  | other => exact hok (Grew.refl b)

/-! ## a run of visits -/

/-- when a visit succeeds after `b` grew by `K` and `A` -/
def OkAfter (P : Program Fun Val Ty) (T : CtxDomain Ctx Val) (C : Ctx) (F : Fun)
    (K A : List (Ctx × Val)) (b : Builder Ctx Fun Val) (I : Val) : Prop :=
  match P.instr I with
  | .alloca => ((C, I) ∉ b.memBlockMap ∧ (C, I) ∉ A) ∧ ¬ (b.ptrs (C, I)).isSome ∧ (C, I) ∉ K
  | .ret (some V) => P.isPointer V = true →
      (∀ k ∈ keyOf P T C V, (b.ptrs k).isSome ∨ k ∈ K) ∧ (b.retPtrMap (C, F)).isSome
  | _ => True

omit [DecidableEq Ctx] [DecidableEq Fun] in
theorem Grew.visitOk {C : Ctx} {F : Fun} {I : Val} (h : Grew K A b b') :
    VisitOk P T C F b' I ↔ OkAfter P T C F K A b I := by
  unfold VisitOk OkAfter
  cases hI : P.instr I with
  | alloca =>
    dsimp only
    rw [h.blocks, not_or, ← Option.not_isSome_iff_eq_none, h.ptrs, not_or]
  | ret value =>
    cases value with
    | none => exact Iff.rfl
    | some V =>
      dsimp only
      rw [isSome_getPtrNodeOrNull, h.rets]
      simp only [h.ptrs]
  | _ => exact Iff.rfl

omit [DecidableEq Ctx] [DecidableEq Fun] in
theorem Grew.okAfter {C : Ctx} {F : Fun} {I : Val} (h : Grew K A b b') :
    OkAfter P T C F K' A' b' I ↔ OkAfter P T C F (K ++ K') (A ++ A') b I := by
  unfold OkAfter
  cases hI : P.instr I with
  | alloca =>
    dsimp only
    rw [h.blocks, h.ptrs]
    simp only [not_or, List.mem_append]
    tauto
  | ret value =>
    cases value with
    | none => exact Iff.rfl
    | some V =>
      dsimp only
      rw [h.rets]
      simp only [h.ptrs, List.mem_append, or_assoc]
  | _ => exact Iff.rfl

/-- a run succeeds iff each visit does after those before it, and what it adds then -/
theorem run_spec (C : Ctx) (F : Fun) (l : List Val) (b : Builder Ctx Fun Val) :
    ((∃ b', l.foldlM (visit P T C F) b = .ok b') ↔ ∀ pre I post, l = pre ++ I :: post →
      OkAfter P T C F (pre.flatMap (added P T C)) (pre.flatMap (allocated P C)) b I) ∧
    ∀ b', l.foldlM (visit P T C F) b = .ok b' →
      Grew (l.flatMap (added P T C)) (l.flatMap (allocated P C)) b b' := by
  induction l generalizing b with
  | nil =>
    refine ⟨⟨fun _ pre I post h => ?_, fun _ => ⟨b, rfl⟩⟩, fun b' hb' => ?_⟩
    · cases pre <;> cases h
    · cases hb'
      exact Grew.refl b
  | cons J l ih =>
    obtain ⟨hex, hgrew⟩ := visit_spec (P := P) (T := T) C F b J
    rw [List.foldlM_cons]
    cases hv : visit P T C F b J with
    | error e =>
      refine ⟨⟨fun ⟨b', hb'⟩ => (by cases hb'), fun h => ?_⟩, fun b' hb' => (by cases hb')⟩
      have h0 := h [] J l rfl
      obtain ⟨b', hb'⟩ := hex ((Grew.refl b).visitOk.mpr h0)
      rw [hv] at hb'
      cases hb'
    | ok b1 =>
      obtain ⟨hok, hg⟩ := hgrew b1 hv
      obtain ⟨ih1, ih2⟩ := ih b1
      refine ⟨?_, fun b' hb' => hg.trans (ih2 b' hb')⟩
      show (∃ b', l.foldlM (visit P T C F) b1 = .ok b') ↔ _
      rw [ih1]
      constructor
      · intro h pre I post heq
        cases pre with
        | nil =>
          cases heq
          exact (Grew.refl b).visitOk.mp hok
        | cons J' pre =>
          cases heq
          exact hg.okAfter.mp (h pre I post rfl)
      · intro h pre I post heq
        exact hg.okAfter.mpr (h (J :: pre) I post (by rw [heq]; rfl))

/-! ## a function -/

/-- The arguments and instructions of a function are its own: different from each other, from the
globals and the two special pointers.  A pointer is only returned from a function that returns one. -/
structure LocalOk (P : Program Fun Val Ty) (F : Fun) : Prop where
  nodup : (P.args F ++ P.insts F).Nodup
  own : ∀ V ∈ P.args F ++ P.insts F,
    P.isGlobalValue V = false ∧ V ≠ P.uniValue ∧ V ≠ P.nullValue
  ret : ∀ I ∈ P.insts F, ∀ V, P.instr I = .ret (some V) → P.isPointer V = true →
    P.isPointerTy (P.sig F).ret = true

/-- nothing was made for the function in this context -/
structure Fresh (P : Program Fun Val Ty) (b : Builder Ctx Fun Val) (C : Ctx) (F : Fun) : Prop where
  ptrs : ∀ V ∈ P.args F ++ P.insts F, b.ptrs (C, V) = none
  ret : b.retPtrMap (C, F) = none
  blocks : ∀ I ∈ P.insts F, (C, I) ∉ b.memBlockMap

/-- A value has a node: from before, as an argument, as an alloca among the instructions `l`, or because
one of these asks for a node of a value that is the same pointer. -/
def HasNode (P : Program Fun Val Ty) (T : CtxDomain Ctx Val) (b : Builder Ctx Fun Val) (C : Ctx)
    (F : Fun) (l : List Val) (V : Val) : Prop :=
  (getPtrNodeOrNull P T b C V).isSome ∨
    (∃ A ∈ P.args F, P.isPointer A = true ∧ P.canonicalize V = A) ∨
    (∃ J ∈ l, P.instr J = .alloca ∧ P.canonicalize V = J) ∨
    ∃ J ∈ l, ∃ U ∈ P.asked J, P.canonicalize V = P.canonicalize U

/-- the condition on the instructions in layout order -/
structure Visitable (P : Program Fun Val Ty) (T : CtxDomain Ctx Val) (b : Builder Ctx Fun Val)
    (C : Ctx) (F : Fun) : Prop where
  /-- no instruction asks for the node of an alloca that comes later -/
  create : ∀ pre I post, P.insts F = pre ++ I :: post → P.instr I = .alloca →
    ∀ J ∈ pre, ∀ V ∈ P.asked J, P.canonicalize V ≠ I
  /-- what is returned has a node by then -/
  get : ∀ pre I post, P.insts F = pre ++ I :: post → ∀ V, P.instr I = .ret (some V) →
    P.isPointer V = true → HasNode P T b C F pre V
  /-- what calls and returns need has a node in the end -/
  after : ∀ I ∈ P.insts F, ∀ V ∈ P.needed I, HasNode P T b C F (P.insts F) V

variable {C : Ctx} {F : Fun}

omit [DecidableEq Ctx] [DecidableEq Fun] in
theorem keyOf_own {V I : Val} (hI : P.isGlobalValue I = false ∧ I ≠ P.uniValue ∧ I ≠ P.nullValue) :
    keyOf P T C V = some (C, I) ↔ P.canonicalize V = I := by
  unfold keyOf ctxOf
  constructor
  · intro h
    split at h
    · cases h
    · exact congrArg Prod.snd (Option.some.inj h)
  · intro h
    rw [h, if_neg (not_or.mpr hI.2), hI.1]
    rfl

omit [DecidableEq Ctx] [DecidableEq Fun] in
theorem keyOf_congr {V U : Val} {k : Ctx × Val} (hV : keyOf P T C V = some k) :
    keyOf P T C U = some k ↔ P.canonicalize V = P.canonicalize U := by
  unfold keyOf at hV ⊢
  split at hV
  · cases hV
  · cases hV
    constructor
    · intro h
      split at h
      · cases h
      · exact (congrArg Prod.snd (Option.some.inj h)).symm
    · intro h
      rw [← h]
      rename_i hs
      rw [if_neg hs]

omit [DecidableEq Ctx] in
theorem mem_added {J : Val} {k : Ctx × Val} :
    k ∈ added P T C J ↔ (P.instr J = .alloca ∧ k = (C, J)) ∨
      ∃ U ∈ P.asked J, keyOf P T C U = some k := by
  unfold added
  rw [List.mem_append, List.mem_filterMap]
  refine or_congr_left ?_
  split
  · rename_i h
    simp [h]
  · rename_i h
    simp [h]

/-- the state before the instructions are visited -/
structure Ready (P : Program Fun Val Ty) (C : Ctx) (F : Fun) (b b1 : Builder Ctx Fun Val) : Prop where
  ptrs : ∀ k, (b1.ptrs k).isSome ↔ (b.ptrs k).isSome ∨
    ∃ A ∈ P.args F, P.isPointer A = true ∧ k = (C, A)
  ret : P.isPointerTy (P.sig F).ret = true → (b1.retPtrMap (C, F)).isSome
  blocks : ∀ s, s ∈ b1.memBlockMap ↔ s ∈ b.memBlockMap

omit [DecidableEq Ctx] in
theorem Ready.hasNode (hwf : LocalOk P F) {b1 : Builder Ctx Fun Val} (h : Ready P C F b b1)
    (l : List Val) (hl : ∀ J ∈ l, J ∈ P.insts F) (V : Val) :
    (∀ k ∈ keyOf P T C V, (b1.ptrs k).isSome ∨ k ∈ l.flatMap (added P T C)) ↔
      HasNode P T b C F l V := by
  unfold HasNode
  rw [isSome_getPtrNodeOrNull]
  cases hk : keyOf P T C V with
  | none => simp
  | some k =>
    have hown : ∀ {A : Val}, A ∈ P.args F ++ P.insts F → (k = (C, A) ↔ P.canonicalize V = A) := by
      intro A hA
      rw [← keyOf_own (T := T) (C := C) (hwf.own A hA), hk]
      exact (Option.some_inj).symm
    have hadded : k ∈ l.flatMap (added P T C) ↔
        (∃ J ∈ l, P.instr J = .alloca ∧ P.canonicalize V = J) ∨
          ∃ J ∈ l, ∃ U ∈ P.asked J, P.canonicalize V = P.canonicalize U := by
      rw [List.mem_flatMap]
      constructor
      · rintro ⟨J, hJ, hmem⟩
        rcases mem_added.mp hmem with ⟨ha, heq⟩ | ⟨U, hU, heq⟩
        · exact .inl ⟨J, hJ, ha, (hown (List.mem_append_right _ (hl J hJ))).mp heq⟩
        · exact .inr ⟨J, hJ, U, hU, (keyOf_congr hk).mp heq⟩
      · rintro (⟨J, hJ, ha, heq⟩ | ⟨J, hJ, U, hU, heq⟩)
        · exact ⟨J, hJ, mem_added.mpr
            (.inl ⟨ha, (hown (List.mem_append_right _ (hl J hJ))).mpr heq⟩)⟩
        · exact ⟨J, hJ, mem_added.mpr (.inr ⟨U, hU, (keyOf_congr hk).mpr heq⟩)⟩
    have hargs : (∃ A ∈ P.args F, P.isPointer A = true ∧ k = (C, A)) ↔
        ∃ A ∈ P.args F, P.isPointer A = true ∧ P.canonicalize V = A := by
      refine exists_congr fun A => and_congr_right fun hA => and_congr_right fun _ => ?_
      exact hown (List.mem_append_left _ hA)
    simp only [Option.mem_def, Option.some.injEq, forall_eq']
    rw [h.ptrs, hadded, hargs, or_assoc]

omit [DecidableEq Fun] in
/-- the arguments are new, so their nodes are made -/
theorem arguments_spec {l : List Val} (hl : l.Nodup) (h : ∀ A ∈ l, b.ptrs (C, A) = none) :
    ∃ b', l.foldlM (initArgument P C) b = .ok b' ∧
      Grew ((l.filter P.isPointer).map (C, ·)) [] b b' := by
  induction l generalizing b with
  | nil => exact ⟨b, rfl, Grew.refl b⟩
  | cons A l ih =>
    obtain ⟨hA, hl⟩ := List.nodup_cons.mp hl
    rw [List.foldlM_cons]
    unfold initArgument
    by_cases hp : P.isPointer A = true
    · have hg := Grew.insertPtr b C A
      have hnext : ∀ A' ∈ l, (b.insertPtr C A).1.ptrs (C, A') = none := by
        intro A' hA'
        rw [← Option.not_isSome_iff_eq_none, hg.ptrs, h A' (List.mem_cons_of_mem _ hA')]
        rintro (hs | hs)
        · cases hs
        · cases List.mem_singleton.mp hs
          exact hA hA'
      obtain ⟨b', hb', hg'⟩ := ih hl hnext
      refine ⟨b', ?_, ?_⟩
      · rw [if_pos hp, createPtrNode, h A List.mem_cons_self]
        exact hb'
      · rw [List.filter_cons_of_pos hp, List.map_cons]
        exact hg.trans hg'
    · obtain ⟨b', hb', hg'⟩ := ih hl fun A' hA' => h A' (List.mem_cons_of_mem _ hA')
      refine ⟨b', ?_, ?_⟩
      · rw [if_neg hp]
        exact hb'
      · rw [List.filter_cons_of_neg hp]
        exact hg'

/-- what comes before the visits succeeds -/
theorem initFunction_ready (hwf : LocalOk P F) (hbody : P.hasBody F = true) (hb : Fresh P b C F) :
    ∃ b1, Ready P C F b b1 ∧
      initFunction P T b C F = (P.insts F).foldlM (visit P T C F) b1 := by
  have hargs : (P.args F).Nodup := hwf.nodup.of_append_left
  -- the return node
  obtain ⟨b0, hb0, hptrs, hblocks, hret⟩ : ∃ b0 : Builder Ctx Fun Val,
      initReturn P b C F = .ok b0 ∧ b0.ptrs = b.ptrs ∧ b0.memBlockMap = b.memBlockMap ∧
      (P.isPointerTy (P.sig F).ret = true → (b0.retPtrMap (C, F)).isSome) := by
    unfold initReturn
    by_cases hp : P.isPointerTy (P.sig F).ret = true
    · rw [if_pos hp, createRetNode, hb.ret]
      refine ⟨_, rfl, rfl, rfl, fun _ => ?_⟩
      simp
    · rw [if_neg hp]
      exact ⟨b, rfl, rfl, rfl, fun h => absurd h hp⟩
  obtain ⟨b1, hb1, hg⟩ := arguments_spec (P := P) (C := C) (b := b0) hargs fun A hA => by
    rw [hptrs]
    exact hb.ptrs A (List.mem_append_left _ hA)
  refine ⟨b1, ⟨fun k => ?_, fun hp => ?_, ?_⟩, ?_⟩
  · rw [hg.ptrs, hptrs, List.mem_map]
    refine or_congr_right ⟨?_, ?_⟩
    · rintro ⟨A, hA, rfl⟩
      obtain ⟨hA, hp⟩ := List.mem_filter.mp hA
      exact ⟨A, hA, hp, rfl⟩
    · rintro ⟨A, hA, hp, rfl⟩
      exact ⟨A, List.mem_filter.mpr ⟨hA, hp⟩, rfl⟩
  · rw [hg.rets]
    exact hret hp
  · intro s
    rw [hg.blocks, hblocks]
    simp
  · unfold initFunction
    rw [if_pos hbody, hb0]
    show ((P.args F).foldlM (initArgument P C) b0 >>= _) = _
    rw [hb1]
    rfl

/-- `initFunction` visits a function without an abort, and all that calls and returns need has a node
afterwards, iff the instructions in layout order meet the condition. -/
theorem initFunction_ok_iff (hwf : LocalOk P F) (hbody : P.hasBody F = true) (hb : Fresh P b C F) :
    (∃ b', initFunction P T b C F = .ok b' ∧
      ∀ I ∈ P.insts F, ∀ V ∈ P.needed I, (getPtrNodeOrNull P T b' C V).isSome) ↔
      Visitable P T b C F := by
  obtain ⟨b1, hready, hinit⟩ := initFunction_ready (P := P) (T := T) hwf hbody hb
  obtain ⟨hrun, hgrew⟩ := run_spec (P := P) (T := T) C F (P.insts F) b1
  have hinsts : (P.insts F).Nodup := hwf.nodup.of_append_right
  have hmem : ∀ {pre I post}, P.insts F = pre ++ I :: post → I ∈ P.insts F ∧ I ∉ pre ∧
      ∀ J ∈ pre, J ∈ P.insts F := by
    intro pre I post h
    rw [h] at hinsts ⊢
    refine ⟨by simp, ?_, fun J hJ => List.mem_append_left _ hJ⟩
    have := (List.nodup_append.mp hinsts).2.2
    exact fun hI => this I hI I List.mem_cons_self rfl
  -- the visits succeed iff the first two conditions hold
  have hvisits : (∀ pre I post, P.insts F = pre ++ I :: post → OkAfter P T C F
        (pre.flatMap (added P T C)) (pre.flatMap (allocated P C)) b1 I) ↔
      (∀ pre I post, P.insts F = pre ++ I :: post → P.instr I = .alloca →
        ∀ J ∈ pre, ∀ V ∈ P.asked J, P.canonicalize V ≠ I) ∧
      ∀ pre I post, P.insts F = pre ++ I :: post → ∀ V, P.instr I = .ret (some V) →
        P.isPointer V = true → HasNode P T b C F pre V := by
    constructor
    · intro h
      refine ⟨fun pre I post heq ha J hJ V hV hc => ?_, fun pre I post heq V hret hp => ?_⟩
      · have hok := h pre I post heq
        rw [OkAfter, ha] at hok
        refine hok.2.2 (List.mem_flatMap.mpr ⟨J, hJ, mem_added.mpr (.inr ⟨V, hV, ?_⟩)⟩)
        exact (keyOf_own (hwf.own I (List.mem_append_right _ (hmem heq).1))).mpr hc
      · have hok := h pre I post heq
        rw [OkAfter, hret] at hok
        exact (hready.hasNode hwf pre (hmem heq).2.2 V).mp (hok hp).1
    · rintro ⟨hcreate, hget⟩ pre I post heq
      obtain ⟨hI, hnot, hpre⟩ := hmem heq
      unfold OkAfter
      cases hinstr : P.instr I with
      | alloca =>
        have hown := hwf.own I (List.mem_append_right _ hI)
        refine ⟨⟨?_, ?_⟩, ?_, ?_⟩
        · rw [hready.blocks]
          exact hb.blocks I hI
        · rw [List.mem_flatMap]
          rintro ⟨J, hJ, hm⟩
          unfold allocated at hm
          split at hm
          · cases List.mem_singleton.mp hm
            exact hnot hJ
          · cases hm
        · rw [hready.ptrs, hb.ptrs I (List.mem_append_right _ hI)]
          rintro (hs | ⟨A, hA, _, hk⟩)
          · cases hs
          · cases hk
            exact (List.nodup_append.mp hwf.nodup).2.2 I hA I hI rfl
        · rw [List.mem_flatMap]
          rintro ⟨J, hJ, hm⟩
          rcases mem_added.mp hm with ⟨_, hk⟩ | ⟨U, hU, hk⟩
          · cases hk
            exact hnot hJ
          · exact hcreate pre I post heq hinstr J hJ U hU ((keyOf_own hown).mp hk)
      | ret value =>
        cases value with
        | none => trivial
        | some V =>
          intro hp
          exact ⟨(hready.hasNode hwf pre hpre V).mpr (hget pre I post heq V hinstr hp),
            hready.ret (hwf.ret I hI V hinstr hp)⟩
      | _ => trivial
  have hafter : ∀ b', (P.insts F).foldlM (visit P T C F) b1 = .ok b' → ∀ V,
      (getPtrNodeOrNull P T b' C V).isSome ↔ HasNode P T b C F (P.insts F) V := by
    intro b' hb' V
    rw [isSome_getPtrNodeOrNull, ← hready.hasNode hwf (P.insts F) (fun _ h => h) V]
    simp only [(hgrew b' hb').ptrs]
  rw [hinit]
  constructor
  · rintro ⟨b', hb', hneeded⟩
    obtain ⟨hcreate, hget⟩ := hvisits.mp (hrun.mp ⟨b', hb'⟩)
    exact ⟨hcreate, hget, fun I hI V hV => (hafter b' hb' V).mp (hneeded I hI V hV)⟩
  · intro h
    obtain ⟨b', hb'⟩ := hrun.mpr (hvisits.mpr ⟨h.create, h.get⟩)
    exact ⟨b', hb', fun I hI V hV => (hafter b' hb' V).mpr (h.after I hI V hV)⟩

/-! ## a pointer that runs through a loop -/

/-- The header of a loop (block 1) takes its pointer 12 from the alloca 10 of the entry block or from the
alloca 13 of the loop's body (block 2). -/
def loopProgram : Program Unit Nat Unit where
  globals := []
  functions := [()]
  value _ := 0
  asFunction V := if V = 0 then some () else none
  isGlobalValue V := V = 0
  args _ := []
  blocks _ := [⟨[10, 11], [1]⟩, ⟨[12, 14], [2, 3]⟩, ⟨[13, 15], [1]⟩, ⟨[16], []⟩]
  instr V :=
    if V = 10 ∨ V = 13 then .alloca
    else if V = 12 then .phi [(10, 0), (13, 2)]
    else if V = 16 then .ret none else .other
  sig _ := ⟨(), [], false⟩
  isDeclaration _ := false
  isIntrinsic _ := false
  type _ := ()
  isPointerTy _ := true
  fnPtr _ := ()
  canonicalize V := V
  nullValue := 1
  uniValue := 2

def loopCtx : CtxDomain Unit Nat := ⟨(), (), fun _ _ => ()⟩

theorem loopProgram_operands (I : Nat) : Program.operands (loopProgram.instr I) = [] := by
  unfold loopProgram
  dsimp only
  split
  · rfl
  · split
    · rfl
    · split <;> rfl

theorem loopProgram_dominates (d : Nat) : loopProgram.Dominates () d d := by
  intro h
  cases h with
  | entry h => exact h rfl
  | step _ _ _ h => exact h rfl

theorem loopProgram_ssa : loopProgram.Ssa () where
  use j B hB pre I post hI V hV := by
    rw [loopProgram_operands] at hV
    cases hV
  phi j B hB I hI incoming hphi p hp hmem := by
    have hinc : incoming = [(10, 0), (13, 2)] := by
      unfold loopProgram at hphi
      dsimp only at hphi
      split at hphi
      · cases hphi
      · split at hphi
        · cases hphi
          rfl
        · split at hphi <;> cases hphi
    subst hinc
    rcases List.mem_cons.mp hp with rfl | hp
    · exact ⟨0, _, rfl, List.mem_cons_self, loopProgram_dominates 0⟩
    · rw [List.mem_singleton] at hp
      subst hp
      exact ⟨2, _, rfl, List.mem_cons_self, loopProgram_dominates 2⟩

theorem loopProgram_localOk : LocalOk loopProgram () where
  nodup := by decide
  own := by decide
  ret I _ V h _ := rfl

theorem loopProgram_fresh : Fresh loopProgram ({} : Builder Unit Unit Nat) () () where
  ptrs _ _ := rfl
  ret := rfl
  blocks _ _ h := by cases h

theorem initFunction_ok_iff_loop :
    (∃ b', initFunction loopProgram loopCtx ({} : Builder Unit Unit Nat) () () = .ok b' ∧
      ∀ I ∈ loopProgram.insts (), ∀ V ∈ loopProgram.needed I,
        (getPtrNodeOrNull loopProgram loopCtx b' () V).isSome) ↔
      Visitable loopProgram loopCtx ({} : Builder Unit Unit Nat) () () :=
  initFunction_ok_iff loopProgram_localOk rfl loopProgram_fresh

/-- The function is well formed and its blocks are in an order in which dominating blocks come first, but
the `phi` makes the node of the alloca that comes after it. -/
theorem phi_before_alloca :
    loopProgram.Ssa () ∧ LocalOk loopProgram () ∧
      Fresh loopProgram ({} : Builder Unit Unit Nat) () () ∧
      initFunction loopProgram loopCtx ({} : Builder Unit Unit Nat) () () = .error .recreate :=
  ⟨loopProgram_ssa, loopProgram_localOk, loopProgram_fresh, rfl⟩

end Builder

end AserPTA
