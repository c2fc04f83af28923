import AserPTA.Program.Rules
import AserPTA.Program.Frame

/-!
# What the builder adds

Every function of the builder is a sequence of additions: nodes of pointers, of returned values and of
memory blocks, and constraints between the nodes of two cells.

* `Grows`          what no addition takes away;
* `NodeOf`, `Has`  the node of a cell, and a constraint between two cells that the graph has;
* `Addition A`     one addition, whose constraint is in `A`;
* `Legal`          what the invariant of the builder asks of the constraints in `A`;
* `Settled`          that invariant, with the two special pointers in the set (`Settled.additions`).
-/

namespace AserPTA

open ConsGraph AserPTA.Core Loop Relation

variable {Ctx Fun Val Ty : Type}

namespace Builder

variable {P : Program Fun Val Ty} {T : CtxDomain Ctx Val} {b b' b'' : Builder Ctx Fun Val}

/-! ## what grows -/

/-- the frame, with the return nodes and the edges that were there -/
structure Grows (b b' : Builder Ctx Fun Val) : Prop extends frame : Frame b b' where
  rets : ∀ k n, b.retPtrMap k = some n → b'.retPtrMap k = some n
  succ : ∀ k u v, u < b.core.graph.nodeNum → v ∈ b.core.graph.succ k u → v ∈ b'.core.graph.succ k u
  handled : b'.core.handledGEPMap = b.core.handledGEPMap

namespace Grows

theorem refl (b : Builder Ctx Fun Val) : Grows b b :=
  ⟨.refl b, fun _ _ h => h, fun _ _ _ _ h => h, rfl⟩

theorem trans (h : Grows b b') (h' : Grows b' b'') : Grows b b'' where
  frame := h.frame.trans h'.frame
  rets k n hk := h'.rets k n (h.rets k n hk)
  succ k u v hu hv := h'.succ k u v (hu.trans_le h.le) (h.succ k u v hu hv)
  handled := h'.handled.trans h.handled

/-- the constraints that the graph has it keeps -/
theorem covers (h : Grows b b') (hb : b.core.graph.Inv) (hb' : b'.core.graph.Inv) {k : Constraints}
    {u v : NodeID} (hc : b.core.graph.Covers k u v) : b'.core.graph.Covers k u v := by
  unfold Covers at hc ⊢
  rw [h.getSuperNode hb hb', h.getSuperNode hb hb']
  rcases hc with hc | hc
  · exact .inl (h.succ k _ _ (hb.edge_lt _ _ _ hc).1 hc)
  · exact .inr hc

end Grows

theorem succ_addCGNode {Obj : Type} (c : Core Obj Val) (kind : NodeKind Obj Val) {k : Constraints}
    {u v : NodeID} (hu : u < c.graph.nodeNum) (h : v ∈ c.graph.succ k u) :
    v ∈ (c.addCGNode kind).graph.succ k u := by
  cases kind with
  | ptrNode p =>
    show v ∈ (c.graph.addNewNode (.ptrNode p)).succ k u
    rw [succ_addNewNode, if_neg hu.ne]
    exact h
  | objNode o =>
    refine (mem_succ_insertConstraint ..).mpr (.inl ?_)
    have hne : u ≠ c.graph.nodeNum + 1 := (Nat.lt_succ_of_lt hu).ne
    rw [succ_addNewNode, nodeNum_addNewNode, if_neg hne, succ_addNewNode, if_neg hu.ne]
    exact h

theorem grows_respected [DecidableEq Ctx] [DecidableEq Fun] [DecidableEq Val]
    (P : Program Fun Val Ty) :
    Respected P (Grows : Builder Ctx Fun Val → Builder Ctx Fun Val → Prop) where
  refl := Grows.refl
  trans := Grows.trans
  insertPtr b C V hfree :=
    ⟨(frame_respected P).insertPtr b C V hfree, fun _ _ h => h,
      fun _ _ _ hu h => succ_addCGNode b.core _ hu h, rfl⟩
  createRetNode b C F b' hr := by
    have hf := (frame_respected P).createRetNode b C F b' hr
    unfold Builder.createRetNode at hr
    split at hr
    · cases hr
    · rename_i hfree
      cases hr
      refine ⟨hf, fun k n hk => ?_, fun _ _ _ hu h => succ_addCGNode b.core _ hu h, rfl⟩
      show Function.update b.retPtrMap (C, F) _ k = some n
      rw [Function.update_of_ne]
      · exact hk
      · rintro rfl
        rw [hfree] at hk
        cases hk
  allocate b C V r hr := by
    have hf := (frame_respected P).allocate b C V r hr
    unfold Builder.allocate at hr
    split at hr
    · cases hr
    · cases hr
      exact ⟨hf, fun _ _ h => h, fun _ _ _ hu h => succ_addCGNode b.core _ hu h, rfl⟩
  addConstraints b src dst k := by
    refine ⟨(frame_respected P).addConstraints b src dst k, fun _ _ h => h, fun k' u v _ h => ?_, rfl⟩
    show v ∈ (b.core.graph.addConstraints src dst k).1.succ k' u
    rw [addConstraints_fst]
    exact (mem_succ_insertConstraint ..).mpr (.inl h)

theorem Grows.initIndirectCall [DecidableEq Val] {C : Ctx} {V : Val} {id : CallNodeID}
    (hr : Builder.initIndirectCall P T b C V id = .ok b') : Grows b b' := by
  have hf := Frame.initIndirectCall hr
  obtain ⟨n, -, hr⟩ := bind_ok hr
  cases hr
  refine ⟨hf, fun _ _ h => h, fun k u v _ hv => ?_, rfl⟩
  obtain ⟨-, -, hsucc, -⟩ := maps_setIndirectCallNode (g := b.core.graph) n id
  show v ∈ (b.core.graph.setIndirectCallNode n id).succ k u
  rw [hsucc]
  exact hv

/-! ## the nodes of cells -/

/-- `n` is the node of the cell -/
def NodeOf (b : Builder Ctx Fun Val) : Cell Ctx Fun Val → NodeID → Prop
  | .ptr C V, n => b.ptrs (C, V) = some n
  | .ret C F, n => b.retPtrMap (C, F) = some n
  | .obj o, n => n < b.core.graph.nodeNum ∧ b.core.graph.kind n = .objNode o

/-- the graph has the constraint between the nodes of the two cells -/
def Has (b : Builder Ctx Fun Val) (k : Constraints) (x y : Cell Ctx Fun Val) : Prop :=
  ∃ m n, b.NodeOf x m ∧ b.NodeOf y n ∧ b.core.graph.Covers k.stored (k.source m) n

theorem NodeOf.grows (h : Grows b b') {x : Cell Ctx Fun Val} {n : NodeID} (hx : b.NodeOf x n) :
    b'.NodeOf x n := by
  cases x with
  | ptr C V => exact h.ptrs _ n hx
  | ret C F => exact h.rets _ n hx
  | obj o => exact ⟨hx.1.trans_le h.le, (h.kind n hx.1).trans hx.2⟩

theorem NodeOf.lt (h : Nodes P b) {x : Cell Ctx Fun Val} {n : NodeID} (hx : b.NodeOf x n) :
    n < b.core.graph.nodeNum := by
  cases x with
  | ptr C V => exact (h.ptrs C V n hx).1
  | ret C F => exact (h.rets C F n hx).1
  | obj o => exact hx.1

/-- no cell is an address node -/
theorem NodeOf.not_isAddr (h : Nodes P b) {x : Cell Ctx Fun Val} {n : NodeID} (hx : b.NodeOf x n) :
    ¬ b.core.graph.IsAddr n := by
  cases x with
  | ptr C V =>
    obtain ⟨hn, hk⟩ := h.ptrs C V n hx
    exact HoldsPtr.not_isAddr h.shape ⟨hn, C, hk⟩
  | ret C F => exact (h.rets C F n hx).not_isAddr h.shape
  | obj o =>
    intro ha
    obtain ⟨-, hk⟩ := hx
    rw [(h.shape.kind_of_isAddr ha).1] at hk
    cases hk

/-- the nodes of pointers are found -/
theorem NodeOf.gepNode (h : Nodes P b) (hP : P.Canonical) {x : Cell Ctx Fun Val} {n : NodeID}
    (hx : b.NodeOf x n) :
    GepNode P b.core.graph n ↔ ∃ C V, x = .ptr C V ∧ (P.instr V).isGEP = true := by
  cases x with
  | ptr C V =>
    obtain ⟨hn, hk⟩ := h.ptrs C V n hx
    constructor
    · rintro ⟨I, hI, hgep⟩
      rw [hI.inj ⟨hn, C, hk⟩] at hgep
      exact ⟨C, V, rfl, hgep⟩
    · rintro ⟨C', V', he, hgep⟩
      cases he
      exact ⟨V, ⟨hn, C, hk⟩, hgep⟩
  | ret C F =>
    constructor
    · rintro ⟨I, hI, hgep⟩
      rw [hI.inj (h.rets C F n hx), hP.function F] at hgep
      cases hgep
    · rintro ⟨C', V', he, -⟩
      cases he
  | obj o =>
    constructor
    · rintro ⟨I, ⟨-, C, hk⟩, -⟩
      obtain ⟨-, ho⟩ := hx
      rw [ho] at hk
      cases hk
    · rintro ⟨C', V', he, -⟩
      cases he

theorem Has.grows (h : Grows b b') (hb : b.core.graph.Inv) (hb' : b'.core.graph.Inv)
    {k : Constraints} {x y : Cell Ctx Fun Val} (hc : b.Has k x y) : b'.Has k x y := by
  obtain ⟨m, n, hx, hy, hcov⟩ := hc
  exact ⟨m, n, hx.grows h, hy.grows h, h.covers hb hb' hcov⟩

/-! ## additions -/

/-- The kinds of cells that a constraint relates.  The target of a copy or a load is no `getelementptr`,
and that of an offset is one. -/
structure Legal [DecidableEq Val] (P : Program Fun Val Ty) (T : CtxDomain Ctx Val)
    (A : Constraints → Cell Ctx Fun Val → Cell Ctx Fun Val → Prop) : Prop where
  addrOf : ∀ x y, A .addrOf x y → ∃ o, x = .obj o
  fed : ∀ k x C V, k = .copy ∨ k = .load → A k x (.ptr C V) → (P.instr V).isGEP = false
  offset : ∀ x y, A .offset x y → ∃ C I base, y = .ptr C I ∧ P.instr I = .getElementPtr base ∧
    x = cell P T C (P.canonicalize base)

/-- the special pointers are in the set as well -/
structure Settled [DecidableEq Val] (P : Program Fun Val Ty) (T : CtxDomain Ctx Val)
    (b : Builder Ctx Fun Val) : Prop extends placed : Placed P T b where
  null_ptr : b.ptrs (T.getGlobalCtx, P.nullValue) = some b.nullPtrNode
  uni_ptr : b.ptrs (T.getGlobalCtx, P.uniValue) = some b.uniPtrNode

variable [DecidableEq Ctx] [DecidableEq Fun] [DecidableEq Val]

inductive Addition (P : Program Fun Val Ty) (T : CtxDomain Ctx Val)
    (A : Constraints → Cell Ctx Fun Val → Cell Ctx Fun Val → Prop) :
    Builder Ctx Fun Val → Builder Ctx Fun Val → Prop where
  | ptr {b : Builder Ctx Fun Val} (C : Ctx) (V : Val) : b.ptrs (C, V) = none →
      Addition P T A b (b.insertPtr C V).1
  | ret {b b' : Builder Ctx Fun Val} (C : Ctx) (F : Fun) : createRetNode P b C F = .ok b' →
      Addition P T A b b'
  | alloc {b : Builder Ctx Fun Val} {r : Builder Ctx Fun Val × NodeID} (C : Ctx) (V : Val) :
      b.allocate C V = .ok r → Addition P T A b r.1
  | field {b : Builder Ctx Fun Val} (V : Val) (pOffset : Nat) : (T.getGlobalCtx, V) ∈ b.memBlockMap →
      (∀ n < b.core.graph.nodeNum, b.core.graph.kind n ≠ .objNode ⟨T.getGlobalCtx, V, pOffset⟩) →
      Addition P T A b { b with core := b.core.addCGNode (.objNode ⟨T.getGlobalCtx, V, pOffset⟩) }
  | cons {b : Builder Ctx Fun Val} {k : Constraints} {x y : Cell Ctx Fun Val} {m n : NodeID} :
      A k x y → b.NodeOf x m → b.NodeOf y n → Addition P T A b (b.addConstraints m n k)

abbrev Additions (P : Program Fun Val Ty) (T : CtxDomain Ctx Val)
    (A : Constraints → Cell Ctx Fun Val → Cell Ctx Fun Val → Prop) :
    Builder Ctx Fun Val → Builder Ctx Fun Val → Prop := ReflTransGen (Addition P T A)

variable {A A' : Constraints → Cell Ctx Fun Val → Cell Ctx Fun Val → Prop}

theorem Addition.mono (hA : ∀ k x y, A k x y → A' k x y) (h : Addition P T A b b') :
    Addition P T A' b b' := by
  cases h with
  | ptr C V hfree => exact .ptr C V hfree
  | ret C F hr => exact .ret C F hr
  | alloc C V hr => exact .alloc C V hr
  | field V pOffset hblock hfree => exact .field V pOffset hblock hfree
  | cons h hm hn => exact .cons (hA _ _ _ h) hm hn

theorem Additions.mono (hA : ∀ k x y, A k x y → A' k x y) (h : Additions P T A b b') :
    Additions P T A' b b' := by
  induction h with
  | refl => exact .refl
  | tail _ hs ih => exact ih.tail (hs.mono hA)

theorem Addition.grows (h : Addition P T A b b') : Grows b b' := by
  cases h with
  | ptr C V hfree => exact (grows_respected P).insertPtr b C V hfree
  | ret C F hr => exact (grows_respected P).createRetNode b C F b' hr
  | alloc C V hr => exact (grows_respected P).allocate b C V _ hr
  | field V pOffset _ _ =>
    refine ⟨⟨.addCGNode _, fun _ _ h => h, fun _ _ h _ => h, rfl, rfl⟩, fun _ _ h => h,
      fun k u v hu h => succ_addCGNode b.core _ hu h, rfl⟩
  | cons _ _ _ => exact (grows_respected P).addConstraints b _ _ _

theorem Additions.grows (h : Additions P T A b b') : Grows b b' := by
  induction h with
  | refl => exact .refl b
  | tail _ hs ih => exact ih.trans hs.grows

namespace Settled

omit [DecidableEq Ctx] [DecidableEq Fun] in
/-- a pointer is found at its cell -/
theorem lookup (h : Settled P T b) {C : Ctx} {V : Val} {n : NodeID} :
    getPtrNodeOrNull P T b C V = some n ↔ b.NodeOf (cell P T C V) n := by
  unfold getPtrNodeOrNull specialPtr cell
  dsimp only
  by_cases hu : P.canonicalize V = P.uniValue
  · rw [if_pos hu, if_pos (.inl hu)]
    show some b.uniPtrNode = some n ↔ b.ptrs (T.getGlobalCtx, P.canonicalize V) = some n
    rw [hu, h.uni_ptr]
  · rw [if_neg hu]
    by_cases hn : P.canonicalize V = P.nullValue
    · rw [if_pos hn, if_pos (.inr hn)]
      show some b.nullPtrNode = some n ↔ b.ptrs (T.getGlobalCtx, P.canonicalize V) = some n
      rw [hn, h.null_ptr]
    · rw [if_neg hn, if_neg (by rintro (h1 | h1) <;> contradiction)]
      rfl

omit [DecidableEq Ctx] [DecidableEq Fun] in
theorem getPtrNode (h : Settled P T b) {C : Ctx} {V : Val} {n : NodeID}
    (hr : Builder.getPtrNode P T b C V = .ok n) : b.NodeOf (cell P T C V) n :=
  h.lookup.mp (getPtrNode_ok hr)

theorem addition (hP : P.Canonical) (hA : Legal P T A) (h : Settled P T b)
    (hs : Addition P T A b b') : Settled P T b' := by
  have hg := hs.grows
  have hplaced : Placed P T b' := by
    cases hs with
    | ptr C V hfree => exact (h.placed.insertPtr hfree).1
    | ret C F hr => exact (h.placed.createRetNode hr).1
    | alloc C V hr => exact (h.placed.allocate hr).1
    | field V pOffset hblock hfree => exact h.placed.globalStep (.field V pOffset hblock hfree)
    | @cons k x y m n hcons hm hn =>
      have hnodes := h.placed.toNodes
      refine (h.placed.addConstraints (hm.lt hnodes) (hn.lt hnodes) (hn.not_isAddr hnodes)
        (fun hk => ?_) (fun hk hgep => ?_) (fun hk => ?_)).1
      · subst hk
        obtain ⟨o, rfl⟩ := hA.addrOf _ _ hcons
        exact ⟨o, hm.2⟩
      · obtain ⟨C, V, rfl, hV⟩ := (hn.gepNode hnodes hP).mp hgep
        rw [hA.fed k x C V hk hcons] at hV
        cases hV
      · subst hk
        obtain ⟨C, I, base, rfl, hI, rfl⟩ := hA.offset _ _ hcons
        have hgep : (P.instr I).isGEP = true := by
          rw [hI]
          rfl
        refine ⟨(hn.gepNode hnodes hP).mpr ⟨C, I, rfl, hgep⟩, C, I, base, ?_, hI, h.lookup.mpr hm⟩
        exact (hnodes.ptrs C I n hn).2
  refine ⟨hplaced, ?_, ?_⟩
  · rw [hg.null]
    exact hg.ptrs _ _ h.null_ptr
  · rw [hg.uni]
    exact hg.ptrs _ _ h.uni_ptr

theorem additions (hP : P.Canonical) (hA : Legal P T A) (h : Settled P T b)
    (hs : Additions P T A b b') : Settled P T b' := by
  induction hs with
  | refl => exact h
  | tail _ hs ih => exact ih.addition hP hA hs

/-- a constraint that the graph has stays -/
theorem has (hP : P.Canonical) (hA : Legal P T A) (h : Settled P T b) (hs : Additions P T A b b')
    {k : Constraints} {x y : Cell Ctx Fun Val} (hc : b.Has k x y) : b'.Has k x y :=
  hc.grows hs.grows h.shape.inv (h.additions hP hA hs).shape.inv

end Settled

end Builder

end AserPTA
