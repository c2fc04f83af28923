import AserPTA.Program.OffsetTargets

/-!
# What the builder leaves alone

The builder adds nodes, edges and call nodes.  It does not touch the points-to sets and the
representatives of the nodes that are there, and what it adds points to nothing yet.

* `Core.Frame`, `Builder.Frame`   the frame: what is as it was, and how new nodes look;
* `Respected`     a relation that holds where a node or an edge is added;
* `Respected.visit`, `Respected.initFunction`, `Respected.processCallSite`
                  then it holds where a function of the builder returns;
* `frame_respected`, `Frame.initIndirectCall`   all of them keep the frame;
* `Unsolved`         the state before the first run of a solver.
-/

namespace AserPTA

open ConsGraph AserPTA.Core Loop

variable {Ctx Fun Val Ty : Type}

namespace Core

variable {Obj Val : Type} {c c' c'' : Core Obj Val}

/-- nodes are added, and the old ones keep all but their edges -/
structure Frame (c c' : Core Obj Val) : Prop where
  le : c.graph.nodeNum ≤ c'.graph.nodeNum
  kind : ∀ n < c.graph.nodeNum, c'.graph.kind n = c.graph.kind n
  superOf : ∀ n < c.graph.nodeNum, c'.graph.superOf n = c.graph.superOf n
  indirect : ∀ n < c.graph.nodeNum, c.graph.indirect n ⊆ c'.graph.indirect n
  pts : ∀ n < c.graph.nodeNum, c'.pts n = c.pts n
  noted : c'.updatedFunPtrs = c.updatedFunPtrs
  superOf_new : ∀ n, c.graph.nodeNum ≤ n → n < c'.graph.nodeNum → c'.graph.superOf n = none
  pts_new : ∀ n, c.graph.nodeNum ≤ n → n < c'.graph.nodeNum → ∀ p,
    c'.graph.kind n = .ptrNode (some p) → c'.pts n = ∅

namespace Frame

theorem refl (c : Core Obj Val) : Frame c c :=
  ⟨le_rfl, fun _ _ => rfl, fun _ _ => rfl, fun _ _ => Finset.Subset.refl _, fun _ _ => rfl, rfl,
    fun _ hn hn' => absurd hn' (Nat.not_lt_of_le hn),
    fun _ hn hn' => absurd hn' (Nat.not_lt_of_le hn)⟩

theorem trans (h : Frame c c') (h' : Frame c' c'') : Frame c c'' := by
  refine ⟨h.le.trans h'.le, fun n hn => ?_, fun n hn => ?_, fun n hn => ?_, fun n hn => ?_,
    h'.noted.trans h.noted, fun n hn hn' => ?_, fun n hn hn' p hp => ?_⟩
  · exact (h'.kind n (hn.trans_le h.le)).trans (h.kind n hn)
  · exact (h'.superOf n (hn.trans_le h.le)).trans (h.superOf n hn)
  · exact (h.indirect n hn).trans (h'.indirect n (hn.trans_le h.le))
  · exact (h'.pts n (hn.trans_le h.le)).trans (h.pts n hn)
  · rcases Nat.lt_or_ge n c'.graph.nodeNum with hlt | hge
    · rw [h'.superOf n hlt]
      exact h.superOf_new n hn hlt
    · exact h'.superOf_new n hge hn'
  · rcases Nat.lt_or_ge n c'.graph.nodeNum with hlt | hge
    · rw [h'.pts n hlt]
      rw [h'.kind n hlt] at hp
      exact h.pts_new n hn hlt p hp
    · exact h'.pts_new n hge hn' p hp

/-- only edges change -/
theorem sameNodes {g : ConsGraph Obj Val} (h : SameNodes c.graph g) :
    Frame c { c with graph := g } := by
  refine ⟨h.nodeNum.ge, fun n _ => h.kind n, fun n _ => h.superOf n, fun n _ => (h.indirect n).ge,
    fun _ _ => rfl, rfl, fun n hn hn' => ?_, fun n hn hn' => ?_⟩
  · exact absurd (h.nodeNum ▸ hn') (Nat.not_lt_of_le hn)
  · exact absurd (h.nodeNum ▸ hn') (Nat.not_lt_of_le hn)

theorem addConstraints (src dst : NodeID) (k : Constraints) :
    Frame c { c with graph := (c.graph.addConstraints src dst k).1 } := by
  rw [addConstraints_fst]
  exact sameNodes (insertConstraint_sameNodes _ _ _)

theorem setIndirectCallNode (n : NodeID) (id : CallNodeID) :
    Frame c { c with graph := c.graph.setIndirectCallNode n id } := by
  obtain ⟨hk, hs, -, -⟩ := maps_setIndirectCallNode (g := c.graph) n id
  refine ⟨le_rfl, fun n _ => congrFun hk n, fun n _ => congrFun hs n, fun m _ => ?_,
    fun _ _ => rfl, rfl, fun n hn hn' => absurd hn' (Nat.not_lt_of_le hn),
    fun n hn hn' => absurd hn' (Nat.not_lt_of_le hn)⟩
  show c.graph.indirect m ⊆ (c.graph.setIndirectCallNode n id).indirect m
  rw [indirect_setIndirectCallNode]
  split
  · exact Finset.subset_insert ..
  · exact Finset.Subset.refl _

/-- a new node -/
theorem addCGNode (kind : NodeKind Obj Val) : Frame c (c.addCGNode kind) := by
  cases kind with
  | ptrNode p =>
    refine ⟨Nat.le_succ _, fun n hn => ?_, fun n hn => ?_, fun n hn => ?_, fun n hn => ?_, rfl,
      fun n hn hn' => ?_, fun n hn hn' q hq => ?_⟩
    · exact (kind_addNewNode ..).trans (if_neg hn.ne)
    · exact (superOf_addNewNode ..).trans (if_neg hn.ne)
    · exact ((indirect_addNewNode ..).trans (if_neg hn.ne)).ge
    · exact if_neg hn.ne
    · exact (superOf_addNewNode ..).trans (if_pos (Nat.le_antisymm (Nat.lt_succ_iff.mp hn') hn))
    · exact if_pos (Nat.le_antisymm (Nat.lt_succ_iff.mp hn') hn)
  | objNode o =>
    -- the object and the anonymous node; the edge between them changes nothing else
    have hs := insertConstraint_sameNodes (g := (c.graph.addNewNode (.objNode o)).addNewNode
      (.ptrNode none)) c.graph.nodeNum (c.graph.nodeNum + 1) .addrOf
    have hnum : (c.addCGNode (.objNode o)).graph.nodeNum = c.graph.nodeNum + 2 := hs.nodeNum
    have hkind : ∀ n, (c.addCGNode (.objNode o)).graph.kind n = if n = c.graph.nodeNum + 1 then
        .ptrNode none else if n = c.graph.nodeNum then .objNode o else c.graph.kind n := by
      intro n
      refine (hs.kind n).trans ?_
      rw [kind_addNewNode, kind_addNewNode, nodeNum_addNewNode]
    have hsup : ∀ n, (c.addCGNode (.objNode o)).graph.superOf n = if n = c.graph.nodeNum + 1 then
        none else if n = c.graph.nodeNum then none else c.graph.superOf n := by
      intro n
      refine (hs.superOf n).trans ?_
      rw [superOf_addNewNode, superOf_addNewNode, nodeNum_addNewNode]
    refine ⟨hnum ▸ Nat.le_add_right _ _, fun n hn => ?_, fun n hn => ?_, fun n hn => ?_,
      fun n hn => ?_, rfl, fun n hn hn' => ?_, fun n hn hn' q hq => ?_⟩
    · rw [hkind, if_neg (by lia), if_neg hn.ne]
    · rw [hsup, if_neg (by lia), if_neg hn.ne]
    · refine ((hs.indirect n).trans ?_).ge
      rw [indirect_addNewNode, indirect_addNewNode, nodeNum_addNewNode, if_neg (by lia),
        if_neg hn.ne]
    · show (if n = c.graph.nodeNum + 1 then _ else if n = c.graph.nodeNum then _ else c.pts n) = _
      rw [if_neg (by lia), if_neg hn.ne]
    · rw [hsup]
      split
      · rfl
      · rw [if_pos (by lia)]
    · rw [hkind] at hq
      split at hq
      · cases hq
      · rw [if_pos (by lia)] at hq
        cases hq

theorem superOf_eq (h : Frame c c') (hc : c.graph.Inv) (hc' : c'.graph.Inv) :
    c'.graph.superOf = c.graph.superOf := by
  funext n
  rcases Nat.lt_or_ge n c.graph.nodeNum with hlt | hge
  · exact h.superOf n hlt
  · have hnone : c.graph.superOf n = none := by
      cases hs : c.graph.superOf n with
      | none => rfl
      | some s => exact absurd (hc.sup_lt n s hs).1 (Nat.not_lt_of_le hge)
    rw [hnone]
    rcases Nat.lt_or_ge n c'.graph.nodeNum with hlt' | hge'
    · exact h.superOf_new n hge hlt'
    · cases hs : c'.graph.superOf n with
      | none => rfl
      | some s => exact absurd (hc'.sup_lt n s hs).1 (Nat.not_lt_of_le hge')

/-- the classes stay what they are -/
theorem getSuperNode (h : Frame c c') (hc : c.graph.Inv) (hc' : c'.graph.Inv) (m : NodeID) :
    c'.graph.getSuperNode m = c.graph.getSuperNode m :=
  hc'.getSuperNode_eq (h.superOf_eq hc hc' ▸ hc.root m)

end Frame

/-- nothing is merged, no pointer points to anything, and nothing is noted -/
structure Unsolved (c : Core Obj Val) : Prop where
  superOf : ∀ n < c.graph.nodeNum, c.graph.superOf n = none
  pts : ∀ n < c.graph.nodeNum, ∀ p, c.graph.kind n = .ptrNode (some p) → c.pts n = ∅
  noted : c.updatedFunPtrs = ∅

theorem Unsolved.empty : Unsolved ({} : Core Obj Val) :=
  ⟨fun _ hn => absurd hn (Nat.not_lt_zero _), fun _ hn => absurd hn (Nat.not_lt_zero _), rfl⟩

theorem Unsolved.frame (h : Unsolved c) (hf : Frame c c') : Unsolved c' := by
  refine ⟨fun n hn => ?_, fun n hn p hp => ?_, hf.noted.trans h.noted⟩
  · rcases Nat.lt_or_ge n c.graph.nodeNum with hlt | hge
    · exact (hf.superOf n hlt).trans (h.superOf n hlt)
    · exact hf.superOf_new n hge hn
  · rcases Nat.lt_or_ge n c.graph.nodeNum with hlt | hge
    · exact (hf.pts n hlt).trans (h.pts n hlt p ((hf.kind n hlt).symm.trans hp))
    · exact hf.pts_new n hge hn p hp

end Core

namespace Builder

variable {P : Program Fun Val Ty} {T : CtxDomain Ctx Val} {b b' b'' : Builder Ctx Fun Val}

/-- the frame of the state, and the pointers that are found -/
structure Frame (b b' : Builder Ctx Fun Val) : Prop extends Core.Frame b.core b'.core where
  ptrs : ∀ k n, b.ptrs k = some n → b'.ptrs k = some n
  ptrs_old : ∀ k n, b'.ptrs k = some n → n < b.core.graph.nodeNum → b.ptrs k = some n
  null : b'.nullPtrNode = b.nullPtrNode
  uni : b'.uniPtrNode = b.uniPtrNode

namespace Frame

theorem refl (b : Builder Ctx Fun Val) : Frame b b :=
  ⟨Core.Frame.refl _, fun _ _ h => h, fun _ _ h _ => h, rfl, rfl⟩

theorem trans (h : Frame b b') (h' : Frame b' b'') : Frame b b'' where
  toFrame := h.toFrame.trans h'.toFrame
  ptrs k n hk := h'.ptrs k n (h.ptrs k n hk)
  ptrs_old k n hk hn := h.ptrs_old k n (h'.ptrs_old k n hk (hn.trans_le h.le)) hn
  null := h'.null.trans h.null
  uni := h'.uni.trans h.uni

theorem lookup [DecidableEq Val] (h : Frame b b') {C : Ctx} {V : Val} {n : NodeID}
    (hget : getPtrNodeOrNull P T b C V = some n) : getPtrNodeOrNull P T b' C V = some n :=
  lookup_mono h.ptrs h.null h.uni hget

/-- a node that was there is found where it was found before -/
theorem lookup_old [DecidableEq Val] (h : Frame b b') {C : Ctx} {V : Val} {n : NodeID}
    (hget : getPtrNodeOrNull P T b' C V = some n) (hn : n < b.core.graph.nodeNum) :
    getPtrNodeOrNull P T b C V = some n := by
  unfold getPtrNodeOrNull specialPtr at hget ⊢
  rw [h.null, h.uni] at hget
  dsimp only at hget ⊢
  split at hget
  · exact hget
  · exact h.ptrs_old _ _ hget hn

end Frame

/-! ## relations that the additions respect -/

variable [DecidableEq Ctx] [DecidableEq Fun] [DecidableEq Val]

/-- `Q` holds from before an addition to after it -/
structure Respected (P : Program Fun Val Ty)
    (Q : Builder Ctx Fun Val → Builder Ctx Fun Val → Prop) : Prop where
  refl : ∀ b, Q b b
  trans : ∀ {b b' b''}, Q b b' → Q b' b'' → Q b b''
  insertPtr : ∀ b C V, b.ptrs (C, V) = none → Q b (b.insertPtr C V).1
  createRetNode : ∀ b C F b', Builder.createRetNode P b C F = .ok b' → Q b b'
  allocate : ∀ b C V r, b.allocate C V = .ok r → Q b r.1
  addConstraints : ∀ b src dst k, Q b (b.addConstraints src dst k)

namespace Respected

variable {Q : Builder Ctx Fun Val → Builder Ctx Fun Val → Prop} (h : Respected P Q)
include h

theorem foldlM {α : Type} {f : Builder Ctx Fun Val → α → Except Abort (Builder Ctx Fun Val)}
    {l : List α} (hf : ∀ b a b', f b a = .ok b' → Q b b') (hr : l.foldlM f b = .ok b') : Q b b' :=
  foldlM_ok (I := Q b) (fun b1 a _ hb b2 hr => h.trans hb (hf b1 a b2 hr)) (h.refl b) hr

theorem createPtrNode {C : Ctx} {V : Val} {r : Builder Ctx Fun Val × NodeID}
    (hr : b.createPtrNode C V = .ok r) : Q b r.1 := by
  unfold Builder.createPtrNode at hr
  split at hr
  · cases hr
  · rename_i hfree
    cases hr
    exact h.insertPtr b C V hfree

theorem getOrCreate (C : Ctx) (V : Val) : Q b (getOrCreatePtrNode P T b C V).1 := by
  unfold getOrCreatePtrNode
  split
  · exact h.refl b
  · rename_i hnone
    exact h.insertPtr b _ _ (getPtrNodeOrNull_none hnone).2

theorem addEdge (C : Ctx) (first second : Val)
    {edge : NodeID → NodeID → Builder Ctx Fun Val → Builder Ctx Fun Val}
    (hedge : ∀ m n b, Q b (edge m n b)) : Q b (Builder.addEdge P T b C first second edge) :=
  h.trans (h.trans (h.getOrCreate C first) (h.getOrCreate C second)) (hedge _ _ _)

theorem incoming (C : Ctx) (dst : NodeID) (l : List Val) :
    Q b (l.foldl (addIncoming P T C dst) b) :=
  foldl_inv (I := Q b) (fun _ V _ hb =>
    h.trans hb (h.trans (h.getOrCreate C V) (h.addConstraints _ _ _ _))) (h.refl b)

theorem allocPtr {C : Ctx} {V : Val} {obj ptr : Builder Ctx Fun Val × NodeID}
    (hobj : b.allocate C V = .ok obj) (hptr : obj.1.createPtrNode C V = .ok ptr) :
    Q b (ptr.1.addConstraints obj.2 ptr.2 .addrOf) :=
  h.trans (h.trans (h.allocate b C V obj hobj) (h.createPtrNode hptr)) (h.addConstraints _ _ _ _)

/-! ### the functions of the builder -/

theorem addGlobals (hr : addGlobals P T b = .ok b') : Q b b' := by
  have hstep : ∀ (b : Builder Ctx Fun Val) V b', addGlobal T b V = .ok b' → Q b b' := by
    intro b V b' hr
    obtain ⟨obj, hobj, hr⟩ := bind_ok hr
    obtain ⟨ptr, hptr, hr⟩ := bind_ok hr
    cases hr
    exact h.allocPtr hobj hptr
  obtain ⟨b1, hb1, hr⟩ := bind_ok hr
  exact h.trans (h.foldlM hstep hb1) (h.foldlM hstep hr)

/-- the visitors of instructions -/
theorem visit {C : Ctx} {F : Fun} {I : Val} (hr : visit P T C F b I = .ok b') : Q b b' := by
  have hedge : ∀ (k : Constraints) (m n : NodeID) (b : Builder Ctx Fun Val),
      Q b (b.addConstraints m n k) := fun k m n b => h.addConstraints b m n k
  unfold Builder.visit at hr
  cases hI : P.instr I with
  | alloca =>
    rw [hI] at hr
    obtain ⟨obj, hobj, hr⟩ := bind_ok hr
    obtain ⟨ptr, hptr, hr⟩ := bind_ok hr
    cases hr
    exact h.allocPtr hobj hptr
  | load ptr =>
    rw [hI] at hr
    cases hr
    unfold visitLoadInst
    split
    · exact h.addEdge C ptr I (hedge .load)
    · exact h.refl b
  | store value ptr =>
    rw [hI] at hr
    cases hr
    unfold visitStoreInst
    dsimp only
    split
    · split
      · exact h.refl b
      · exact h.addEdge C value ptr (hedge .store)
    · exact h.refl b
  | getElementPtr base =>
    rw [hI] at hr
    cases hr
    unfold visitGetElementPtrInst
    dsimp only
    split
    · exact h.addEdge C _ _ fun m n b => h.addConstraints b n m .offset
    · exact h.refl b
  | phi incoming =>
    rw [hI] at hr
    cases hr
    unfold visitPHINode
    split
    · exact h.trans (h.getOrCreate C I) (h.incoming C _ _)
    · exact h.refl b
  | select t f =>
    rw [hI] at hr
    cases hr
    unfold visitSelectInst
    split
    · exact h.trans (h.getOrCreate C I) (h.incoming C _ _)
    · exact h.refl b
  | call cs =>
    rw [hI] at hr
    cases hr
    unfold visitCallSite
    split
    · split
      · exact h.refl b
      · exact h.getOrCreate C I
    · exact h.refl b
  | memcpy source dest cs =>
    rw [hI] at hr
    cases hr
    exact h.addEdge C source dest fun _ _ b => h.refl b
  | ret value =>
    rw [hI] at hr
    unfold visitReturnInst at hr
    cases value with
    | none =>
      cases hr
      exact h.refl b
    | some V =>
      dsimp only at hr
      split at hr
      · obtain ⟨m, -, hr⟩ := bind_ok hr
        obtain ⟨n, -, hr⟩ := bind_ok hr
        cases hr
        exact h.addConstraints b m n .copy
      · cases hr
        exact h.refl b
  | extractValue =>
    rw [hI] at hr
    cases hr
    unfold visitExtractValueInst
    split
    · exact h.getOrCreate C I
    · exact h.refl b
  | other =>
    rw [hI] at hr
    cases hr
    exact h.refl b

theorem initFunction {C : Ctx} {F : Fun} (hr : initFunction P T b C F = .ok b') : Q b b' := by
  unfold Builder.initFunction at hr
  split at hr
  · obtain ⟨b1, hb1, hr⟩ := bind_ok hr
    obtain ⟨b2, hb2, hr⟩ := bind_ok hr
    have h1 : Q b b1 := by
      unfold initReturn at hb1
      split at hb1
      · exact h.createRetNode b C F b1 hb1
      · cases hb1
        exact h.refl b
    have h2 : Q b1 b2 := by
      refine h.foldlM (fun b A b' hr => ?_) hb2
      unfold initArgument at hr
      split at hr
      · cases hc : b.createPtrNode C A with
        | error e =>
          rw [hc] at hr
          cases hr
        | ok r =>
          rw [hc] at hr
          cases hr
          exact h.createPtrNode hc
      · cases hr
        exact h.refl b
    exact h.trans (h.trans h1 h2) (h.foldlM (fun b I b' hr => h.visit hr) hr)
  · cases hr
    exact h.refl b

theorem linkArgs {C C' : Ctx} {actuals formals rest : List Val}
    (hr : linkArgs P T C C' actuals formals b = .ok (b', rest)) : Q b b' := by
  induction formals generalizing actuals b with
  | nil =>
    cases actuals <;> cases hr <;> exact h.refl _
  | cons formal formals ih =>
    cases actuals with
    | nil => cases hr
    | cons actual actuals =>
      unfold Builder.linkArgs at hr
      split at hr
      · cases hr
      · split at hr
        · obtain ⟨m, -, hr⟩ := bind_ok hr
          obtain ⟨n, -, hr⟩ := bind_ok hr
          exact h.trans (h.addConstraints b m n .copy) (ih hr)
        · exact ih hr

theorem linkReturn {C C' : Ctx} {F : Fun} {I : Val} {cs : CallInst Fun Val}
    (hr : linkReturn P T b C C' F I cs = .ok b') : Q b b' := by
  unfold Builder.linkReturn at hr
  split at hr
  · split at hr
    · cases hr
    · cases hr
      exact h.refl b
  · split at hr
    · obtain ⟨m, -, hr⟩ := bind_ok hr
      obtain ⟨n, -, hr⟩ := bind_ok hr
      cases hr
      exact h.addConstraints b m n .copy
    · cases hr
      exact h.refl b

theorem processCallSite [DecidableEq Ty] {L : LangModel Fun Val Ty} {C C' : Ctx}
    {caller callee : Fun} {I : Val}
    (hr : processCallSite P T L b C caller C' callee I = .ok b') : Q b b' := by
  unfold Builder.processCallSite at hr
  split at hr
  · cases hr
  split at hr
  · cases hr
  split at hr
  · obtain ⟨obj, hobj, hr⟩ := bind_ok hr
    obtain ⟨ptr, -, hr⟩ := bind_ok hr
    cases hr
    exact h.trans (h.allocate b C I obj hobj) (h.addConstraints _ _ _ _)
  split at hr
  · unfold interceptThreadCreation at hr
    split at hr
    · obtain ⟨n, -, hr⟩ := bind_ok hr
      obtain ⟨m, -, hr⟩ := bind_ok hr
      cases hr
      exact h.addConstraints b m n .copy
    · cases hr
  split at hr
  · cases hr
  split at hr
  · cases hr
  split at hr
  · cases hr
  split at hr
  · obtain ⟨r, hlink, hr⟩ := bind_ok hr
    split at hr
    · cases hr
    · exact h.trans (h.linkArgs hlink) (h.linkReturn hr)
  · cases hr
    exact h.refl b

end Respected

/-! ## the frame is kept -/

theorem frame_respected (P : Program Fun Val Ty) :
    Respected P (Frame : Builder Ctx Fun Val → Builder Ctx Fun Val → Prop) where
  refl := Frame.refl
  trans := Frame.trans
  insertPtr b C V hfree := by
    refine ⟨Core.Frame.addCGNode _, fun k n hk => ?_, fun k n hk hn => ?_, rfl, rfl⟩
    · show Function.update b.ptrs (C, V) _ k = some n
      rw [Function.update_of_ne]
      · exact hk
      · rintro rfl
        rw [hfree] at hk
        cases hk
    · replace hk : Function.update b.ptrs (C, V) (some b.core.graph.nodeNum) k = some n := hk
      by_cases he : k = (C, V)
      · rw [he, Function.update_self] at hk
        cases hk
        exact absurd hn (Nat.lt_irrefl _)
      · rwa [Function.update_of_ne he] at hk
  createRetNode b C F b' hr := by
    unfold Builder.createRetNode at hr
    split at hr
    · cases hr
    · cases hr
      exact ⟨Core.Frame.addCGNode _, fun _ _ hk => hk, fun _ _ hk _ => hk, rfl, rfl⟩
  allocate b C V r hr := by
    unfold Builder.allocate at hr
    split at hr
    · cases hr
    · cases hr
      exact ⟨Core.Frame.addCGNode _, fun _ _ hk => hk, fun _ _ hk _ => hk, rfl, rfl⟩
  addConstraints b src dst k := by
    exact ⟨.addConstraints src dst k, fun _ _ hk => hk, fun _ _ hk _ => hk, rfl, rfl⟩

omit [DecidableEq Ctx] [DecidableEq Fun] in
theorem Frame.initIndirectCall {C : Ctx} {value : Val} {id : CallNodeID}
    (hr : initIndirectCall P T b C value id = .ok b') : Frame b b' := by
  obtain ⟨n, -, hr⟩ := bind_ok hr
  cases hr
  exact ⟨.setIndirectCallNode n id, fun _ _ hk => hk, fun _ _ hk _ => hk, rfl, rfl⟩

/-! ## before the first run of a solver -/

omit [DecidableEq Ctx] [DecidableEq Fun] [DecidableEq Val] in
theorem GlobalStep.frame (hs : GlobalStep T b b') : Core.Frame b.core b'.core := by
  cases hs with
  | field V pOffset _ _ => exact .addCGNode _
  | addrOf src dst o o' _ _ _ _ => exact .addConstraints src dst .addrOf

theorem initial_unsolved (hr : initial P T = .ok b) : b.core.Unsolved := by
  have hf : Respected P (Frame : Builder Ctx Fun Val → Builder Ctx Fun Val → Prop) :=
    frame_respected P
  unfold initial at hr
  obtain ⟨nullPtr, hnull, hr⟩ := bind_ok hr
  obtain ⟨uniPtr, huni, hr⟩ := bind_ok hr
  obtain ⟨nullObj, hnullObj, hr⟩ := bind_ok hr
  obtain ⟨uniObj, huniObj, hr⟩ := bind_ok hr
  cases hr
  have h1 := Core.Unsolved.empty.frame (hf.createPtrNode hnull).toFrame
  have h2 := h1.frame (hf.createPtrNode huni).toFrame
  have h3 := h2.frame (hf.allocate _ _ _ _ hnullObj).toFrame
  exact h3.frame (hf.allocate _ _ _ _ huniObj).toFrame

theorem Globals.unsolved (h : Globals P T b) : b.core.Unsolved := by
  induction h with
  | start hinit hadd =>
    exact (initial_unsolved hinit).frame ((frame_respected P).addGlobals hadd).toFrame
  | step _ hs ih => exact ih.frame hs.frame

end Builder

end AserPTA
