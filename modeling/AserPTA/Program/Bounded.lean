import AserPTA.Program.Complete

/-!
# What is found stays below an assignment

An assignment of objects to cells that satisfies all constraints that are added bounds the points-to
sets, from the empty graph on, through every addition and every step of a solver.

* `Distinct`         no two cells have the same node;
* `Reads`            an assignment of the cells, read as one of the names of the nodes;
* `Bounded`          the graph is below the assignment (`Bounded.addition`, `Bounded.steps`);
* `Bounded.holds`    what is found is in the assignment;
* `Standing`         the calls that stand at a node are those whose value has the node;
* `Globals.fits`     the globals are below an assignment that satisfies their constraints.
-/

namespace AserPTA

open ConsGraph AserPTA.Core Loop Relation

variable {Ctx Fun Val Ty : Type}

/-- a name is given by the kinds of the nodes up to it -/
theorem ConsGraph.name_of_kind {Obj Val : Type} {g g' : ConsGraph Obj Val} {n : NodeID}
    (hk : ∀ m ≤ n, g'.kind m = g.kind m) : g'.name n = g.name n := by
  have haddr : g'.addrOfObj n = g.addrOfObj n := by
    cases n with
    | zero => rfl
    | succ m =>
      unfold addrOfObj
      dsimp only
      rw [hk m (Nat.le_succ m)]
  unfold name
  rw [hk n le_rfl, haddr]

theorem ConsGraph.indirect_addCGNode {Obj Val : Type} (g : ConsGraph Obj Val) (kind : NodeKind Obj Val)
    (n : NodeID) : (g.addCGNode kind).indirect n ⊆ g.indirect n := by
  have hnew : ∀ (g : ConsGraph Obj Val) (kind : NodeKind Obj Val),
      (g.addNewNode kind).indirect n ⊆ g.indirect n := by
    intro g kind
    rw [indirect_addNewNode]
    split
    · exact Finset.empty_subset _
    · exact Finset.Subset.refl _
  cases kind with
  | ptrNode p => exact hnew g _
  | objNode o =>
    have hs := insertConstraint_sameNodes (g := (g.addNewNode (.objNode o)).addNewNode (.ptrNode none))
      g.nodeNum (g.nodeNum + 1) .addrOf
    show (ConsGraph.insertConstraint _ _ _ _).1.indirect n ⊆ _
    rw [hs.indirect]
    exact (hnew _ _).trans (hnew g _)

namespace Builder

variable {P : Program Fun Val Ty} {T : CtxDomain Ctx Val} {b b' : Builder Ctx Fun Val}
  {D : Cell Ctx Fun Val → FSObject Ctx Val → Prop}
  {N : Name (FSObject Ctx Val) (Pointer Ctx Val) → FSObject Ctx Val → Prop}
  {Mem : MemModel (FSObject Ctx Val) (Pointer Ctx Val)}

/-! ## cells and their nodes -/

/-- the maps of the builder do not share nodes -/
structure Distinct (b : Builder Ctx Fun Val) : Prop where
  ptr_ret : ∀ k k' n, b.ptrs k = some n → b.retPtrMap k' ≠ some n
  ret_ret : ∀ k k' n, b.retPtrMap k = some n → b.retPtrMap k' = some n → k = k'

/-- a node is the node of one cell -/
theorem Distinct.cell (h : b.Distinct) (hn : Nodes P b) {x y : Cell Ctx Fun Val} {n : NodeID}
    (hx : b.NodeOf x n) (hy : b.NodeOf y n) : x = y := by
  have hobj : ∀ {z : Cell Ctx Fun Val} {o : FSObject Ctx Val}, b.NodeOf z n →
      b.core.graph.kind n = .objNode o → z = .obj o := by
    intro z o hz ho
    cases z with
    | ptr C V =>
      rw [(hn.ptrs C V n hz).2] at ho
      cases ho
    | ret C F =>
      obtain ⟨-, C', hk⟩ := hn.rets C F n hz
      rw [hk] at ho
      cases ho
    | obj o' =>
      rw [hz.2] at ho
      cases ho
      rfl
  cases x with
  | obj o => exact (hobj hy hx.2).symm
  | ptr C V =>
    cases y with
    | obj o => exact hobj hx hy.2
    | ptr C' V' =>
      have hk := (hn.ptrs C V n hx).2
      rw [(hn.ptrs C' V' n hy).2] at hk
      cases hk
      rfl
    | ret C' F => exact absurd hy (h.ptr_ret _ _ n hx)
  | ret C F =>
    cases y with
    | obj o => exact hobj hx hy.2
    | ptr C' V' => exact absurd hx (h.ptr_ret _ _ n hy)
    | ret C' F' =>
      cases h.ret_ret _ _ n hx hy
      rfl

/-- `N` gives the nodes of cells what `D` gives the cells -/
structure Reads (b : Builder Ctx Fun Val) (D : Cell Ctx Fun Val → FSObject Ctx Val → Prop)
    (N : Name (FSObject Ctx Val) (Pointer Ctx Val) → FSObject Ctx Val → Prop) : Prop where
  cell : ∀ x n, b.NodeOf x n → ∀ o, N (b.core.graph.name n) o ↔ D x o
  obj : ∀ o o', N (.obj o) o' ↔ D (.obj o) o'
  addr : ∀ o o', N (.addr o) o' ↔ o' = o

theorem Reads.old (h : b'.Reads D N) (hnode : ∀ x n, b.NodeOf x n → b'.NodeOf x n)
    (hname : ∀ x n, b.NodeOf x n → b'.core.graph.name n = b.core.graph.name n) : b.Reads D N := by
  refine ⟨fun x n hx o => ?_, h.obj, h.addr⟩
  rw [← hname x n hx]
  exact h.cell x n (hnode x n hx) o

theorem Reads.grows (h : b'.Reads D N) (hn : Nodes P b) (hg : Grows b b') : b.Reads D N :=
  h.old (fun _ _ hx => hx.grows hg) fun _ _ hx =>
    name_of_kind fun m hm => hg.kind m (hm.trans_lt (hx.lt hn))

/-- the assignment itself is such a reading -/
theorem Distinct.reads (h : b.Distinct) (hn : Nodes P b) : ∃ N, b.Reads D N := by
  let N : Name (FSObject Ctx Val) (Pointer Ctx Val) → FSObject Ctx Val → Prop
    | .ptr n _, o => ∃ x, b.NodeOf x n ∧ D x o
    | .obj o, o' => D (.obj o) o'
    | .addr o, o' => o' = o
  have hptr : ∀ {x : Cell Ctx Fun Val} {n : NodeID} {p : Pointer Ctx Val}, b.NodeOf x n →
      n < b.core.graph.nodeNum → b.core.graph.kind n = .ptrNode (some p) → ∀ o,
      N (b.core.graph.name n) o ↔ D x o := by
    intro x n p hx hlt hk o
    rw [name_ptr hn.shape.addrNodes hlt hk]
    constructor
    · rintro ⟨y, hy, ho⟩
      obtain rfl := h.cell hn hx hy
      exact ho
    · exact fun ho => ⟨x, hx, ho⟩
  refine ⟨N, fun x n hx o => ?_, fun _ _ => Iff.rfl, fun _ _ => Iff.rfl⟩
  cases x with
  | ptr C V =>
    obtain ⟨hlt, hk⟩ := hn.ptrs C V n hx
    exact hptr hx hlt hk o
  | ret C F =>
    obtain ⟨hlt, C', hk⟩ := hn.rets C F n hx
    exact hptr hx hlt hk o
  | obj o' =>
    rw [name_obj hx.2]

/-- the graph is below the assignment -/
def Bounded (b : Builder Ctx Fun Val) (Mem : MemModel (FSObject Ctx Val) (Pointer Ctx Val))
    (D : Cell Ctx Fun Val → FSObject Ctx Val → Prop) : Prop :=
  ∀ N, b.Reads D N → b.core.Below Mem N

/-- what is found is in the assignment -/
theorem Bounded.holds (h : b.Bounded Mem D) (hn : Nodes P b) (hd : b.Distinct)
    {x : Cell Ctx Fun Val} {o : FSObject Ctx Val} (ho : b.Holds x o) : D x o := by
  obtain ⟨N, hN⟩ := hd.reads (D := D) hn
  obtain ⟨n, hx, y, hy, hyo⟩ := ho
  have hbelow := h N hN
  have hrep := hbelow.pts _ y hy o hyo
  exact (hN.cell x n hx o).mp ((hbelow.rep hn.shape n o).mp hrep)

/-! ## steps of a solver -/

section
variable [DecidableEq Ctx] [DecidableEq Val] {w : Walk}
  {c : Core (FSObject Ctx Val) (Pointer Ctx Val)}

theorem Bounded.steps (h : b.Bounded Mem D) (hr : Settled P T b) (hs : Steps Mem w b.core c) :
    (b.withCore c).Bounded Mem D := by
  intro N hN
  have hname := (hr.shape.name_run hs).2
  have hold : b.Reads D N := hN.old (fun x n hx => hr.nodeOf_steps hs hx) fun x n hx =>
    (hname n (hx.lt hr.toNodes)).1
  exact (h N hold).run hr.shape hN.addr hs

end

/-! ## additions -/

theorem Bounded.empty : ({} : Builder Ctx Fun Val).Bounded Mem D := by
  intro N _
  have hlt : ∀ n, ¬ n < ({} : ConsGraph (FSObject Ctx Val) (Pointer Ctx Val)).nodeNum := Nat.not_lt_zero
  refine ⟨fun _ x hx => (by cases hx), fun n m hm => (by cases hm), ?_, ?_, ?_, ?_,
    fun _ x hx => (by cases hx)⟩
  all_goals exact fun u v huv => absurd (Inv.empty.edge_lt _ _ _ huv).1 (hlt u)

/-- a node is added -/
theorem Bounded.addNode (h : b.Bounded Mem D) (hn : Nodes P b) (hg : Grows b b')
    {kind : NodeKind (FSObject Ctx Val) (Pointer Ctx Val)} (hcore : b'.core = b.core.addCGNode kind) :
    b'.Bounded Mem D := by
  intro N hN
  rw [hcore]
  exact (h N (hN.grows hn hg)).addCGNode hn.shape hN.addr kind

/-- a constraint is added that the assignment satisfies -/
theorem Bounded.addConstraints (h : b.Bounded Mem D) (hn : Nodes P b) {k : Constraints}
    {x y : Cell Ctx Fun Val} {m n : NodeID} (hx : b.NodeOf x m) (hy : b.NodeOf y n)
    (haddr : k = .addrOf → ∃ o, x = .obj o)
    (hgep : k = .offset → GepNode P b.core.graph n ∧ ∃ C V, y = .ptr C V) (hmeets : Cell.Meets Mem D x y k)
    (hg : Grows b (b.addConstraints m n k)) : (b.addConstraints m n k).Bounded Mem D := by
  intro N hN
  have hN := hN.grows hn hg
  have hbelow := h N hN
  have hrep := hbelow.rep hn.shape
  have hD : ∀ {z : Cell Ctx Fun Val} {i : NodeID}, b.NodeOf z i → ∀ o,
      N (b.core.graph.name (b.core.graph.getSuperNode i)) o ↔ D z o := fun hz o =>
    (hrep _ o).trans (hN.cell _ _ hz o)
  have hcore : (b.addConstraints m n k).core =
      { b.core with graph := (b.core.graph.insertConstraint (k.source m) n k.stored).1 } := by
    show ({ b.core with graph := (b.core.graph.addConstraints m n k).1 } : Core _ _) = _
    rw [addConstraints_fst]
    rfl
  rw [hcore]
  refine hbelow.insertEdge ?_
  cases k with
  | copy =>
    intro o ho
    exact (hD hy o).mpr (hmeets o ((hD hx o).mp ho))
  | load =>
    intro p o hp ho
    exact (hD hy o).mpr (hmeets p o ((hD hx p).mp hp) ((hN.obj p o).mp ho))
  | store =>
    intro p o hp ho
    exact (hN.obj p o).mpr (hmeets p o ((hD hy p).mp hp) ((hD hx o).mp ho))
  | offset =>
    intro o f ho hf
    -- the target is its own representative
    obtain ⟨hg, C, V, rfl⟩ := hgep rfl
    obtain ⟨hlt, hk⟩ := hn.ptrs C V n hy
    rw [getSuperNode_of_none (hn.shape.gep_fixed n hg).1,
      index_name Mem hn.shape.addrNodes hlt hk] at hf
    exact (hD hy f).mpr (hmeets o f ((hD hx o).mp ho) hf)
  | addrOf =>
    obtain ⟨o, rfl⟩ := haddr rfl
    intro o' ho'
    have ha := Shape.isAddr_succ hx.1 hx.2
    have hname : b.core.graph.name (m + 1) = .addr o := name_addr hn.shape.addrNodes hx.1 hx.2
    have heq : o' = o := by
      have ho' := (hrep (m + 1) o').mp ho'
      rw [hname] at ho'
      exact (hN.addr o o').mp ho'
    rw [heq]
    exact (hD hy o).mpr (hmeets o rfl)

variable [DecidableEq Ctx] [DecidableEq Fun] [DecidableEq Val]
  {A : Constraints → Cell Ctx Fun Val → Cell Ctx Fun Val → Prop}

theorem Bounded.addition (h : b.Bounded Mem D) (hP : P.Canonical) (hn : Nodes P b)
    (hA : Legal P T A) (hD : ∀ k x y, A k x y → Cell.Meets Mem D x y k)
    (hs : Addition P T A b b') : b'.Bounded Mem D := by
  have hg := hs.grows
  cases hs with
  | ptr C V hfree => exact h.addNode hn hg rfl
  | ret C F hr =>
    unfold Builder.createRetNode at hr
    split at hr
    · cases hr
    · cases hr
      exact h.addNode hn hg rfl
  | alloc C V hr =>
    unfold Builder.allocate at hr
    split at hr
    · cases hr
    · cases hr
      exact h.addNode hn hg rfl
  | field V pOffset _ _ => exact h.addNode hn hg rfl
  | @cons k x y m n hcons hx hy =>
    refine h.addConstraints hn hx hy (fun hk => ?_) (fun hk => ?_) (hD k x y hcons) hg
    · subst hk
      exact hA.addrOf x y hcons
    · subst hk
      obtain ⟨C, I, base, rfl, hI, -⟩ := hA.offset x y hcons
      refine ⟨(hy.gepNode hn hP).mpr ⟨C, I, rfl, ?_⟩, C, I, rfl⟩
      rw [hI]
      rfl

theorem Distinct.addition (h : b.Distinct) (hn : Nodes P b) (hs : Addition P T A b b') :
    b'.Distinct := by
  cases hs with
  | ptr C V hfree =>
    refine ⟨fun k k' n hk => ?_, h.ret_ret⟩
    have hk : Function.update b.ptrs (C, V) (some b.core.graph.nodeNum) k = some n := hk
    rw [Function.update_apply] at hk
    split at hk
    · cases hk
      exact fun hk' => (lt_irrefl _) (hn.rets _ _ _ hk').1
    · exact h.ptr_ret k k' n hk
  | ret C F hr =>
    unfold Builder.createRetNode at hr
    split at hr
    · cases hr
    · cases hr
      have hret : ∀ k n, Function.update b.retPtrMap (C, F) (some b.core.graph.nodeNum) k = some n →
          (k = (C, F) ∧ n = b.core.graph.nodeNum) ∨
            (b.retPtrMap k = some n ∧ n < b.core.graph.nodeNum) := by
        intro k n hk
        rw [Function.update_apply] at hk
        split at hk
        · cases hk
          exact .inl ⟨‹_›, rfl⟩
        · exact .inr ⟨hk, (hn.rets _ _ _ hk).1⟩
      refine ⟨fun k k' n hk hk' => ?_, fun k k' n hk hk' => ?_⟩
      · rcases hret k' n hk' with ⟨-, rfl⟩ | ⟨hk', -⟩
        · exact lt_irrefl _ (hn.ptrs _ _ _ hk).1
        · exact h.ptr_ret k k' n hk hk'
      · rcases hret k n hk with ⟨rfl, rfl⟩ | ⟨hk, hlt⟩ <;> rcases hret k' _ hk' with ⟨rfl, he⟩ | ⟨hk', hlt'⟩
        · rfl
        · exact absurd hlt' (lt_irrefl _)
        · exact absurd he hlt.ne
        · exact h.ret_ret k k' n hk hk'
  | alloc C V hr =>
    unfold Builder.allocate at hr
    split at hr
    · cases hr
    · cases hr
      exact ⟨h.ptr_ret, h.ret_ret⟩
  | field V pOffset _ _ => exact ⟨h.ptr_ret, h.ret_ret⟩
  | cons _ _ _ => exact ⟨h.ptr_ret, h.ret_ret⟩

/-- a builder whose graph is below the assignment -/
structure Fits (P : Program Fun Val Ty) (T : CtxDomain Ctx Val)
    (Mem : MemModel (FSObject Ctx Val) (Pointer Ctx Val))
    (D : Cell Ctx Fun Val → FSObject Ctx Val → Prop) (b : Builder Ctx Fun Val) : Prop where
  settled : Settled P T b
  distinct : b.Distinct
  bounded : b.Bounded Mem D

namespace Fits

theorem additions (h : Fits P T Mem D b) (hP : P.Canonical) (hA : Legal P T A)
    (hD : ∀ k x y, A k x y → Cell.Meets Mem D x y k) (hs : Additions P T A b b') :
    Fits P T Mem D b' := by
  induction hs with
  | refl => exact h
  | tail _ hs ih =>
    have hn := ih.settled.toNodes
    exact ⟨ih.settled.addition hP hA hs, ih.distinct.addition hn hs, ih.bounded.addition hP hn hA hD hs⟩

omit [DecidableEq Fun] in
theorem steps (h : Fits P T Mem D b) (hM : KeepsBlock Mem) {w : Walk}
    {c : Core (FSObject Ctx Val) (Pointer Ctx Val)} (hs : Steps Mem w b.core c) :
    Fits P T Mem D (b.withCore c) :=
  ⟨h.settled.steps hM hs, ⟨h.distinct.ptr_ret, h.distinct.ret_ret⟩, h.bounded.steps h.settled hs⟩

omit [DecidableEq Ctx] [DecidableEq Fun] in
/-- only the calls at a node change -/
theorem initIndirectCall (h : Fits P T Mem D b) {C : Ctx} {V : Val} {id : CallNodeID}
    (hr : Builder.initIndirectCall P T b C V id = .ok b') : Fits P T Mem D b' := by
  have hset := (h.settled.initIndirectCall hr).1
  obtain ⟨p, -, hr⟩ := bind_ok hr
  cases hr
  obtain ⟨hk, hs, hsucc, -⟩ := maps_setIndirectCallNode (g := b.core.graph) p id
  refine ⟨hset, ⟨h.distinct.ptr_ret, h.distinct.ret_ret⟩, fun N hN => ?_⟩
  have hname : ∀ n, (b.core.graph.setIndirectCallNode p id).name n = b.core.graph.name n :=
    name_congr (congrFun hk)
  have hold : b.Reads D N := by
    refine hN.old (fun x n hx => ?_) fun x n _ => hname n
    cases x with
    | ptr C V => exact hx
    | ret C F => exact hx
    | obj o => exact ⟨hx.1, (congrFun hk n).trans hx.2⟩
  have hb := h.bounded N hold
  refine ⟨?_, ?_, ?_, ?_, ?_, ?_, ?_⟩ <;> simp only [hname, hk, hs, hsucc]
  · exact hb.pts
  · exact hb.merged
  · exact hb.copy
  · exact hb.load
  · exact hb.store
  · exact hb.offset
  · exact hb.handled

omit [DecidableEq Ctx] [DecidableEq Fun] in
theorem clearFunPtrs (h : Fits P T Mem D b) :
    Fits P T Mem D (b.withCore { b.core with updatedFunPtrs := ∅ }) := by
  refine ⟨⟨h.settled.placed.clearFunPtrs, h.settled.null_ptr, h.settled.uni_ptr⟩,
    ⟨h.distinct.ptr_ret, h.distinct.ret_ret⟩, fun N hN => ?_⟩
  obtain ⟨h1, h2, h3, h4, h5, h6, h7⟩ := h.bounded N ⟨hN.cell, hN.obj, hN.addr⟩
  exact ⟨h1, h2, h3, h4, h5, h6, h7⟩

end Fits

/-! ## the calls at a node -/

/-- a call that stands at a node has a value whose node is merged with it -/
def Standing (P : Program Fun Val Ty) (T : CtxDomain Ctx Val) (M : CtxModule Ctx Fun Val Val)
    (b : Builder Ctx Fun Val) : Prop :=
  ∀ n, ∀ id ∈ b.core.graph.indirect n, ∃ c V p, M.nodes[id]? = some (.inDirect c) ∧
    c.getValue P = some V ∧ b.NodeOf (cell P T c.context V) p ∧
    b.core.graph.getSuperNode p = b.core.graph.getSuperNode n

namespace Standing

variable {M M' : CtxModule Ctx Fun Val Val}

omit [DecidableEq Ctx] [DecidableEq Fun] in
theorem mono (h : Standing P T M b) (he : M.Extends M') : Standing P T M' b := by
  intro n id hid
  obtain ⟨c, V, p, hc, hV, hp, hrep⟩ := h n id hid
  obtain ⟨c', hc', hs⟩ := he.inDirect id c hc
  refine ⟨c', V, p, hc', ?_, ?_, hrep⟩
  · unfold InDirectCallSite.getValue at hV ⊢
    rw [hs.funPtr, hs.callSite]
    exact hV
  · rw [hs.context]
    exact hp

omit [DecidableEq Ctx] [DecidableEq Fun] in
/-- where no call is added and what is merged stays merged -/
theorem of_indirect (h : Standing P T M b)
    (hind : ∀ n, ∀ id ∈ b'.core.graph.indirect n, ∃ m, id ∈ b.core.graph.indirect m ∧
      b'.core.graph.getSuperNode m = b'.core.graph.getSuperNode n)
    (hnode : ∀ x n, b.NodeOf x n → b'.NodeOf x n)
    (hrep : ∀ m n, b.core.graph.getSuperNode m = b.core.graph.getSuperNode n →
      b'.core.graph.getSuperNode m = b'.core.graph.getSuperNode n) : Standing P T M b' := by
  intro n id hid
  obtain ⟨m, hm, hmn⟩ := hind n id hid
  obtain ⟨c, V, p, hc, hV, hp, hpm⟩ := h m id hm
  exact ⟨c, V, p, hc, hV, hnode _ p hp, (hrep p m hpm).trans hmn⟩

theorem addition (h : Standing P T M b) (hb : b.core.graph.Inv) (hb' : b'.core.graph.Inv)
    (hs : Addition P T A b b') : Standing P T M b' := by
  have hg := hs.grows
  have hrep := hg.getSuperNode hb hb'
  refine h.of_indirect (fun n id hid => ⟨n, ?_, rfl⟩) (fun x n hx => hx.grows hg) fun m n hmn => ?_
  · cases hs with
    | ptr C V hfree => exact indirect_addCGNode b.core.graph (.ptrNode (some ⟨C, V⟩)) n hid
    | ret C F hr =>
      unfold Builder.createRetNode at hr
      split at hr
      · cases hr
      · cases hr
        exact indirect_addCGNode b.core.graph (.ptrNode (some ⟨C, P.value F⟩)) n hid
    | alloc C V hr =>
      unfold Builder.allocate at hr
      split at hr
      · cases hr
      · cases hr
        exact indirect_addCGNode b.core.graph _ n hid
    | field V pOffset _ _ => exact indirect_addCGNode b.core.graph _ n hid
    | cons _ _ _ =>
      rw [addConstraints_graph, (insertConstraint_sameNodes ..).indirect] at hid
      exact hid
  · rw [hrep, hrep, hmn]

theorem additions (hP : P.Canonical) (hA : Legal P T A) (hr : Settled P T b) (h : Standing P T M b)
    (hs : Additions P T A b b') : Standing P T M b' := by
  induction hs with
  | refl => exact h
  | tail hadd hs ih =>
    have h1 := hr.additions hP hA hadd
    exact ih.addition h1.shape.inv (h1.addition hP hA hs).shape.inv hs

omit [DecidableEq Ctx] [DecidableEq Fun] in
/-- a call is attached to the node of its value -/
theorem initIndirectCall (hr : Settled P T b) (h : Standing P T M b) {c : InDirectCallSite Ctx Fun Val Val}
    {id : CallNodeID} {V : Val} (hc : M.nodes[id]? = some (.inDirect c)) (hV : c.getValue P = some V)
    (hb : Builder.initIndirectCall P T b c.context V id = .ok b') : Standing P T M b' := by
  obtain ⟨-, hg⟩ := hr.initIndirectCall hb
  obtain ⟨p, hp, hb⟩ := bind_ok hb
  cases hb
  intro n i hi
  have hrep : ∀ m, (b.core.graph.setIndirectCallNode p id).getSuperNode m =
      b.core.graph.getSuperNode m := getSuperNode_setIndirectCallNode p id
  have hi : i ∈ (b.core.graph.setIndirectCallNode p id).indirect n := hi
  rw [indirect_setIndirectCallNode] at hi
  have hold : i ∈ b.core.graph.indirect n ∨ n = p ∧ i = id := by
    split at hi
    · rename_i hn
      rcases Finset.mem_insert.mp hi with rfl | hi
      · exact .inr ⟨hn, rfl⟩
      · exact .inl hi
    · exact .inl hi
  rcases hold with hi | ⟨rfl, rfl⟩
  · obtain ⟨c', V', q, hc', hV', hq, hqn⟩ := h n i hi
    refine ⟨c', V', q, hc', hV', hq.grows hg, ?_⟩
    show (b.core.graph.setIndirectCallNode p id).getSuperNode q =
      (b.core.graph.setIndirectCallNode p id).getSuperNode n
    rw [hrep, hrep, hqn]
  · exact ⟨c, V, n, hc, hV, (hr.getPtrNode hp).grows hg, rfl⟩

omit [DecidableEq Fun] in
theorem step (hr : Settled P T b) (h : Standing P T M b) {w : Walk}
    {c : Core (FSObject Ctx Val) (Pointer Ctx Val)} (hs : Step Mem w b.core c) :
    Standing P T M (b.withCore c) := by
  have hnode : ∀ x n, b.NodeOf x n → (b.withCore c).NodeOf x n := fun x n hx =>
    hr.nodeOf_steps (.single hs) hx
  have hedge : ∀ {m n : NodeID} {k : Constraints}, c.graph = (b.core.graph.insertConstraint m n k).1 →
      Standing P T M (b.withCore c) := by
    intro m n k hc
    have hsame := insertConstraint_sameNodes (g := b.core.graph) m n k
    refine h.of_indirect (fun i id hid => ⟨i, ?_, rfl⟩) hnode fun i j hij => ?_
    · have hid : id ∈ c.graph.indirect i := hid
      rw [hc, hsame.indirect] at hid
      exact hid
    · show c.graph.getSuperNode i = c.graph.getSuperNode j
      rw [hc, hsame.getSuperNode, hsame.getSuperNode, hij]
  have hsame : c.graph = b.core.graph → Standing P T M (b.withCore c) := by
    intro hc
    refine h.of_indirect (fun i id hid => ⟨i, ?_, rfl⟩) hnode fun i j hij => ?_
    · have hid : id ∈ c.graph.indirect i := hid
      rw [hc] at hid
      exact hid
    · show c.graph.getSuperNode i = c.graph.getSuperNode j
      rw [hc, hij]
  cases hs with
  | unionAll v new _ => exact hsame (graph_unionPts v new)
  | clear n m _ _ _ => exact hsame rfl
  | handled u d new _ _ => exact hsame rfl
  | insert d x i o f gep _ _ _ _ _ _ => exact hsame rfl
  | load x u v _ _ => exact hedge rfl
  | store x u v _ _ => exact hedge rfl
  | addrOf d x i o f gep _ _ _ _ _ _ => exact hedge rfl
  | field d x o f gep _ _ _ _ _ =>
    have hrep := (hr.shape.inv.addCGNode (.objNode f)).2.getSuperNode
    refine h.of_indirect (fun i id hid => ⟨i, indirect_addCGNode b.core.graph _ i hid, rfl⟩) hnode
      fun i j hij => ?_
    show (b.core.graph.addCGNode _).getSuperNode i = (b.core.graph.addCGNode _).getSuperNode j
    rw [hrep, hrep, hij]
  | collapse scc s hnd hmem hlen hreach =>
    obtain ⟨-, hcol⟩ := hr.shape.inv.collapse_scc w hnd hmem hlen hreach
    have hroot : ∀ m ∈ scc, b.core.graph.getSuperNode m = m := fun m hm =>
      getSuperNode_of_none (hr.shape.inv.scc_not_merged hnd hlen hreach hm).2
    have hrep : ∀ i, (b.core.collapse w scc s).graph.getSuperNode i =
        target scc s (b.core.graph.getSuperNode i) := by
      intro i
      rw [graph_collapse]
      exact hcol.getSuperNode i
    refine h.of_indirect (fun n id hid => ?_) hnode fun i j hij => ?_
    · have hid : id ∈ (b.core.collapse w scc s).graph.indirect n := hid
      rw [graph_collapse] at hid
      rcases (hcol.indirect n id).mp hid with ⟨rfl, m, hm, hid⟩ | ⟨-, -, hid⟩
      · -- the calls of a component are gathered at one of its nodes
        have hm : m ∈ scc := hm.elim (fun he => he ▸ hmem) fun hm => hm
        refine ⟨m, hid, ?_⟩
        show (b.core.collapse w scc n).graph.getSuperNode m =
          (b.core.collapse w scc n).graph.getSuperNode n
        rw [hrep, hrep, hroot m hm, hroot n hmem, target_of_mem n hm, target_of_mem n hmem]
      · exact ⟨n, hid, rfl⟩
    · show (b.core.collapse w scc s).graph.getSuperNode i =
        (b.core.collapse w scc s).graph.getSuperNode j
      rw [hrep, hrep, hij]

omit [DecidableEq Fun] in
theorem steps (hM : KeepsBlock Mem) (hr : Settled P T b) (h : Standing P T M b) {w : Walk}
    {c : Core (FSObject Ctx Val) (Pointer Ctx Val)} (hs : Steps Mem w b.core c) :
    Standing P T M (b.withCore c) := by
  induction hs with
  | refl => exact h
  | @tail c1 c2 hrun hs ih => exact ih.step (hr.steps hM hrun) hs

end Standing

/-! ## the globals -/

theorem initial_fits (hP : P.Canonical) (hr : initial P T = .ok b) :
    Fits P T Mem D b ∧ Standing P T {} b := by
  have hset := Settled.initial hr
  unfold initial at hr
  obtain ⟨nullPtr, hnull, hr⟩ := bind_ok hr
  obtain ⟨uniPtr, huni, hr⟩ := bind_ok hr
  obtain ⟨nullObj, hnullObj, hr⟩ := bind_ok hr
  obtain ⟨uniObj, huniObj, hr⟩ := bind_ok hr
  cases hr
  have hlegal : Legal P T fun _ (_ _ : Cell Ctx Fun Val) => False :=
    ⟨fun _ _ h => h.elim, fun _ _ _ _ _ h => h.elim, fun _ _ h => h.elim⟩
  let Ok (b : Builder Ctx Fun Val) : Prop :=
    Nodes P b ∧ b.Distinct ∧ b.Bounded Mem D ∧ Standing P T {} b
  have hstep : ∀ {b b' : Builder Ctx Fun Val}, Ok b → Nodes P b' →
      Addition P T (fun _ _ _ => False) b b' → Ok b' := fun ⟨hn, hd, hb, hst⟩ hn' hs =>
    ⟨hn', hd.addition hn hs, hb.addition hP hn hlegal (fun _ _ _ h => h.elim) hs,
      hst.addition hn.shape.inv hn'.shape.inv hs⟩
  have hptr : ∀ {b : Builder Ctx Fun Val} {V : Val} {r : Builder Ctx Fun Val × NodeID}, Ok b →
      b.createPtrNode T.getGlobalCtx V = .ok r → Ok r.1 := by
    intro b V r h hr
    have hn := (h.1.createPtrNode hr).1
    unfold createPtrNode at hr
    split at hr
    · cases hr
    · cases hr
      exact hstep h hn (.ptr _ _ ‹_›)
  have hobj : ∀ {b : Builder Ctx Fun Val} {V : Val} {r : Builder Ctx Fun Val × NodeID}, Ok b →
      b.allocate T.getGlobalCtx V = .ok r → Ok r.1 := fun h hr =>
    hstep h (h.1.allocate hr).1 (.alloc _ _ hr)
  have hempty : Ok {} := ⟨.empty P, ⟨fun _ _ _ h => (by cases h), fun _ _ _ h => (by cases h)⟩,
    .empty, fun _ id hid => (by cases hid)⟩
  obtain ⟨-, hd, hb, hst⟩ := hobj (hobj (hptr (hptr hempty hnull) huni) hnullObj) huniObj
  exact ⟨⟨hset, ⟨hd.ptr_ret, hd.ret_ret⟩, fun N hN => hb N ⟨hN.cell, hN.obj, hN.addr⟩⟩, hst⟩

/-- the globals are below an assignment that satisfies their constraints, and no call is there yet -/
theorem Globals.fits (hP : P.Canonical) (h : Globals P T b)
    (hD : ∀ k x y, GlobalCons P T b.Stores k x y → Cell.Meets Mem D x y k) :
    Fits P T Mem D b ∧ Standing P T {} b := by
  induction h with
  | @start b b' hinit hadd =>
    obtain ⟨hadds, -⟩ := (Settled.initial hinit).addGlobals hP (legal_global _) (fun V hV => .addr hV) hadd
    obtain ⟨hfits, hst⟩ : Fits P T Mem D b ∧ Standing P T {} b := initial_fits hP hinit
    exact ⟨hfits.additions hP (legal_global _) hD hadds,
      hst.additions hP (legal_global _) hfits.settled hadds⟩
  | @step b b' hb hs ih =>
    have hset := (hb.emits hP).1
    have hg : Grows b b' := (hs.addition (P := P)).grows
    have hmono : ∀ o o', b.Stores o o' → b'.Stores o o' := by
      rintro o o' ⟨m, n, hm, hn, hmn⟩
      exact ⟨m, n, hm.grows hg, hn.grows hg,
        hg.succ .copy _ _ (hset.shape.inv.edge_lt _ _ _ hmn).1 hmn⟩
    obtain ⟨hfits, hst⟩ := ih fun k x y hk => hD k x y (by
      cases hk with
      | addr hV => exact .addr hV
      | init hst => exact .init (hmono _ _ hst))
    have hadd : Addition P T (GlobalCons P T b'.Stores) b b' := by
      cases hs with
      | field V pOffset hblock hfree => exact .field V pOffset hblock hfree
      | addrOf src dst o o' hsrc hdst ho ho' =>
        have hx : b.NodeOf (.obj o) src := ⟨hsrc, ho⟩
        have hy : b.NodeOf (.obj o') dst := ⟨hdst, ho'⟩
        refine .cons (x := .obj o) (y := .obj o') (.init ?_) hx hy
        have hun := hb.unsolved.superOf
        have hself : ∀ {n : NodeID}, n < b.core.graph.nodeNum → b.core.graph.getSuperNode n = n :=
          fun hn => getSuperNode_of_none (hun _ hn)
        refine ⟨src, dst, hx.grows hg, hy.grows hg, ?_⟩
        rw [addConstraints_graph]
        have ha : b.core.graph.IsAddr (src + 1) := ⟨src, o, rfl, hsrc, ho⟩
        have hlt := (hset.shape.kind_of_isAddr ha).2
        refine (mem_succ_insertConstraint ..).mpr (.inr ⟨rfl, (hself hlt).symm, (hself hdst).symm, ?_⟩)
        rintro ⟨he, -⟩
        exact hy.not_isAddr hset.toNodes (he ▸ ha)
    exact ⟨hfits.additions hP (legal_global _) hD (.single hadd),
      hst.additions hP (legal_global _) hset (.single hadd)⟩

end Builder

end AserPTA
