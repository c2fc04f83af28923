import AserPTA.Program.Builder
import AserPTA.Solver.AddressNodes

/-!
# The targets of offset edges

Whatever the builder adds and the solvers do, the target of an offset edge is the node of a
`getelementptr`.

* `Canonical`              what the canonicalizer of the memory model leaves as it is;
* `GepNode`, `FromGep`     the nodes that offset edges may target, and where such an edge comes from;
* `Nodes`, `Placed`        the invariant of the builder: which nodes the maps hold;
* `Placed.visit`, `Placed.processCallSite`, `Placed.step`
                           what a visitor, a call edge and a step of a solver keep;
* `Globals`                the builder before the entry function is visited.
-/

namespace AserPTA

open ConsGraph AserPTA.Core Relation Loop

variable {Ctx Fun Val Ty : Type}

/-- What the canonicalizer leaves as it is.  It strips casts, aliases, all-zero `getelementptr`s, and
calls that return an argument or are intrinsics. -/
structure Program.Canonical (P : Program Fun Val Ty) : Prop where
  gep : ∀ I base, P.instr I = .getElementPtr base → P.canonicalize base ≠ P.canonicalize I →
    P.canonicalize I = I
  load : ∀ I ptr, P.instr I = .load ptr → P.canonicalize I = I
  phi : ∀ I incoming, P.instr I = .phi incoming → P.canonicalize I = I
  select : ∀ I t f, P.instr I = .select t f → P.canonicalize I = I
  call : ∀ I cs, (P.instr I).callInst = some cs → cs.returnedArg = none →
    (∀ F, cs.getCalledFunction = some F → P.isIntrinsic F = false) → P.canonicalize I = I
  argument : ∀ F, ∀ A ∈ P.args F, P.canonicalize A = A ∧ (P.instr A).isGEP = false
  function : ∀ F, (P.instr (P.value F)).isGEP = false
  gepLocal : ∀ I, (P.instr I).isGEP = true →
    P.isGlobalValue I = false ∧ I ≠ P.uniValue ∧ I ≠ P.nullValue

/-- a direct call of a function with a body is no call of an intrinsic -/
theorem CallInst.not_intrinsic {P : Program Fun Val Ty} {cs : CallInst Fun Val} {callee F : Fun}
    (h : cs.isIndirectCall = true ∨ cs.getTargetFunction = some callee)
    (hbody : P.hasBody callee = true) (hF : cs.getCalledFunction = some F) :
    P.isIntrinsic F = false := by
  unfold CallInst.isIndirectCall CallInst.getTargetFunction at h
  unfold CallInst.getCalledFunction at hF
  split at hF
  · rename_i G hG
    cases hF
    rw [hG] at h
    simp only [Option.some.injEq, Bool.false_eq_true, false_or] at h
    subst h
    unfold Program.hasBody at hbody
    simp_all
  · cases hF

/-- the field of an object is an object of the same memory block -/
def KeepsBlock (M : MemModel (FSObject Ctx Val) (Pointer Ctx Val)) : Prop :=
  ∀ o gep f, M.indexObject o gep = some f → f.context = o.context ∧ f.value = o.value

namespace Core

variable {Obj Val : Type} {c : Core Obj Val} {G : NodeID → Prop}

theorem Shape.congr (h : c.Shape G) {G' : NodeID → Prop} (hG : ∀ n, G n ↔ G' n) : c.Shape G' := by
  have he : G = G' := funext fun n => propext (hG n)
  exact he ▸ h

/-- only the call nodes of one node change -/
theorem Shape.setIndirectCallNode (h : c.Shape G) (n : NodeID) (id : CallNodeID) :
    ({ c with graph := c.graph.setIndirectCallNode n id } : Core Obj Val).Shape G := by
  obtain ⟨hk, hs, hsucc, -⟩ := maps_setIndirectCallNode (g := c.graph) n id
  have haddr : ∀ m, (c.graph.setIndirectCallNode n id).IsAddr m ↔ c.graph.IsAddr m :=
    isAddr_iff rfl (congrFun hk)
  refine ⟨h.inv.setIndirectCallNode n id, h.addrNodes.of_eq rfl (congrFun hk), ?_, ?_, ?_, ?_,
    h.pts_lt, ?_, ?_, h.handled_gep, h.handled_lt⟩
  · refine ⟨?_, ?_, ?_, ?_, ?_, ?_⟩ <;> simp only [hsucc, hk, haddr]
    · exact h.wf.gep_target
    · exact h.wf.gep_kind
    · exact h.wf.gep_copy
    · exact h.wf.gep_load
    · exact h.wf.addr_copy
    · exact h.wf.addr_load
  · intro a b o
    simp only [hk]
    exact h.uniq a b o
  · intro m hm
    rw [hs]
    exact h.addr_fixed m ((haddr m).mp hm)
  · intro m hm
    rw [hs]
    exact h.gep_fixed m hm
  · simp only [hk]
    exact h.pts_obj
  · simp only [hk]
    exact h.pts_addr

end Core

namespace ConsGraph

variable {Obj Val : Type} {g g' : ConsGraph Obj Val}

/-- the new nodes are no pointers, nodes that are merged stay so, and an offset edge comes from one
with the same target -/
structure OffsetsKept (g g' : ConsGraph Obj Val) : Prop where
  kind : ∀ n, g.nodeNum ≤ n → n < g'.nodeNum → ∀ p, g'.kind n ≠ .ptrNode (some p)
  merged : ∀ a b, g.getSuperNode a = g.getSuperNode b → g'.getSuperNode a = g'.getSuperNode b
  offset : ∀ u d, d ∈ g'.succ .offset u → ∃ u0, d ∈ g.succ .offset u0 ∧ u = g'.getSuperNode u0

namespace OffsetsKept

theorem refl (h : g.Inv) : OffsetsKept g g :=
  ⟨fun _ hn hn' => absurd hn' (Nat.not_lt_of_le hn), fun _ _ h => h,
    fun u _ hd => ⟨u, hd, (getSuperNode_of_none (h.source_none hd)).symm⟩⟩

theorem insertCopy (h : g.Inv) (a b : NodeID) :
    OffsetsKept g (g.insertConstraint a b .copy).1 := by
  have hs := insertConstraint_sameNodes (g := g) a b .copy
  refine ⟨fun n hn hn' => ?_, fun a b hab => ?_, fun u d hd => ?_⟩
  · rw [hs.nodeNum] at hn'
    exact absurd hn' (Nat.not_lt_of_le hn)
  · rwa [hs.getSuperNode, hs.getSuperNode]
  · rcases (mem_succ_insertConstraint ..).mp hd with hd | h1
    · exact ⟨u, hd, by rw [hs.getSuperNode, getSuperNode_of_none (h.source_none hd)]⟩
    · cases h1.1

end OffsetsKept

end ConsGraph

/-- a step of a solver keeps the offset edges -/
theorem Core.Shape.offset_step {Obj Val : Type} {c c' : Core Obj Val} {G : NodeID → Prop}
    [DecidableEq Obj] {M : MemModel Obj Val} {w : Walk} (h : c.Shape G) (hs : Step M w c c') :
    OffsetsKept c.graph c'.graph := by
  cases hs with
  | unionAll v new _ =>
    rw [graph_unionPts]
    exact .refl h.inv
  | clear n m _ _ _ => exact .refl h.inv
  | handled u d new _ _ => exact .refl h.inv
  | insert d x i o f gep _ _ _ _ _ _ => exact .refl h.inv
  | load x u v _ _ => exact .insertCopy h.inv _ _
  | store x u v _ _ => exact .insertCopy h.inv _ _
  | addrOf d x i o f gep _ _ _ _ _ _ => exact .insertCopy h.inv _ _
  | collapse scc s hnd hs hlen hr =>
    have hcol := (h.inv.collapse_scc w hnd hs hlen hr).2
    rw [graph_collapse]
    refine ⟨fun n hn hn' => ?_, fun a b hab => ?_, fun u d hd => ?_⟩
    · rw [hcol.nodeNum] at hn'
      exact absurd hn' (Nat.not_lt_of_le hn)
    · rw [hcol.getSuperNode, hcol.getSuperNode, hab]
    · obtain ⟨⟨a, b, hab, rfl, rfl⟩, -⟩ := (hcol.succ _ _ _).mp hd
      have hb : b ∉ scc := fun hb => (h.scc_not_fixed hnd hlen hr hb).2 (h.wf.gep_target a b hab)
      rw [target_of_notMem s hb]
      refine ⟨a, hab, ?_⟩
      rw [hcol.getSuperNode, getSuperNode_of_none (h.inv.source_none hab)]
  | field d x o f gep _ _ _ _ _ =>
    have hadd := h.nodeAdded (.objNode f)
    refine ⟨fun n hn hn' p hp => ?_, fun a b hab => ?_, fun u d hd => ?_⟩
    · rcases Nat.eq_or_lt_of_le hn with rfl | hlt
      · rw [hadd.kind_new] at hp
        cases hp
      · rw [hadd.kind_addr n hlt hn'] at hp
        cases hp
    · rw [hadd.getSuperNode, hadd.getSuperNode, hab]
    · rw [hadd.succ .offset (by decide)] at hd
      exact ⟨u, hd, by rw [hadd.getSuperNode, getSuperNode_of_none (h.inv.source_none hd)]⟩

/-- the node of an object that a step makes is the one of a field -/
theorem Core.Shape.obj_step {Obj Val : Type} {c c' : Core Obj Val} {G : NodeID → Prop}
    [DecidableEq Obj] {M : MemModel Obj Val} {w : Walk} (h : c.Shape G) (hs : Step M w c c')
    {n : NodeID} {f : Obj} (hn : n < c'.graph.nodeNum) (hf : c'.graph.kind n = .objNode f) :
    (n < c.graph.nodeNum ∧ c.graph.kind n = .objNode f) ∨
      ∃ x o gep, x < c.graph.nodeNum ∧ c.graph.kind x = .objNode o ∧
        M.indexObject o gep = some f := by
  have hins : ∀ a b k, n < (c.graph.insertConstraint a b k).1.nodeNum →
      (c.graph.insertConstraint a b k).1.kind n = .objNode f →
      n < c.graph.nodeNum ∧ c.graph.kind n = .objNode f := by
    intro a b k hn hf
    have hs := insertConstraint_sameNodes (g := c.graph) a b k
    rw [hs.nodeNum] at hn
    rw [hs.kind] at hf
    exact ⟨hn, hf⟩
  cases hs with
  | unionAll v new _ =>
    rw [graph_unionPts] at hn hf
    exact .inl ⟨hn, hf⟩
  | clear _ _ _ _ _ => exact .inl ⟨hn, hf⟩
  | handled _ _ _ _ _ => exact .inl ⟨hn, hf⟩
  | insert _ _ _ _ _ _ _ _ _ _ _ _ => exact .inl ⟨hn, hf⟩
  | load x u v _ _ => exact .inl (hins _ _ _ hn hf)
  | store x u v _ _ => exact .inl (hins _ _ _ hn hf)
  | addrOf d x i o f gep _ _ _ _ _ _ => exact .inl (hins _ _ _ hn hf)
  | collapse scc s hnd hs hlen hr =>
    have hcol := (h.inv.collapse_scc w hnd hs hlen hr).2
    rw [graph_collapse] at hn hf
    rw [hcol.nodeNum] at hn
    rw [hcol.kind] at hf
    exact .inl ⟨hn, hf⟩
  | field d x o f' gep hx ho hd hf' hnone =>
    rcases (h.nodeAdded (.objNode f')).obj_cases hn hf with h1 | ⟨-, he⟩
    · exact .inl h1
    · cases he
      exact .inr ⟨x, o, gep, h.handled_lt d x hx, ho, hf'⟩

theorem Core.Shape.typed {Obj Val : Type} {c : Core Obj Val} {G : NodeID → Prop} (h : c.Shape G) :
    c.Typed :=
  ⟨h.inv, h.addrNodes, h.wf.addr_copy, h.wf.addr_load, h.addr_fixed, h.pts_lt, h.pts_obj, h.pts_addr,
    h.sane.handled_lt⟩

/-! ## the nodes of the builder -/

/-- the graph that the builder makes -/
abbrev BuilderGraph (Ctx Val : Type) := ConsGraph (FSObject Ctx Val) (Pointer Ctx Val)

/-- `n` is the node of a pointer with the value `V` -/
def HoldsPtr (g : BuilderGraph Ctx Val) (n : NodeID) (V : Val) : Prop :=
  n < g.nodeNum ∧ ∃ C, g.kind n = .ptrNode (some ⟨C, V⟩)

/-- the node of a `getelementptr` -/
def GepNode (P : Program Fun Val Ty) (g : BuilderGraph Ctx Val) (n : NodeID) : Prop :=
  ∃ I, HoldsPtr g n I ∧ (P.instr I).isGEP = true

theorem HoldsPtr.inj {g : BuilderGraph Ctx Val} {n : NodeID} {V U : Val} (h : HoldsPtr g n V)
    (h' : HoldsPtr g n U) : V = U := by
  obtain ⟨-, C, hk⟩ := h
  obtain ⟨-, C', hk'⟩ := h'
  rw [hk] at hk'
  cases hk'
  rfl

theorem HoldsPtr.mono {g g' : BuilderGraph Ctx Val} {n : NodeID} {V : Val} (h : HoldsPtr g n V)
    (hle : g.nodeNum ≤ g'.nodeNum) (hk : ∀ n < g.nodeNum, g'.kind n = g.kind n) :
    HoldsPtr g' n V := ⟨h.1.trans_le hle, h.2.imp fun _ hC => (hk n h.1).trans hC⟩

/-- a pointer is no address node -/
theorem HoldsPtr.not_isAddr {c : Core (FSObject Ctx Val) (Pointer Ctx Val)} {G : NodeID → Prop}
    (h : c.Shape G) {n : NodeID} {V : Val} (hn : HoldsPtr c.graph n V) : ¬ c.graph.IsAddr n := by
  intro ha
  obtain ⟨-, C, hk⟩ := hn
  rw [(h.kind_of_isAddr ha).1] at hk
  cases hk

/-- no new node is a pointer, so there are the same pointers -/
theorem gepNode_congr {P : Program Fun Val Ty} {g g' : BuilderGraph Ctx Val}
    (hle : g.nodeNum ≤ g'.nodeNum) (hk : ∀ n < g.nodeNum, g'.kind n = g.kind n)
    (hnew : ∀ n, g.nodeNum ≤ n → n < g'.nodeNum → ∀ p, g'.kind n ≠ .ptrNode (some p)) (n : NodeID) :
    GepNode P g n ↔ GepNode P g' n := by
  constructor
  · rintro ⟨I, hI, hgep⟩
    exact ⟨I, hI.mono hle hk, hgep⟩
  · rintro ⟨I, ⟨hn, C, hC⟩, hgep⟩
    rcases Nat.lt_or_ge n g.nodeNum with hlt | hge
    · exact ⟨I, ⟨hlt, C, (hk n hlt).symm.trans hC⟩, hgep⟩
    · exact absurd hC (hnew n hge hn _)

namespace Builder

variable (P : Program Fun Val Ty) (T : CtxDomain Ctx Val)

/-- what the maps of the builder hold -/
structure Nodes (b : Builder Ctx Fun Val) : Prop where
  shape : b.core.Shape (GepNode P b.core.graph)
  ptrs : ∀ C V n, b.ptrs (C, V) = some n →
    n < b.core.graph.nodeNum ∧ b.core.graph.kind n = .ptrNode (some ⟨C, V⟩)
  rets : ∀ C F n, b.retPtrMap (C, F) = some n → HoldsPtr b.core.graph n (P.value F)
  objs : ∀ n o, n < b.core.graph.nodeNum → b.core.graph.kind n = .objNode o →
    (o.context, o.value) ∈ b.memBlockMap

variable [DecidableEq Val]

/-- the offset edge from `m` to `d` is the one of a `getelementptr` -/
def FromGep (b : Builder Ctx Fun Val) (m d : NodeID) : Prop :=
  ∃ C I base, b.core.graph.kind d = .ptrNode (some ⟨C, I⟩) ∧ P.instr I = .getElementPtr base ∧
    getPtrNodeOrNull P T b C (P.canonicalize base) = some m

/-- the invariant of the builder -/
structure Placed (b : Builder Ctx Fun Val) : Prop extends Nodes P b where
  null : HoldsPtr b.core.graph b.nullPtrNode P.nullValue
  uni : HoldsPtr b.core.graph b.uniPtrNode P.uniValue
  offset : ∀ u d, d ∈ b.core.graph.succ .offset u →
    ∃ m, FromGep P T b m d ∧ u = b.core.graph.getSuperNode m

variable {P T} {b b' : Builder Ctx Fun Val}

omit [DecidableEq Val] in
/-- a node that is added -/
theorem shape_addCGNode {c : Core (FSObject Ctx Val) (Pointer Ctx Val)}
    (h : c.Shape (GepNode P c.graph)) (kind : NodeKind (FSObject Ctx Val) (Pointer Ctx Val))
    (hnew : ∀ o, kind = .objNode o → ∀ n < c.graph.nodeNum, c.graph.kind n ≠ .objNode o) :
    (c.addCGNode kind).Shape (GepNode P (c.addCGNode kind).graph) := by
  have hadd := h.nodeAdded kind
  refine (h.addTarget kind hnew
    (∃ C I, kind = .ptrNode (some ⟨C, I⟩) ∧ (P.instr I).isGEP = true)
    (fun ⟨C, I, hk, _⟩ => ⟨_, hk⟩)).congr fun n => ?_
  constructor
  · rintro (⟨I, hI, hgep⟩ | ⟨rfl, C, I, rfl, hgep⟩)
    · exact ⟨I, hI.mono hadd.lt.le hadd.kind_old, hgep⟩
    · exact ⟨I, ⟨hadd.lt, C, hadd.kind_new⟩, hgep⟩
  · rintro ⟨I, ⟨hn, C, hC⟩, hgep⟩
    rcases Nat.lt_trichotomy n c.graph.nodeNum with hlt | rfl | hlt
    · exact .inl ⟨I, ⟨hlt, C, (hadd.kind_old n hlt).symm.trans hC⟩, hgep⟩
    · exact .inr ⟨rfl, C, I, hadd.kind_new.symm.trans hC, hgep⟩
    · rw [hadd.kind_addr n hlt hn] at hC
      cases hC

namespace Nodes

omit [DecidableEq Val] in
theorem addPtrNode (h : Nodes P b) (p : Pointer Ctx Val) :
    Nodes P (b.addPtrNode p).1 ∧
      NodeAdded b.core.graph (b.addPtrNode p).1.core.graph (.ptrNode (some p)) := by
  have hadd := h.shape.nodeAdded (.ptrNode (some p))
  refine ⟨⟨shape_addCGNode h.shape _ fun o ho => (by cases ho), fun C V n hn => ?_,
    fun C F n hn => (h.rets C F n hn).mono hadd.lt.le hadd.kind_old, fun n o hn ho => ?_⟩, hadd⟩
  · obtain ⟨h1, h2⟩ := h.ptrs C V n hn
    exact ⟨h1.trans hadd.lt, (hadd.kind_old n h1).trans h2⟩
  · rcases hadd.obj_cases hn ho with ⟨h1, h2⟩ | ⟨-, h2⟩
    · exact h.objs n o h1 h2
    · cases h2

variable [DecidableEq Ctx]

theorem insertPtr (h : Nodes P b) (C : Ctx) (V : Val) :
    Nodes P (b.insertPtr C V).1 ∧ NodeAdded b.core.graph (b.insertPtr C V).1.core.graph
      (.ptrNode (some ⟨C, V⟩)) := by
  obtain ⟨h1, hadd⟩ := h.addPtrNode ⟨C, V⟩
  refine ⟨⟨h1.shape, fun C' V' n hn => ?_, h1.rets, h1.objs⟩, hadd⟩
  replace hn : Function.update b.ptrs (C, V) (some b.core.graph.nodeNum) (C', V') = some n := hn
  by_cases hk : (C', V') = (C, V)
  · cases hk
    rw [Function.update_self] at hn
    cases hn
    exact ⟨hadd.lt, hadd.kind_new⟩
  · rw [Function.update_of_ne hk] at hn
    exact h1.ptrs C' V' n hn

omit [DecidableEq Ctx] [DecidableEq Val] in
/-- the first node of an object of a block -/
theorem addObj (h : Nodes P b) {o : FSObject Ctx Val}
    (hfree : ∀ n < b.core.graph.nodeNum, b.core.graph.kind n ≠ .objNode o) {l : List (Ctx × Val)}
    (hsub : b.memBlockMap ⊆ l) (hblock : (o.context, o.value) ∈ l) :
    Nodes P { b with core := b.core.addCGNode (.objNode o), memBlockMap := l } := by
  have hadd := h.shape.nodeAdded (.objNode o)
  refine ⟨shape_addCGNode h.shape _ fun o' ho' n hn hk => ?_, fun C V n hn => ?_,
    fun C F n hn => (h.rets C F n hn).mono hadd.lt.le hadd.kind_old, fun n o' hn ho' => ?_⟩
  · cases ho'
    exact hfree n hn hk
  · obtain ⟨h1, h2⟩ := h.ptrs C V n hn
    exact ⟨h1.trans hadd.lt, (hadd.kind_old n h1).trans h2⟩
  · rcases hadd.obj_cases hn ho' with ⟨h1, h2⟩ | ⟨-, h2⟩
    · exact hsub (h.objs n o' h1 h2)
    · cases h2
      exact hblock

theorem allocate (h : Nodes P b) {C : Ctx} {V : Val} {r : Builder Ctx Fun Val × NodeID}
    (hr : b.allocate C V = .ok r) :
    Nodes P r.1 ∧ NodeAdded b.core.graph r.1.core.graph (.objNode ⟨C, V, 0⟩) ∧
      r.2 = b.core.graph.nodeNum ∧ r.1.ptrs = b.ptrs ∧ r.1.nullPtrNode = b.nullPtrNode ∧
      r.1.uniPtrNode = b.uniPtrNode := by
  unfold Builder.allocate at hr
  split at hr
  · cases hr
  · rename_i hfree
    cases hr
    refine ⟨h.addObj (fun n hn hk => ?_) (List.subset_cons_self ..) (List.mem_cons_self ..),
      h.shape.nodeAdded (.objNode ⟨C, V, 0⟩), rfl, rfl, rfl, rfl⟩
    exact hfree (h.objs n _ hn hk)

end Nodes

/-- `b'` has at least the nodes of `b`, and finds them -/
structure Later (P : Program Fun Val Ty) (T : CtxDomain Ctx Val) (b b' : Builder Ctx Fun Val) :
    Prop where
  le : b.core.graph.nodeNum ≤ b'.core.graph.nodeNum
  kind : ∀ n < b.core.graph.nodeNum, b'.core.graph.kind n = b.core.graph.kind n
  lookup : ∀ C V n, getPtrNodeOrNull P T b C V = some n → getPtrNodeOrNull P T b' C V = some n

theorem Later.refl (b : Builder Ctx Fun Val) : Later P T b b :=
  ⟨le_rfl, fun _ _ => rfl, fun _ _ _ h => h⟩

theorem Later.trans {b'' : Builder Ctx Fun Val} (h : Later P T b b') (h' : Later P T b' b'') :
    Later P T b b'' where
  le := h.le.trans h'.le
  kind n hn := (h'.kind n (hn.trans_le h.le)).trans (h.kind n hn)
  lookup C V n hget := h'.lookup C V n (h.lookup C V n hget)

/-- the same pointers are found in the set -/
theorem lookup_mono (hptr : ∀ k n, b.ptrs k = some n → b'.ptrs k = some n)
    (hnull : b'.nullPtrNode = b.nullPtrNode) (huni : b'.uniPtrNode = b.uniPtrNode) {C : Ctx} {V : Val}
    {n : NodeID} (h : getPtrNodeOrNull P T b C V = some n) :
    getPtrNodeOrNull P T b' C V = some n := by
  unfold getPtrNodeOrNull specialPtr at h ⊢
  rw [hnull, huni]
  dsimp only at h ⊢
  split at h
  · exact h
  · exact hptr _ _ h

/-- a value without a node is not special, and the set has no pointer for it -/
theorem getPtrNodeOrNull_none {C : Ctx} {V : Val} (h : getPtrNodeOrNull P T b C V = none) :
    specialPtr P b (P.canonicalize V) = none ∧
      b.ptrs (ctxOf P T C (P.canonicalize V), P.canonicalize V) = none := by
  unfold getPtrNodeOrNull at h
  dsimp only at h
  cases hs : specialPtr P b (P.canonicalize V) with
  | none =>
    rw [hs] at h
    exact ⟨rfl, h⟩
  | some n =>
    rw [hs] at h
    cases h

omit [DecidableEq Val] in
theorem getRetNode_ok {C : Ctx} {F : Fun} {n : NodeID} (h : b.getRetNode C F = .ok n) :
    b.retPtrMap (C, F) = some n := by
  unfold getRetNode at h
  split at h
  · rename_i m hm
    cases h
    exact hm
  · cases h

theorem getPtrNode_ok {C : Ctx} {V : Val} {n : NodeID} (h : getPtrNode P T b C V = .ok n) :
    getPtrNodeOrNull P T b C V = some n := by
  unfold getPtrNode at h
  split at h
  · rename_i m hm
    cases h
    exact hm
  · cases h

namespace Placed

/-- the node of a value holds the pointer that the value is canonicalized to -/
theorem lookup (h : Placed P T b) {C : Ctx} {V : Val} {n : NodeID}
    (hget : getPtrNodeOrNull P T b C V = some n) :
    HoldsPtr b.core.graph n (P.canonicalize V) := by
  unfold getPtrNodeOrNull specialPtr at hget
  dsimp only at hget
  by_cases hu : P.canonicalize V = P.uniValue
  · rw [if_pos hu] at hget
    cases hget
    rw [hu]
    exact h.uni
  · by_cases hn : P.canonicalize V = P.nullValue
    · rw [if_neg hu, if_pos hn] at hget
      cases hget
      rw [hn]
      exact h.null
    · rw [if_neg hu, if_neg hn] at hget
      obtain ⟨h1, h2⟩ := h.ptrs _ _ _ hget
      exact ⟨h1, _, h2⟩

/-- a local pointer holds its context -/
theorem lookup_local (h : Placed P T b) {C : Ctx} {V : Val} {n : NodeID}
    (hV : P.isGlobalValue (P.canonicalize V) = false ∧ P.canonicalize V ≠ P.uniValue ∧
      P.canonicalize V ≠ P.nullValue)
    (hget : getPtrNodeOrNull P T b C V = some n) :
    b.core.graph.kind n = .ptrNode (some ⟨C, P.canonicalize V⟩) := by
  unfold getPtrNodeOrNull specialPtr ctxOf at hget
  dsimp only at hget
  rw [if_neg hV.2.1, if_neg hV.2.2, hV.1] at hget
  exact (h.ptrs _ _ _ hget).2

/-- a node is added -/
theorem nodeAdded (h : Placed P T b) (hn : Nodes P b')
    {kind : NodeKind (FSObject Ctx Val) (Pointer Ctx Val)}
    (hadd : NodeAdded b.core.graph b'.core.graph kind)
    (hptr : ∀ k n, b.ptrs k = some n → b'.ptrs k = some n)
    (hnull : b'.nullPtrNode = b.nullPtrNode) (huni : b'.uniPtrNode = b.uniPtrNode) :
    Placed P T b' ∧ Later P T b b' := by
  have hlater : Later P T b b' :=
    ⟨hadd.lt.le, hadd.kind_old, fun C V n => lookup_mono hptr hnull huni⟩
  refine ⟨⟨hn, ?_, ?_, fun u d hd => ?_⟩, hlater⟩
  · rw [hnull]
    exact h.null.mono hlater.le hlater.kind
  · rw [huni]
    exact h.uni.mono hlater.le hlater.kind
  · rw [hadd.succ .offset (by decide)] at hd
    obtain ⟨m, ⟨C, I, base, hk, hI, hget⟩, rfl⟩ := h.offset u d hd
    refine ⟨m, ⟨C, I, base, ?_, hI, hlater.lookup _ _ _ hget⟩, (hadd.getSuperNode m).symm⟩
    exact (hadd.kind_old d (h.shape.inv.edge_lt _ _ _ hd).2).trans hk

variable [DecidableEq Ctx]

theorem insertPtr (h : Placed P T b) {C : Ctx} {V : Val} (hfree : b.ptrs (C, V) = none) :
    Placed P T (b.insertPtr C V).1 ∧ Later P T b (b.insertPtr C V).1 := by
  obtain ⟨h1, hadd⟩ := h.toNodes.insertPtr C V
  refine h.nodeAdded h1 hadd (fun k n hk => ?_) rfl rfl
  show Function.update b.ptrs (C, V) _ k = some n
  rw [Function.update_of_ne]
  · exact hk
  · rintro rfl
    rw [hfree] at hk
    cases hk

theorem createPtrNode (h : Placed P T b) {C : Ctx} {V : Val} {r : Builder Ctx Fun Val × NodeID}
    (hr : b.createPtrNode C V = .ok r) :
    Placed P T r.1 ∧ Later P T b r.1 ∧ HoldsPtr r.1.core.graph r.2 V := by
  unfold Builder.createPtrNode at hr
  split at hr
  · cases hr
  · rename_i hfree
    cases hr
    obtain ⟨h1, h2⟩ := h.insertPtr hfree
    have hadd := (h.toNodes.insertPtr C V).2
    exact ⟨h1, h2, hadd.lt, C, hadd.kind_new⟩

theorem getOrCreate (h : Placed P T b) (C : Ctx) (V : Val) :
    let r := getOrCreatePtrNode P T b C V
    Placed P T r.1 ∧ Later P T b r.1 ∧ getPtrNodeOrNull P T r.1 C V = some r.2 := by
  unfold getOrCreatePtrNode
  cases hget : getPtrNodeOrNull P T b C V with
  | some n => exact ⟨h, .refl b, hget⟩
  | none =>
    dsimp only
    obtain ⟨hspecial, hfree⟩ := getPtrNodeOrNull_none hget
    obtain ⟨h1, h2⟩ := h.insertPtr hfree
    refine ⟨h1, h2, ?_⟩
    unfold getPtrNodeOrNull
    dsimp only
    have hspecial' : specialPtr P (b.insertPtr (ctxOf P T C (P.canonicalize V))
        (P.canonicalize V)).1 (P.canonicalize V) = none := hspecial
    rw [hspecial']
    exact Function.update_self ..

theorem allocate (h : Placed P T b) {C : Ctx} {V : Val} {r : Builder Ctx Fun Val × NodeID}
    (hr : b.allocate C V = .ok r) :
    Placed P T r.1 ∧ Later P T b r.1 ∧ r.2 < r.1.core.graph.nodeNum ∧
      r.1.core.graph.kind r.2 = .objNode ⟨C, V, 0⟩ := by
  obtain ⟨h1, hadd, h3, h4, h5, h6⟩ := h.toNodes.allocate hr
  obtain ⟨hp, hl⟩ := h.nodeAdded h1 hadd (fun k n hk => by rwa [h4]) h5 h6
  rw [h3]
  exact ⟨hp, hl, hadd.lt, hadd.kind_new⟩

theorem createRetNode [DecidableEq Fun] (h : Placed P T b) {C : Ctx} {F : Fun}
    (hr : Builder.createRetNode P b C F = .ok b') : Placed P T b' ∧ Later P T b b' := by
  unfold Builder.createRetNode at hr
  split at hr
  · cases hr
  · cases hr
    obtain ⟨h1, hadd⟩ := h.toNodes.addPtrNode ⟨C, P.value F⟩
    refine h.nodeAdded ⟨h1.shape, h1.ptrs, fun C' F' n hn => ?_, h1.objs⟩ hadd (fun k n hk => hk)
      rfl rfl
    replace hn : Function.update b.retPtrMap (C, F) (some b.core.graph.nodeNum) (C', F') = some n :=
      hn
    by_cases hk : (C', F') = (C, F)
    · cases hk
      rw [Function.update_self] at hn
      cases hn
      exact ⟨hadd.lt, _, hadd.kind_new⟩
    · rw [Function.update_of_ne hk] at hn
      exact h1.rets C' F' n hn

/-! ### edges -/

omit [DecidableEq Ctx] in
/-- A new constraint.  The target of a copy or a load is no `getelementptr`. -/
theorem addConstraints (h : Placed P T b) {a d : NodeID} {k : Constraints}
    (ha : a < b.core.graph.nodeNum) (hd : d < b.core.graph.nodeNum)
    (hna : ¬ b.core.graph.IsAddr d)
    (haddr : k = .addrOf → ∃ o, b.core.graph.kind a = .objNode o)
    (hgep : k = .copy ∨ k = .load → ¬ GepNode P b.core.graph d)
    (hoff : k = .offset → (GepNode P b.core.graph d ∧ FromGep P T b a d)) :
    Placed P T (b.addConstraints a d k) ∧ Later P T b (b.addConstraints a d k) := by
  have hs := insertConstraint_sameNodes (g := b.core.graph) (k.source a) d k.stored
  have hgraph : (b.addConstraints a d k).core.graph =
      (b.core.graph.insertConstraint (k.source a) d k.stored).1 := addConstraints_fst ..
  have hle := hs.nodeNum.ge
  have hkind : ∀ n < b.core.graph.nodeNum, (b.addConstraints a d k).core.graph.kind n =
      b.core.graph.kind n := fun n _ => by rw [hgraph, hs.kind]
  have hcongr := gepNode_congr (P := P) (g := b.core.graph) hle (fun n _ => hs.kind n)
    fun n hn hn' => absurd (hs.nodeNum ▸ hn') (Nat.not_lt_of_le hn)
  have hsrc : k.source a < b.core.graph.nodeNum ∧ (k = .addrOf → b.core.graph.IsAddr (k.source a)) := by
    by_cases hk : k = .addrOf
    · obtain ⟨o, ho⟩ := haddr hk
      rw [Constraints.source, if_pos hk]
      exact ⟨(h.shape.addrNodes a o ho ha).1, fun _ => Shape.isAddr_succ ha ho⟩
    · rw [Constraints.source, if_neg hk]
      exact ⟨ha, fun hk' => absurd hk' hk⟩
  have hok : b.core.EdgeOk (GepNode P b.core.graph) (k.source a) d k.stored := by
    refine ⟨fun hk => ⟨hna, fun hd' => ?_⟩, fun hk => ⟨hna, hgep ?_⟩, fun hk => ?_⟩
    · by_cases hk' : k = .addrOf
      · exact hsrc.2 hk'
      · rw [Constraints.stored, if_neg hk'] at hk
        exact absurd hd' (hgep (.inl hk))
    · rw [Constraints.stored] at hk
      split at hk
      · cases hk
      · exact .inr hk
    · rw [Constraints.stored] at hk
      split at hk
      · cases hk
      · exact (hoff hk).1
  have hshape := (h.shape.insertEdge hsrc.1 hd (h.shape.edgeOk_rep hok)).congr hcongr
  have hcore : (b.addConstraints a d k).core = { b.core with
      graph := (b.core.graph.insertConstraint (k.source a) d k.stored).1 } := by
    show ({ b.core with graph := (b.core.graph.addConstraints a d k).1 } : Core _ _) = _
    rw [addConstraints_fst]
    rfl
  have hlater : Later P T b (b.addConstraints a d k) :=
    ⟨hgraph ▸ hle, hkind, fun C V n hget => hget⟩
  refine ⟨⟨⟨?_, fun C V n hn => ?_, fun C F n hn => (h.rets C F n hn).mono hlater.le hkind,
    fun n o hn ho => ?_⟩, h.null.mono hlater.le hkind, h.uni.mono hlater.le hkind,
    fun u v huv => ?_⟩, hlater⟩
  · rw [hcore]
    exact hshape
  · obtain ⟨h1, h2⟩ := h.ptrs C V n hn
    exact ⟨h1.trans_le hlater.le, (hkind n h1).trans h2⟩
  · rw [hgraph, hs.nodeNum] at hn
    exact h.objs n o hn ((hkind n hn).symm.trans ho)
  · rw [hgraph] at huv ⊢
    simp only [hs.getSuperNode]
    rcases (mem_succ_insertConstraint ..).mp huv with huv | ⟨hk, rfl, rfl, -⟩
    · obtain ⟨m, ⟨C, I, base, h1, h2, h3⟩, h4⟩ := h.offset u v huv
      have hv := (h.shape.inv.edge_lt _ _ _ huv).2
      exact ⟨m, ⟨C, I, base, (hkind v hv).trans h1, h2, h3⟩, h4⟩
    · have hk' : k = .offset := by
        rw [Constraints.stored] at hk
        split at hk
        · cases hk
        · exact hk.symm
      subst hk'
      obtain ⟨hd', C, I, base, h1, h2, h3⟩ := hoff rfl
      refine ⟨a, ?_, rfl⟩
      rw [getSuperNode_of_none (h.shape.gep_fixed d hd').1]
      exact ⟨C, I, base, (hkind d hd).trans h1, h2, h3⟩

omit [DecidableEq Ctx] in
/-- a constraint between two pointers, of which the second is no `getelementptr` if it is fed -/
theorem edge (h : Placed P T b) {a d : NodeID} {U V : Val} {k : Constraints}
    (ha : HoldsPtr b.core.graph a U) (hd : HoldsPtr b.core.graph d V) (hk : k ≠ .addrOf)
    (hk' : k ≠ .offset) (hgep : k = .copy ∨ k = .load → (P.instr V).isGEP = false) :
    Placed P T (b.addConstraints a d k) ∧ Later P T b (b.addConstraints a d k) := by
  refine h.addConstraints ha.1 hd.1 (hd.not_isAddr h.shape) (fun h1 => absurd h1 hk) (fun h1 => ?_)
    (fun h1 => absurd h1 hk')
  rintro ⟨I, hI, hI'⟩
  rw [hd.inj hI] at hgep
  rw [hgep h1] at hI'
  cases hI'

omit [DecidableEq Ctx] in
/-- the address of an object is taken by any pointer -/
theorem address (h : Placed P T b) {a d : NodeID} {o : FSObject Ctx Val} {V : Val}
    (ha : a < b.core.graph.nodeNum) (ho : b.core.graph.kind a = .objNode o)
    (hd : HoldsPtr b.core.graph d V) :
    Placed P T (b.addConstraints a d .addrOf) ∧ Later P T b (b.addConstraints a d .addrOf) :=
  h.addConstraints ha hd.1 (hd.not_isAddr h.shape) (fun _ => ⟨o, ho⟩)
    (fun h1 => (by rcases h1 with h1 | h1 <;> cases h1)) fun h1 => (by cases h1)

/-- a new block, and a new pointer to it -/
theorem allocPtr (h : Placed P T b) {C : Ctx} {V : Val} {obj ptr : Builder Ctx Fun Val × NodeID}
    (hobj : b.allocate C V = .ok obj) (hptr : obj.1.createPtrNode C V = .ok ptr) :
    Placed P T (ptr.1.addConstraints obj.2 ptr.2 .addrOf) ∧
      Later P T b (ptr.1.addConstraints obj.2 ptr.2 .addrOf) := by
  obtain ⟨h1, l1, hlt, hk⟩ := h.allocate hobj
  obtain ⟨h2, l2, hp⟩ := h1.createPtrNode hptr
  obtain ⟨h3, l3⟩ := h2.address (hlt.trans_le l2.le) ((l2.kind _ hlt).trans hk) hp
  exact ⟨h3, (l1.trans l2).trans l3⟩

/-- two nodes are got or made, and an edge is put between them -/
theorem addEdge (h : Placed P T b) (C : Ctx) (first second : Val)
    {edge : NodeID → NodeID → Builder Ctx Fun Val → Builder Ctx Fun Val}
    (hedge : ∀ m n (b' : Builder Ctx Fun Val), Placed P T b' →
      getPtrNodeOrNull P T b' C first = some m → getPtrNodeOrNull P T b' C second = some n →
      Placed P T (edge m n b') ∧ Later P T b' (edge m n b')) :
    Placed P T (Builder.addEdge P T b C first second edge) ∧
      Later P T b (Builder.addEdge P T b C first second edge) := by
  obtain ⟨h1, l1, hget1⟩ := h.getOrCreate C first
  obtain ⟨h2, l2, hget2⟩ := h1.getOrCreate C second
  obtain ⟨h3, l3⟩ := hedge _ _ _ h2 (l2.lookup _ _ _ hget1) hget2
  exact ⟨h3, (l1.trans l2).trans l3⟩

/-- the operands of a `phi` or a `select` -/
theorem incoming (h : Placed P T b) (C : Ctx) {I : Val} (hI : P.canonicalize I = I)
    (hgep : (P.instr I).isGEP = false) (l : List Val) :
    let dst := getOrCreatePtrNode P T b C I
    Placed P T (l.foldl (addIncoming P T C dst.2) dst.1) ∧
      Later P T b (l.foldl (addIncoming P T C dst.2) dst.1) := by
  intro dst
  obtain ⟨h1, l1, hget⟩ := h.getOrCreate C I
  have hinv := foldl_inv (f := addIncoming P T C dst.2) (l := l)
    (I := fun b' => Placed P T b' ∧ Later P T b b' ∧ getPtrNodeOrNull P T b' C I = some dst.2)
    (fun b' V _ hI' => by
      obtain ⟨h2, l2, hget2⟩ := hI'
      obtain ⟨h3, l3, hget3⟩ := h2.getOrCreate C V
      have hdst := l3.lookup _ _ _ hget2
      have hholds := h3.lookup hdst
      rw [hI] at hholds
      obtain ⟨h4, l4⟩ := h3.edge (k := .copy) (h3.lookup hget3) hholds (by decide) (by decide)
        fun _ => hgep
      exact ⟨h4, (l2.trans l3).trans l4, l4.lookup _ _ _ hdst⟩)
    ⟨h1, l1, hget⟩
  exact ⟨hinv.1, hinv.2.1⟩

/-- the visit of a `getelementptr` that is not stripped -/
theorem visitGep (h : Placed P T b) (hP : P.Canonical) (C : Ctx) {I base : Val}
    (hI : P.instr I = .getElementPtr base) :
    Placed P T (visitGetElementPtrInst P T b C I base) ∧
      Later P T b (visitGetElementPtrInst P T b C I base) := by
  unfold visitGetElementPtrInst
  dsimp only
  split
  · rename_i hne
    have hcan := hP.gep I base hI hne
    have hgep : (P.instr I).isGEP = true := by rw [hI]; rfl
    rw [hcan]
    refine h.addEdge C I (P.canonicalize base) fun m n b' h' hm hn => ?_
    have hhm := h'.lookup hm
    have hkm := h'.lookup_local (by rw [hcan]; exact hP.gepLocal I hgep) hm
    rw [hcan] at hhm hkm
    refine h'.addConstraints (h'.lookup hn).1 hhm.1 (hhm.not_isAddr h'.shape)
      (fun h1 => (by cases h1)) (fun h1 => (by rcases h1 with h1 | h1 <;> cases h1)) fun _ => ?_
    exact ⟨⟨I, hhm, hgep⟩, C, I, base, hkm, hI, hn⟩
  · exact ⟨h, .refl b⟩

/-- the visitors of instructions -/
theorem visit (h : Placed P T b) (hP : P.Canonical) {C : Ctx} {F : Fun} {I : Val}
    (hr : visit P T C F b I = .ok b') : Placed P T b' ∧ Later P T b b' := by
  unfold Builder.visit at hr
  cases hI : P.instr I with
  | alloca =>
    rw [hI] at hr
    obtain ⟨obj, hobj, hr⟩ := bind_ok hr
    obtain ⟨ptr, hptr, hr⟩ := bind_ok hr
    cases hr
    exact h.allocPtr hobj hptr
  | load ptr =>
    rw [hI] at hr
    cases hr
    unfold visitLoadInst
    split
    · refine h.addEdge C ptr I fun m n b' h' hm hn => ?_
      have hhn := h'.lookup hn
      rw [hP.load I ptr hI] at hhn
      exact h'.edge (h'.lookup hm) hhn (by decide) (by decide) fun _ => (by rw [hI]; rfl)
    · exact ⟨h, .refl b⟩
  | store value ptr =>
    rw [hI] at hr
    cases hr
    unfold visitStoreInst
    dsimp only
    split
    · split
      · exact ⟨h, .refl b⟩
      · refine h.addEdge C value ptr fun m n b' h' hm hn => ?_
        exact h'.edge (h'.lookup hm) (h'.lookup hn) (by decide) (by decide)
          fun h1 => (by rcases h1 with h1 | h1 <;> cases h1)
    · exact ⟨h, .refl b⟩
  | getElementPtr base =>
    rw [hI] at hr
    cases hr
    exact h.visitGep hP C hI
  | phi incoming =>
    rw [hI] at hr
    cases hr
    unfold visitPHINode
    split
    · exact h.incoming C (hP.phi I incoming hI) (by rw [hI]; rfl) _
    · exact ⟨h, .refl b⟩
  | select t f =>
    rw [hI] at hr
    cases hr
    unfold visitSelectInst
    split
    · exact h.incoming C (hP.select I t f hI) (by rw [hI]; rfl) _
    · exact ⟨h, .refl b⟩
  | call cs =>
    rw [hI] at hr
    cases hr
    unfold visitCallSite
    split
    · split
      · exact ⟨h, .refl b⟩
      · exact ⟨(h.getOrCreate C I).1, (h.getOrCreate C I).2.1⟩
    · exact ⟨h, .refl b⟩
  | memcpy source dest cs =>
    rw [hI] at hr
    cases hr
    exact h.addEdge C source dest fun m n b' h' _ _ => ⟨h', .refl b'⟩
  | ret value =>
    rw [hI] at hr
    unfold visitReturnInst at hr
    cases value with
    | none =>
      cases hr
      exact ⟨h, .refl b⟩
    | some V =>
      dsimp only at hr
      split at hr
      · obtain ⟨m, hm, hr⟩ := bind_ok hr
        obtain ⟨n, hn, hr⟩ := bind_ok hr
        cases hr
        exact h.edge (h.lookup (getPtrNode_ok hm)) (h.rets _ _ _ (getRetNode_ok hn)) (by decide)
          (by decide) fun _ => hP.function F
      · cases hr
        exact ⟨h, .refl b⟩
  | extractValue =>
    rw [hI] at hr
    cases hr
    unfold visitExtractValueInst
    split
    · exact ⟨(h.getOrCreate C I).1, (h.getOrCreate C I).2.1⟩
    · exact ⟨h, .refl b⟩
  | other =>
    rw [hI] at hr
    cases hr
    exact ⟨h, .refl b⟩

/-! ### functions and calls -/

theorem initFunction [DecidableEq Fun] (h : Placed P T b) (hP : P.Canonical) {C : Ctx} {F : Fun}
    (hr : initFunction P T b C F = .ok b') : Placed P T b' := by
  unfold Builder.initFunction at hr
  split at hr
  · obtain ⟨b1, hb1, hr⟩ := bind_ok hr
    obtain ⟨b2, hb2, hr⟩ := bind_ok hr
    have h1 : Placed P T b1 := by
      unfold initReturn at hb1
      split at hb1
      · exact (h.createRetNode hb1).1
      · cases hb1
        exact h
    have h2 : Placed P T b2 := by
      refine foldlM_ok (I := Placed P T) (fun b A _ hb b' hr => ?_) h1 hb2
      unfold initArgument at hr
      split at hr
      · cases hc : b.createPtrNode C A with
        | error e =>
          rw [hc] at hr
          cases hr
        | ok r =>
          rw [hc] at hr
          cases hr
          exact (hb.createPtrNode hc).1
      · cases hr
        exact hb
    exact foldlM_ok (I := Placed P T) (fun b I _ hb b' hr => (hb.visit hP hr).1) h2 hr
  · cases hr
    exact h

omit [DecidableEq Ctx] in
theorem initIndirectCall (h : Placed P T b) {C : Ctx} {value : Val} {callNode : CallNodeID}
    (hr : initIndirectCall P T b C value callNode = .ok b') : Placed P T b' := by
  obtain ⟨n, hn, hr⟩ := bind_ok hr
  cases hr
  obtain ⟨hk, -, hsucc, -⟩ := maps_setIndirectCallNode (g := b.core.graph) n callNode
  refine ⟨⟨?_, ?_, ?_, ?_⟩, ?_, ?_, ?_⟩
  · refine (h.shape.setIndirectCallNode n callNode).congr fun m => ?_
    have hlt : b.core.graph.nodeNum ≤ (b.core.graph.setIndirectCallNode n callNode).nodeNum := le_rfl
    exact gepNode_congr hlt (fun n _ => congrFun hk n)
      (fun n hn hn' => absurd hn' (Nat.not_lt_of_le hn)) m
  · simp only [hk]
    exact h.ptrs
  · exact fun C F n hn => (h.rets C F n hn).mono le_rfl fun n _ => congrFun hk n
  · simp only [hk]
    exact h.objs
  · exact h.null.mono le_rfl fun n _ => congrFun hk n
  · exact h.uni.mono le_rfl fun n _ => congrFun hk n
  · intro u d hd
    dsimp only at hd
    rw [hsucc] at hd
    obtain ⟨m, ⟨C, I, base, h1, h2, h3⟩, h4⟩ := h.offset u d hd
    refine ⟨m, ⟨C, I, base, (congrFun hk d).trans h1, h2, h3⟩, ?_⟩
    exact h4.trans (getSuperNode_setIndirectCallNode n callNode m).symm

omit [DecidableEq Ctx] in
/-- a copy into an argument -/
theorem copyArgument (h : Placed P T b) (hP : P.Canonical) {F : Fun} {A V : Val} (hA : A ∈ P.args F)
    {C C' : Ctx} {m n : NodeID} (hm : getPtrNode P T b C V = .ok m)
    (hn : getPtrNode P T b C' A = .ok n) :
    Placed P T (b.addConstraints m n .copy) := by
  obtain ⟨hcan, hgep⟩ := hP.argument F A hA
  have hhn := h.lookup (getPtrNode_ok hn)
  rw [hcan] at hhn
  exact (h.edge (h.lookup (getPtrNode_ok hm)) hhn (by decide) (by decide) fun _ => hgep).1

omit [DecidableEq Ctx] in
theorem linkArgs (hP : P.Canonical) {F : Fun} {C C' : Ctx} {actuals formals rest : List Val}
    (hF : ∀ A ∈ formals, A ∈ P.args F) (h : Placed P T b)
    (hr : linkArgs P T C C' actuals formals b = .ok (b', rest)) : Placed P T b' := by
  induction formals generalizing actuals b with
  | nil =>
    cases actuals <;> cases hr <;> exact h
  | cons formal formals ih =>
    cases actuals with
    | nil => cases hr
    | cons actual actuals =>
      have hF' : ∀ A ∈ formals, A ∈ P.args F := fun A hA => hF A (List.mem_cons_of_mem _ hA)
      unfold Builder.linkArgs at hr
      split at hr
      · cases hr
      · split at hr
        · obtain ⟨m, hm, hr⟩ := bind_ok hr
          obtain ⟨n, hn, hr⟩ := bind_ok hr
          exact ih hF' (h.copyArgument hP (hF _ (List.mem_cons_self ..)) hm hn) hr
        · exact ih hF' h hr

theorem interceptHeapAllocSite (h : Placed P T b) {C : Ctx} {I : Val}
    (hr : interceptHeapAllocSite P T b C I = .ok b') : Placed P T b' := by
  obtain ⟨obj, hobj, hr⟩ := bind_ok hr
  obtain ⟨ptr, hptr, hr⟩ := bind_ok hr
  cases hr
  obtain ⟨h1, l1, hlt, hk⟩ := h.allocate hobj
  exact (h1.address hlt hk (h1.lookup (getPtrNode_ok hptr))).1

omit [DecidableEq Ctx] in
theorem interceptThreadCreation (h : Placed P T b) (hP : P.Canonical) {C C' : Ctx} {F : Fun}
    {cs : CallInst Fun Val} (hr : interceptThreadCreation P T b C C' F cs = .ok b') :
    Placed P T b' := by
  unfold Builder.interceptThreadCreation at hr
  split at hr
  · rename_i arg operand harg hop
    obtain ⟨n, hn, hr⟩ := bind_ok hr
    obtain ⟨m, hm, hr⟩ := bind_ok hr
    cases hr
    exact h.copyArgument hP (F := F) (by rw [harg]; exact List.mem_cons_self ..) hm hn
  · cases hr

omit [DecidableEq Ctx] in
theorem linkReturn (h : Placed P T b) {C C' : Ctx} {F : Fun} {I : Val}
    {cs : CallInst Fun Val} (hI : cs.returnedArg = none → P.canonicalize I = I)
    (hgep : (P.instr I).isGEP = false)
    (hr : linkReturn P T b C C' F I cs = .ok b') : Placed P T b' := by
  unfold Builder.linkReturn at hr
  split at hr
  · split at hr
    · cases hr
    · cases hr
      exact h
  · rename_i hret
    split at hr
    · obtain ⟨m, hm, hr⟩ := bind_ok hr
      obtain ⟨n, hn, hr⟩ := bind_ok hr
      cases hr
      have hhn := h.lookup (getPtrNode_ok hn)
      rw [hI hret] at hhn
      exact (h.edge (h.rets _ _ _ (getRetNode_ok hm)) hhn (by decide) (by decide) fun _ => hgep).1
    · cases hr
      exact h

theorem processCallSite [DecidableEq Fun] [DecidableEq Ty] {L : LangModel Fun Val Ty}
    (h : Placed P T b) (hP : P.Canonical) {C C' : Ctx} {caller callee : Fun} {I : Val}
    (hr : processCallSite P T L b C caller C' callee I = .ok b') : Placed P T b' := by
  unfold Builder.processCallSite at hr
  split at hr
  · cases hr
  · rename_i cs hcs
    have hgep : (P.instr I).isGEP = false := by
      cases hI : P.instr I <;> first | rfl | (rw [hI] at hcs; cases hcs)
    split at hr
    · cases hr
    split at hr
    · exact h.interceptHeapAllocSite hr
    split at hr
    · exact h.interceptThreadCreation hP hr
    split at hr
    · cases hr
    rename_i htarget
    split at hr
    · cases hr
    split at hr
    · cases hr
    split at hr
    · rename_i hbody
      obtain ⟨r, hlink, hr⟩ := bind_ok hr
      have h1 : Placed P T r.1 := linkArgs hP (fun A hA => hA) h hlink
      split at hr
      · cases hr
      · refine h1.linkReturn (fun hret => hP.call I cs hcs hret fun F hF => ?_) hgep hr
        exact CallInst.not_intrinsic (not_not.mp htarget) hbody hF
    · cases hr
      exact h

end Placed

end Builder

/-! ## the globals -/

namespace Builder

variable (P : Program Fun Val Ty) (T : CtxDomain Ctx Val) [DecidableEq Ctx] [DecidableEq Fun]
  [DecidableEq Val]

/-- what the initializer of a global adds: the node of a field, and addresses that fields hold -/
inductive GlobalStep (b : Builder Ctx Fun Val) : Builder Ctx Fun Val → Prop where
  | field (V : Val) (pOffset : Nat) : (T.getGlobalCtx, V) ∈ b.memBlockMap →
      (∀ n < b.core.graph.nodeNum, b.core.graph.kind n ≠ .objNode ⟨T.getGlobalCtx, V, pOffset⟩) →
      GlobalStep b { b with core := b.core.addCGNode (.objNode ⟨T.getGlobalCtx, V, pOffset⟩) }
  | addrOf (src dst : NodeID) (o o' : FSObject Ctx Val) : src < b.core.graph.nodeNum →
      dst < b.core.graph.nodeNum → b.core.graph.kind src = .objNode o →
      b.core.graph.kind dst = .objNode o' → GlobalStep b (b.addConstraints src dst .addrOf)

/-- the builder before the entry function is visited -/
inductive Globals : Builder Ctx Fun Val → Prop where
  | start {b b' : Builder Ctx Fun Val} : initial P T = .ok b → addGlobals P T b = .ok b' → Globals b'
  | step {b b' : Builder Ctx Fun Val} : Globals b → GlobalStep T b b' → Globals b'

end Builder

namespace Builder

variable {P : Program Fun Val Ty} {T : CtxDomain Ctx Val} {b b' : Builder Ctx Fun Val}

theorem Nodes.empty (P : Program Fun Val Ty) : Nodes P ({} : Builder Ctx Fun Val) := by
  have hshape := (Tracks.empty ⟨fun _ (_ : Pointer Ctx Val) => (none : Option (FSObject Ctx Val)), ∅,
    fun _ _ _ h => (by cases h)⟩).shape
  refine ⟨hshape.congr fun n => ⟨fun h => h.elim, ?_⟩, fun C V n hn => (by cases hn),
    fun C F n hn => (by cases hn), fun n o hn => absurd hn (Nat.not_lt_zero n)⟩
  rintro ⟨I, ⟨hn, -⟩, -⟩
  exact Nat.not_lt_zero n hn

variable [DecidableEq Ctx] [DecidableEq Val]

theorem Nodes.createPtrNode (h : Nodes P b) {C : Ctx} {V : Val} {r : Builder Ctx Fun Val × NodeID}
    (hr : b.createPtrNode C V = .ok r) :
    Nodes P r.1 ∧ NodeAdded b.core.graph r.1.core.graph (.ptrNode (some ⟨C, V⟩)) ∧
      r.2 = b.core.graph.nodeNum := by
  unfold Builder.createPtrNode at hr
  split at hr
  · cases hr
  · cases hr
    obtain ⟨h1, hadd⟩ := h.insertPtr C V
    exact ⟨h1, hadd, rfl⟩

theorem initial_placed (hr : initial P T = .ok b) : Placed P T b := by
  unfold initial at hr
  obtain ⟨nullPtr, hnull, hr⟩ := bind_ok hr
  obtain ⟨uniPtr, huni, hr⟩ := bind_ok hr
  obtain ⟨nullObj, hnullObj, hr⟩ := bind_ok hr
  obtain ⟨uniObj, huniObj, hr⟩ := bind_ok hr
  cases hr
  obtain ⟨h1, a1, e1⟩ := (Nodes.empty P).createPtrNode hnull
  obtain ⟨h2, a2, e2⟩ := h1.createPtrNode huni
  obtain ⟨h3, a3, -⟩ := h2.allocate hnullObj
  obtain ⟨h4, a4, -⟩ := h3.allocate huniObj
  have hholds : HoldsPtr nullPtr.1.core.graph nullPtr.2 P.nullValue :=
    e1 ▸ ⟨a1.lt, _, a1.kind_new⟩
  have hholds' : HoldsPtr uniPtr.1.core.graph uniPtr.2 P.uniValue := e2 ▸ ⟨a2.lt, _, a2.kind_new⟩
  refine ⟨⟨h4.shape, h4.ptrs, h4.rets, h4.objs⟩, ?_, ?_, fun u d hd => ?_⟩
  · exact ((hholds.mono a2.lt.le a2.kind_old).mono a3.lt.le a3.kind_old).mono a4.lt.le a4.kind_old
  · exact (hholds'.mono a3.lt.le a3.kind_old).mono a4.lt.le a4.kind_old
  · -- there are no offset edges yet
    dsimp only at hd
    rw [a4.succ .offset (by decide), a3.succ .offset (by decide), a2.succ .offset (by decide),
      a1.succ .offset (by decide)] at hd
    cases hd

namespace Placed

theorem addGlobals (h : Placed P T b) (hr : addGlobals P T b = .ok b') : Placed P T b' := by
  have hstep : ∀ (b : Builder Ctx Fun Val) V, Placed P T b → ∀ b', addGlobal T b V = .ok b' →
      Placed P T b' := by
    intro b V hb b' hr
    obtain ⟨obj, hobj, hr⟩ := bind_ok hr
    obtain ⟨ptr, hptr, hr⟩ := bind_ok hr
    cases hr
    exact (hb.allocPtr hobj hptr).1
  obtain ⟨b1, hb1, hr⟩ := bind_ok hr
  exact foldlM_ok (fun b V _ => hstep b V) (foldlM_ok (fun b V _ => hstep b V) h hb1) hr

omit [DecidableEq Ctx] in
theorem globalStep (h : Placed P T b) (hs : GlobalStep T b b') : Placed P T b' := by
  cases hs with
  | field V pOffset hblock hfree =>
    have hadd := h.shape.nodeAdded (.objNode ⟨T.getGlobalCtx, V, pOffset⟩)
    have hn := h.toNodes.addObj hfree (List.Subset.refl _) hblock
    exact (h.nodeAdded hn hadd (fun k n hk => hk) rfl rfl).1
  | addrOf src dst o o' hsrc hdst ho ho' =>
    refine (h.addConstraints hsrc hdst (fun ha => ?_) (fun _ => ⟨o, ho⟩)
      (fun h1 => (by rcases h1 with h1 | h1 <;> cases h1)) fun h1 => (by cases h1)).1
    rw [(h.shape.kind_of_isAddr ha).1] at ho'
    cases ho'

/-- a step of a solver -/
theorem step {M : MemModel (FSObject Ctx Val) (Pointer Ctx Val)} {w : Walk} (hM : KeepsBlock M)
    (h : Placed P T b) {c : Core (FSObject Ctx Val) (Pointer Ctx Val)}
    (hs : Core.Step M w b.core c) : Placed P T { b with core := c } := by
  have hkeep := h.shape.offset_step hs
  obtain ⟨hle, hname⟩ := h.shape.name_step hs
  have hkind : ∀ n < b.core.graph.nodeNum, c.graph.kind n = b.core.graph.kind n :=
    fun n hn => (hname n hn).2
  refine ⟨⟨?_, fun C V n hn => ?_, fun C F n hn => (h.rets C F n hn).mono hle hkind,
    fun n o hn ho => ?_⟩, h.null.mono hle hkind, h.uni.mono hle hkind, fun u d hd => ?_⟩
  · exact (h.shape.step hs).congr (gepNode_congr hle hkind hkeep.kind)
  · obtain ⟨h1, h2⟩ := h.ptrs C V n hn
    exact ⟨h1.trans_le hle, (hkind n h1).trans h2⟩
  · rcases h.shape.obj_step hs hn ho with ⟨h1, h2⟩ | ⟨x, o', gep, h1, h2, h3⟩
    · exact h.objs n o h1 h2
    · obtain ⟨hC, hV⟩ := hM o' gep o h3
      rw [hC, hV]
      exact h.objs x o' h1 h2
  · obtain ⟨u0, hd0, rfl⟩ := hkeep.offset u d hd
    obtain ⟨m, ⟨C, I, base, h1, h2, h3⟩, h4⟩ := h.offset u0 d hd0
    have hdlt := (h.shape.inv.edge_lt _ _ _ hd0).2
    refine ⟨m, ⟨C, I, base, (hkind d hdlt).trans h1, h2, h3⟩, hkeep.merged _ _ ?_⟩
    rw [← h4, getSuperNode_of_none (h.shape.inv.source_none hd0)]

omit [DecidableEq Ctx] in
/-- no invariant is about `updatedFunPtrs` -/
theorem clearFunPtrs (h : Placed P T b) :
    Placed P T { b with core := { b.core with updatedFunPtrs := ∅ } } :=
  ⟨⟨⟨h.shape.inv, h.shape.addrNodes, h.shape.wf, h.shape.uniq, h.shape.addr_fixed,
    h.shape.gep_fixed, h.shape.pts_lt, h.shape.pts_obj, h.shape.pts_addr, h.shape.handled_gep,
    h.shape.handled_lt⟩, h.ptrs, h.rets, h.objs⟩, h.null, h.uni, h.offset⟩

end Placed

theorem Globals.placed (h : Globals P T b) : Placed P T b := by
  induction h with
  | start hinit hadd => exact (initial_placed hinit).addGlobals hadd
  | step _ hs ih => exact ih.globalStep hs

end Builder

/-! ## a field of a local variable -/

/-- The function has an alloca (10) and a `getelementptr` of it (11). -/
def fieldProgram : Program Unit Nat Unit where
  globals := []
  functions := [()]
  value _ := 0
  asFunction V := if V = 0 then some () else none
  isGlobalValue V := V = 0
  args _ := []
  blocks _ := [⟨[10, 11], []⟩]
  instr V := if V = 10 then .alloca else if V = 11 then .getElementPtr 10 else .other
  sig _ := ⟨(), [], false⟩
  isDeclaration _ := false
  isIntrinsic _ := false
  type _ := ()
  isPointerTy _ := true
  fnPtr _ := ()
  canonicalize V := V
  nullValue := 1
  uniValue := 2

theorem fieldProgram_layout : fieldProgram.Layout := ⟨fun _ => (by decide : [10, 11].Nodup), fun _ _ => rfl⟩

theorem fieldProgram_isGEP (V : Nat) : (fieldProgram.instr V).isGEP = true → V = 11 := by
  unfold fieldProgram
  dsimp only
  split
  · exact fun h => (by cases h)
  · split
    · exact fun _ => ‹_›
    · exact fun h => (by cases h)

theorem fieldProgram_canonical : fieldProgram.Canonical where
  gep _ _ _ _ := rfl
  load _ _ _ := rfl
  phi _ _ _ := rfl
  select _ _ _ _ := rfl
  call _ _ _ _ _ := rfl
  argument _ _ h := by cases h
  function _ := rfl
  gepLocal I h := by
    rw [fieldProgram_isGEP I h]
    decide

def fieldLang : LangModel Unit Nat Unit := ⟨fun _ => false, fun _ => false, fun _ => none, ()⟩

def fieldCtx : CtxDomain Unit Nat := ⟨(), (), fun _ _ => ()⟩

/-- no object has fields -/
def fieldMem : MemModel (FSObject Unit Nat) (Pointer Unit Nat) :=
  ⟨fun _ _ => none, ∅, fun _ _ _ h => (by cases h)⟩

theorem fieldMem_keepsBlock : KeepsBlock fieldMem := fun _ _ _ h => by cases h

end AserPTA
