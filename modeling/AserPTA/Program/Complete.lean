import AserPTA.Program.Rounds

/-!
# What can be derived is found

When a round resolves nothing, the call graph and the points-to sets are closed under the rules of the
analysis: the events that happen and the objects that the nodes point to are a model of them.

* `Stores`         what the initializers of the globals store, read off the graph;
* `Globals.emits`  the graph of the globals has their constraints;
* `Holds`          what a cell points to in the result;
* `Closed`         what a closed graph says of a constraint between two cells;
* `Rounds.stable`  after a round that resolves nothing the graph is still closed;
* `Result`         what the last round leaves, as far as the rules are concerned;
* `Rounds.model`   the result is a model, so that whatever can be derived is found.
-/

namespace AserPTA

open ConsGraph AserPTA.Core Loop Relation

variable {Ctx Fun Val Ty : Type}

/-! ## constraints between cells -/

/-- the assignment `D` satisfies the constraint between the two cells -/
def Cell.Meets (M : MemModel (FSObject Ctx Val) (Pointer Ctx Val))
    (D : Cell Ctx Fun Val → FSObject Ctx Val → Prop) (x y : Cell Ctx Fun Val) : Constraints → Prop
  | .copy => ∀ o, D x o → D y o
  | .load => ∀ p o, D x p → D (.obj p) o → D y o
  | .store => ∀ p o, D y p → D x o → D (.obj p) o
  | .offset => ∀ o f, D x o → y.index M o = some f → D y f
  | .addrOf => ∀ o, x = .obj o → D y o

/-- a model of the rules satisfies the constraints of its events, and the other way round -/
theorem Inclusion.Dynamic.Model.meets [DecidableEq Fun] [DecidableEq Val] [DecidableEq Ty]
    {P : Program Fun Val Ty} {T : CtxDomain Ctx Val} {L : LangModel Fun Val Ty}
    {M : MemModel (FSObject Ctx Val) (Pointer Ctx Val)} {main : Fun}
    {init : FSObject Ctx Val → FSObject Ctx Val → Prop} {R : Event Ctx Fun Val → Prop}
    {D : Cell Ctx Fun Val → FSObject Ctx Val → Prop} (h : (analysis P T L M main init).Model R D)
    {ev : Event Ctx Fun Val} (hev : R ev) {k : Constraints} {x y : Cell Ctx Fun Val}
    (hk : EventCons P T L init ev k x y) : Cell.Meets M D x y k := by
  cases k with
  | copy => exact fun o => h.copy ev x y o hev hk
  | load => exact fun p o => h.load ev x y p o hev hk
  | store => exact fun p o => h.store ev x y p o hev hk
  | offset => exact fun o f => h.offset ev x y o f hev hk
  | addrOf =>
    rintro o rfl
    exact h.base ev y o hev hk

/-! ## closed graphs -/

namespace Core.Closed

variable {Obj Val : Type} {M : MemModel Obj Val} {c : Core Obj Val} {G : NodeID → Prop} {u v x : NodeID}
  {o p : Obj}

theorem pts_subset (h : c.Closed M) (huv : c.graph.Covers .copy u v) :
    c.pts (c.graph.getSuperNode u) ⊆ c.pts (c.graph.getSuperNode v) := by
  rcases huv with huv | ⟨-, he⟩
  · exact h.copy _ _ huv
  · rw [he]

theorem pointsTo_copy (h : c.Closed M) (huv : c.graph.Covers .copy u v) (ho : c.PointsTo u o) :
    c.PointsTo v o := by
  obtain ⟨y, hy, hyo⟩ := ho
  exact ⟨y, h.pts_subset huv hy, hyo⟩

/-- the address node of an object points to it -/
theorem pointsTo_addr (h : c.Closed M) (hc : c.Shape G) (hx : x < c.graph.nodeNum)
    (ho : c.graph.kind x = .objNode o) (hxv : c.graph.Covers .copy (x + 1) v) : c.PointsTo v o := by
  refine h.pointsTo_copy hxv ⟨x, ?_, ho⟩
  rw [getSuperNode_of_none (hc.addr_fixed _ (Shape.isAddr_succ hx ho)).1, hc.pts_addr x o hx ho]
  exact Finset.mem_singleton_self x

theorem pointsTo_rep (hc : c.Shape G) : c.PointsTo (c.graph.getSuperNode v) o ↔ c.PointsTo v o := by
  unfold PointsTo
  rw [getSuperNode_of_none (hc.inv.superOf_getSuperNode v)]

theorem pointsTo_load (h : c.Closed M) (hc : c.Shape G) (huv : c.graph.Covers .load u v)
    (hp : c.PointsTo u p) (hx : x < c.graph.nodeNum) (hxp : c.graph.kind x = .objNode p)
    (ho : c.PointsTo x o) : c.PointsTo v o := by
  obtain ⟨y, hy, hyp⟩ := hp
  obtain rfl := hc.uniq x y p hx (hc.pts_obj _ y hy).1 hxp hyp
  rcases huv with huv | ⟨he, -⟩
  · exact (pointsTo_rep hc).mp (h.pointsTo_copy (h.load _ _ huv x hy) ho)
  · cases he

theorem pointsTo_store (h : c.Closed M) (hc : c.Shape G) (huv : c.graph.Covers .store u v)
    (hp : c.PointsTo v p) (ho : c.PointsTo u o) :
    ∃ x < c.graph.nodeNum, c.graph.kind x = .objNode p ∧ c.PointsTo x o := by
  obtain ⟨x, hx, hxp⟩ := hp
  refine ⟨x, (hc.pts_obj _ x hx).1, hxp, ?_⟩
  rcases huv with huv | ⟨he, -⟩
  · exact h.pointsTo_copy (h.store _ _ huv x hx) ((pointsTo_rep hc).mpr ho)
  · cases he

theorem pointsTo_offset (h : c.Closed M) (hc : c.Shape G) (huv : c.graph.Covers .offset u v)
    {gep : Val} (hk : c.graph.kind v = .ptrNode (some gep)) (ho : c.PointsTo u o) {f : Obj}
    (hf : M.indexObject o gep = some f) : c.PointsTo v f := by
  rcases huv with huv | ⟨he, -⟩
  · have hg := hc.wf.gep_target _ _ huv
    have hself : v = c.graph.getSuperNode v := hc.rep_eq_fixed (hc.gep_fixed _ hg).2 rfl
    rw [← hself] at huv
    obtain ⟨x, hx, hxo⟩ := ho
    obtain ⟨i, hi, hif, hcase⟩ := h.indexed v x (h.offset _ _ huv hx) o gep f hxo hk hf
    refine ⟨i, ?_, hif⟩
    rw [← hself]
    rcases hcase with hcase | hcase
    · exact hcase
    · refine h.copy _ _ hcase ?_
      rw [hc.pts_addr i f hi hif]
      exact Finset.mem_singleton_self i
  · cases he

end Core.Closed

/-! ## the globals -/

namespace Builder

variable {P : Program Fun Val Ty} {T : CtxDomain Ctx Val} {b b' : Builder Ctx Fun Val}

/-- the graph stores the address of `o'` in `o` -/
def Stores (b : Builder Ctx Fun Val) (o o' : FSObject Ctx Val) : Prop :=
  ∃ m n, b.NodeOf (.obj o') m ∧ b.NodeOf (.obj o) n ∧ n ∈ b.core.graph.succ .copy (m + 1)

variable [DecidableEq Ctx] [DecidableEq Fun] [DecidableEq Val]

/-- a step of an initializer is an addition -/
theorem GlobalStep.addition (hs : GlobalStep T b b') :
    Addition P T (GlobalCons P T fun _ _ => True) b b' := by
  cases hs with
  | field V pOffset hblock hfree => exact .field V pOffset hblock hfree
  | addrOf src dst o o' hsrc hdst ho ho' =>
    exact .cons (x := .obj o) (y := .obj o') (.init (o := o') trivial) ⟨hsrc, ho⟩ ⟨hdst, ho'⟩

/-- the builder before the entry function is visited, and the pointers to the globals -/
theorem Globals.emits (hP : P.Canonical) (h : Globals P T b) :
    Settled P T b ∧ ∀ k x y, GlobalCons P T b.Stores k x y → b.Has k x y := by
  have hlegal : Legal P T (GlobalCons P T fun _ _ : FSObject Ctx Val => True) := legal_global _
  have hall : Settled P T b ∧ ∀ V ∈ P.globals ++ P.functions.map P.value,
      b.Has .addrOf (.obj ⟨T.getGlobalCtx, V, 0⟩) (.ptr T.getGlobalCtx V) := by
    induction h with
    | start hinit hadd =>
      have h0 := Settled.initial hinit
      obtain ⟨hadds, hhas⟩ := h0.addGlobals hP hlegal (fun V hV => .addr hV) hadd
      exact ⟨h0.additions hP hlegal hadds, hhas⟩
    | step _ hs ih =>
      obtain ⟨hr, hhas⟩ := ih
      have hadd : Additions P T (GlobalCons P T fun _ _ => True) _ _ := .single hs.addition
      exact ⟨hr.additions hP hlegal hadd, fun V hV => hr.has hP hlegal hadd (hhas V hV)⟩
  obtain ⟨hr, hhas⟩ := hall
  refine ⟨hr, fun k x y hk => ?_⟩
  cases hk with
  | addr hV => exact hhas _ hV
  | init hst =>
    obtain ⟨m, n, hm, hn, hmn⟩ := hst
    exact ⟨m, n, hm, hn, covers_of_mem hr.shape.inv hmn⟩

/-! ## the result -/

omit [DecidableEq Ctx] [DecidableEq Fun] [DecidableEq Val] in
/-- what the cell points to -/
def Holds (b : Builder Ctx Fun Val) (x : Cell Ctx Fun Val) (o : FSObject Ctx Val) : Prop :=
  ∃ n, b.NodeOf x n ∧ b.core.PointsTo n o

omit [DecidableEq Ctx] [DecidableEq Fun] [DecidableEq Val] in
/-- the constraints that a closed graph has are satisfied by what its nodes point to -/
theorem Has.meets {M : MemModel (FSObject Ctx Val) (Pointer Ctx Val)} (h : Nodes P b)
    (hcl : b.core.Closed M) {k : Constraints} {x y : Cell Ctx Fun Val} (hc : b.Has k x y) :
    Cell.Meets M b.Holds x y k := by
  obtain ⟨m, n, hm, hn, hmn⟩ := hc
  have huniq : ∀ {z : Cell Ctx Fun Val} {i j : NodeID}, b.NodeOf z i → b.NodeOf z j → i = j := by
    intro z i j hi hj
    cases z with
    | ptr C V => exact Option.some.inj (hi.symm.trans hj)
    | ret C F => exact Option.some.inj (hi.symm.trans hj)
    | obj o => exact h.shape.uniq i j o hi.1 hj.1 hi.2 hj.2
  cases k with
  | copy =>
    rintro o ⟨i, hi, ho⟩
    obtain rfl := huniq hi hm
    exact ⟨n, hn, hcl.pointsTo_copy hmn ho⟩
  | load =>
    rintro p o ⟨i, hi, hp⟩ ⟨j, hj, ho⟩
    obtain rfl := huniq hi hm
    exact ⟨n, hn, hcl.pointsTo_load h.shape hmn hp hj.1 hj.2 ho⟩
  | store =>
    rintro p o ⟨i, hi, hp⟩ ⟨j, hj, ho⟩
    obtain rfl := huniq hi hn
    obtain rfl := huniq hj hm
    obtain ⟨z, hz, hzp, hzo⟩ := hcl.pointsTo_store h.shape hmn hp ho
    exact ⟨z, ⟨hz, hzp⟩, hzo⟩
  | offset =>
    rintro o f ⟨i, hi, ho⟩ hf
    obtain rfl := huniq hi hm
    cases y with
    | ptr C V => exact ⟨n, hn, hcl.pointsTo_offset h.shape hmn (h.ptrs C V n hn).2 ho hf⟩
    | ret C F => cases hf
    | obj o' => cases hf
  | addrOf =>
    rintro o rfl
    exact ⟨n, hn, hcl.pointsTo_addr h.shape hm.1 hm.2 hmn⟩

end Builder

/-! ## the last round -/

section
variable [DecidableEq Ctx] [DecidableEq Fun] [DecidableEq Val] [DecidableEq Ty]
variable {P : Program Fun Val Ty} {hlay : P.Layout} {T : CtxDomain Ctx Val}
  {L : LangModel Fun Val Ty} {w : Walk} {MaxIndirectTarget : Nat}
  {Mem : MemModel (FSObject Ctx Val) (Pointer Ctx Val)} {main : Fun} {b₀ b : Builder Ctx Fun Val}
  {init : FSObject Ctx Val → FSObject Ctx Val → Prop} {s : Solving Ctx Fun Val}

omit [DecidableEq Fun] [DecidableEq Ty] in
/-- a run of a solver adds to the graph -/
theorem Emits.steps (hM : KeepsBlock Mem) {M : CtxModule Ctx Fun Val Val}
    (h : Emits P T L init M b) {c : Core (FSObject Ctx Val) (Pointer Ctx Val)}
    (hs : Steps Mem w b.core c) : Emits P T L init M (b.withCore c) :=
  ⟨h.settled.steps hM hs, fun ev hev k x y hk => h.settled.has_steps hs (h.has ev hev k x y hk),
    h.body, h.external, h.pending, h.edge_lt⟩

omit [DecidableEq Ctx] [DecidableEq Fun] [DecidableEq Ty] in
theorem Emits.clearFunPtrs {M : CtxModule Ctx Fun Val Val} (h : Emits P T L init M b) :
    Emits P T L init M (b.withCore { b.core with updatedFunPtrs := ∅ }) :=
  ⟨⟨h.settled.placed.clearFunPtrs, h.settled.null_ptr, h.settled.uni_ptr⟩, h.has, h.body, h.external,
    h.pending, h.edge_lt⟩

/-- What a run of `solve` leaves, as far as the rules are concerned. -/
structure Result (P : Program Fun Val Ty) (hlay : P.Layout) (T : CtxDomain Ctx Val)
    (L : LangModel Fun Val Ty) (MaxIndirectTarget : Nat)
    (Mem : MemModel (FSObject Ctx Val) (Pointer Ctx Val)) (main : Fun)
    (init : FSObject Ctx Val → FSObject Ctx Val → Prop) (s : Solving Ctx Fun Val)
    (b : Builder Ctx Fun Val) : Prop where
  traversed : Discovery.Traversed (P.callSites hlay) T (Builder.callBacks P T L) (fun _ _ _ => True)
    (fun M s => ∀ b, s = .ok b → Emits P T L init M b) ⟨T.getInitialCtx, main, none, false⟩
    s.resolved [] s.disc
  queue : s.disc.queue = []
  emits : Emits P T L init s.disc.module b
  waiting : Waiting P T L MaxIndirectTarget (fun _ => False) s.disc.module b
  logged : s.disc.module.Logged s.resolved
  closed : b.core.Closed Mem

namespace Rounds

/-- a round that resolves nothing leaves the graph as the solver left it -/
theorem stable (hP : P.Canonical) (hM : KeepsBlock Mem) (hg : Builder.Globals P T b₀)
    (h : Rounds P hlay T L w MaxIndirectTarget Mem main b₀ s) (hch : s.changed = false) :
    ∃ b, s.disc.data = .ok b ∧ b.core.Closed Mem := by
  cases h with
  | start hR => cases hch
  | @round s s' b c n hs _ hb hc hok hr =>
    obtain ⟨hw, hlog⟩ := hs.waiting hP hM hg
    have hp := (hw b hb).placed.steps hM hc.run
    obtain ⟨t, b', ht, hb', -, -, -, rfl⟩ := Solving.resolveFunPtrs_inv
      (I := fun t => t.changed = true ∨ t = { s.setCore b c with changed := false }) hP
      (fun t id target t' ht _ hr => by
        obtain ⟨-, -, ⟨rfl, -⟩ | ⟨R, b, -, -, rfl⟩⟩ := Solving.resolveTarget_cases hr
        · exact ht
        · exact .inl rfl) (s := s.setCore b c) rfl hp hlog (.inr rfl) hr
    rcases ht with ht | rfl
    · have hch : t.changed = false := hch
      rw [ht] at hch
      cases hch
    · cases hb'
      exact ⟨_, rfl, hc.closed.copy, hc.closed.load, hc.closed.store, hc.closed.offset,
        hc.closed.indexed⟩

theorem result (hP : P.Canonical) (hM : KeepsBlock Mem) (hg : Builder.Globals P T b₀)
    (h : Rounds P hlay T L w MaxIndirectTarget Mem main b₀ s) (hch : s.changed = false) :
    ∃ b, s.disc.data = .ok b ∧ Result P hlay T L MaxIndirectTarget Mem main b₀.Stores s b := by
  obtain ⟨hset, hhas⟩ := hg.emits hP
  obtain ⟨b, hb, hcl⟩ := h.stable hP hM hg hch
  -- the entry function
  have hentry : P.hasBody main = true → ∀ b1, Builder.initFunction P T b₀ T.getInitialCtx main = .ok b1 →
      Emits P T L b₀.Stores (CtxModule.createCallNode {} T.getInitialCtx main none).1 b1 := by
    intro hbody b1 hb1
    have he := hset.initBody hP hb1
    have hempty : Emits P T L b₀.Stores ({} : CtxModule Ctx Fun Val Val) b₀ := by
      refine ⟨hset, fun ev hev k x y hk => ?_, fun id f hf => (by cases hf),
        fun id f hf => (by cases hf), fun id c hc => (by cases hc), fun e he => (by cases he)⟩
      cases hev with
      | program =>
        cases hk with
        | program hk => exact hhas k x y hk
      | body hf _ => cases hf
      | call he _ _ => cases he
    refine hempty.addNode (n := .direct ⟨T.getInitialCtx, main, none, false⟩) rfl rfl
      (hset.additions hP (legal_body hP _ _) he.additions) (Builder.Additions.grows he.additions)
      (fun f hf _ => ?_) (fun g hg hb => ?_) fun c hc => (by cases hc)
    · cases hf
      exact ⟨hbody, fun I hI k x y hk => he.has k x y ⟨hbody, I, hI, hk⟩⟩
    · cases hg
      cases hb
  obtain ⟨ht, hq⟩ := h.traversed hP hM hg (emits_follows hP hlay T L b₀.Stores fun _ _ _ => True) hentry
    (fun M b c hJ hs b' hb' => by
      cases hb'
      exact (hJ b rfl).steps hM hs)
    (fun M b hJ b' hb' => by
      cases hb'
      exact (hJ b rfl).clearFunPtrs)
    fun _ _ _ _ _ _ _ _ => trivial
  obtain ⟨hw, hlog⟩ := h.waiting hP hM hg
  exact ⟨b, hb, ht, hq, ht.data b hb, hw b hb, hlog, hcl⟩

end Rounds

/-! ## the result is a model -/

theorem DirectCall.callee {F G : Fun} {I : Val} (h : DirectCall P L F I G) (C : Ctx) :
    Discovery.callee (P.callSites hlay) T (Builder.callBacks P T L) C I =
      some (.direct (T.contextEvolve C I) G) := by
  obtain ⟨cs, fn, -, hcs, hfn, hred, hig⟩ := h
  have htarget : (P.callSites hlay).getTargetFunction I = some fn := by
    show (P.instr I).callInst.bind _ = _
    rw [hcs]
    exact hfn
  unfold Discovery.callee
  rw [htarget]
  show (if (Builder.overrideFunction P L fn I).option = .ignore then none else _) = _
  rw [if_neg hig]
  unfold Discovery.target
  rw [show ((Builder.callBacks P T L).beforeNewNode fn I).redirectTo = .function G from hred]

theorem Pending.callee {I : Val} {funPtr : Option Val} (h : Pending P L I funPtr) (C : Ctx) :
    Discovery.callee (P.callSites hlay) T (Builder.callBacks P T L) C I = some (.inDirect C I) := by
  have htarget : ∀ {cs : CallInst Fun Val}, (P.instr I).callInst = some cs →
      (P.callSites hlay).getTargetFunction I = cs.getTargetFunction := by
    intro cs hcs
    show (P.instr I).callInst.bind _ = _
    rw [hcs]
    rfl
  unfold Discovery.callee
  cases h with
  | indirect hcs hnone => rw [htarget hcs, hnone]
  | @redirected cs fn V hcs hfn hr hig =>
    rw [htarget hcs, hfn]
    show (if (Builder.overrideFunction P L fn I).option = .ignore then none else _) = _
    rw [if_neg hig]
    unfold Discovery.target
    rw [show ((Builder.callBacks P T L).beforeNewNode fn I).redirectTo = .indirect V from hr]

omit [DecidableEq Ctx] [DecidableEq Fun] [DecidableEq Val] [DecidableEq Ty] in
/-- a call waits for one pointer -/
theorem Pending.unique {I : Val} {funPtr funPtr' : Option Val} (h : Pending P L I funPtr)
    (h' : Pending P L I funPtr') : funPtr = funPtr' := by
  cases h with
  | indirect hcs hnone =>
    cases h' with
    | indirect _ _ => rfl
    | redirected hcs' hfn _ _ =>
      rw [hcs] at hcs'
      cases hcs'
      rw [hnone] at hfn
      cases hfn
  | redirected hcs hfn hr _ =>
    cases h' with
    | indirect hcs' hnone =>
      rw [hcs] at hcs'
      cases hcs'
      rw [hfn] at hnone
      cases hnone
    | redirected hcs' hfn' hr' _ =>
      rw [hcs] at hcs'
      cases hcs'
      rw [hfn] at hfn'
      cases hfn'
      rw [hr] at hr'
      cases hr'
      rfl

namespace Result

/-- the edge of a call that has been visited -/
theorem called (h : Result P hlay T L MaxIndirectTarget Mem main init s b) {C : Ctx} {F : Fun} {I : Val}
    (hbody : s.disc.module.Happens (.body C F)) (hI : I ∈ P.insts F)
    (hcs : ∃ cs, (P.instr I).callInst = some cs) {k : CallKey Ctx Fun Val}
    (hk : Discovery.callee (P.callSites hlay) T (Builder.callBacks P T L) C I = some k) :
    ∃ e ∈ s.disc.module.edges, ∃ f n, s.disc.module.nodes[e.src]? = some (.direct f) ∧
      f.context = C ∧ e.inst = I ∧ s.disc.module.nodes[e.dst]? = some n ∧ n.key = k := by
  cases hbody with
  | @body id f hf hext =>
    have hvis : id ∈ s.disc.visited := by
      have hmem := (h.traversed.base.body id).mpr ⟨f, hf, hext⟩
      rw [h.queue, List.append_nil] at hmem
      exact hmem
    obtain ⟨d, n, he, hn, hkey⟩ := h.traversed.called id hvis f hf I (mem_calls.mpr ⟨hI, hcs⟩)
      List.not_mem_nil k hk
    exact ⟨_, he, f, n, hf, rfl, rfl, hn, hkey⟩

theorem directCall (h : Result P hlay T L MaxIndirectTarget Mem main init s b) {C : Ctx} {F G : Fun}
    {I : Val} (hbody : s.disc.module.Happens (.body C F)) (hcall : DirectCall P L F I G) :
    s.disc.module.Happens (.call C I G) := by
  obtain ⟨cs, -, hI, hcs, -, -⟩ := id hcall
  obtain ⟨e, he, f, n, hf, rfl, rfl, hn, hkey⟩ := h.called hbody hI ⟨cs, hcs⟩ (hcall.callee C)
  cases n with
  | direct g =>
    have hG : g.function = G := by injection hkey
    rw [← hG]
    exact .call he hf hn
  | inDirect c => cases hkey

theorem body (h : Result P hlay T L MaxIndirectTarget Mem main init s b) {C : Ctx} {I : Val} {G : Fun}
    (hcall : s.disc.module.Happens (.call C I G)) (hbody : P.hasBody G = true)
    (hheap : L.isHeapAllocFun G = false) :
    s.disc.module.Happens (.body (T.contextEvolve C I) G) := by
  cases hcall with
  | @call e f g he hf hg =>
    obtain ⟨f', n, option, hsite, hn, hl⟩ := h.traversed.edge e he
    rw [hg] at hn
    cases hn
    rw [hsite.node] at hf
    cases hf
    obtain ⟨hctx, -⟩ := hl.direct
    rw [← hctx]
    refine .body hg ?_
    cases hext : g.isExt with
    | false => rfl
    | true =>
      rcases h.emits.external e.dst g hg hext with h1 | h1
      · rw [hheap] at h1
        cases h1
      · rw [hbody] at h1
        cases h1

/-- a function that the pointer of a call holds is called, unless the limit of targets is reached -/
theorem indirectCall (h : Result P hlay T L MaxIndirectTarget Mem main init s b)
    (hlimit : ∀ (id : CallNodeID) c, s.disc.module.nodes[id]? = some (.inDirect c) →
      c.targets.length < MaxIndirectTarget)
    {C : Ctx} {F G : Fun} {I : Val} {x : Cell Ctx Fun Val} {o : FSObject Ctx Val}
    (hbody : s.disc.module.Happens (.body C F)) (ho : b.Holds x o)
    (hcall : IndirectCall P T L C F I x o G) : s.disc.module.Happens (.call C I G) := by
  obtain ⟨funPtr, V, fn, hI, hpend, hV, rfl, hfn, hcomp, hred⟩ := hcall
  have hcs : ∃ cs, (P.instr I).callInst = some cs := by
    cases hpend with
    | indirect hcs _ => exact ⟨_, hcs⟩
    | redirected hcs _ _ _ => exact ⟨_, hcs⟩
  obtain ⟨e, -, -, n, -, -, -, hn, hkey⟩ := h.called hbody hI hcs (hpend.callee C)
  cases n with
  | direct g => cases hkey
  | inDirect c =>
    cases hkey
    obtain rfl := (h.emits.pending e.dst c hn).unique hpend
    -- the pointer of the call holds nothing that is not resolved
    obtain ⟨V', p, hV', hget, -, -, hw⟩ := h.waiting.calls e.dst c hn
    obtain rfl : V' = V := Option.some.inj (hV'.symm.trans hV)
    obtain ⟨q, hq, y, hy, hyo⟩ := ho
    obtain rfl : q = p := Option.some.inj ((h.emits.settled.lookup.mpr hq).symm.trans hget)
    have hmem : fn ∈ c.targets := by
      by_contra hnot
      exact hw.resolve_right not_false y hy o hyo ⟨fn, hfn, hcomp, hnot, hlimit e.dst c hn⟩
    obtain ⟨e', he', hdst, hall⟩ := h.traversed.resolved e.dst fn (h.logged e.dst c hn fn hmem)
    obtain ⟨f, hsite, hctx, hinst⟩ := h.traversed.call_of_edge he' (hdst ▸ hn)
    rw [hinst] at hall
    obtain ⟨f', d, n, hf', hd, hn', hkey'⟩ := hall G hred.2 hred.1
    rw [hsite.node] at hf'
    cases hf'
    cases n with
    | inDirect c' => cases hkey'
    | direct g =>
      have hG : g.function = G := by injection hkey'
      rw [← hG, ← hctx]
      exact .call hd hsite.node hn'

/-- The events and the objects of the result are closed under the rules. -/
theorem model (h : Result P hlay T L MaxIndirectTarget Mem main init s b)
    (hlimit : ∀ (id : CallNodeID) c, s.disc.module.nodes[id]? = some (.inDirect c) →
      c.targets.length < MaxIndirectTarget) :
    (analysis P T L Mem main init).Model s.disc.module.Happens b.Holds := by
  have hmeets : ∀ ev, s.disc.module.Happens ev → ∀ {k x y}, EventCons P T L init ev k x y →
      Cell.Meets Mem b.Holds x y k := fun ev hev k x y hk =>
    (h.emits.has ev hev k x y hk).meets h.emits.settled.placed.toNodes h.closed
  refine ⟨?_, ?_, ?_, ?_, ?_, ?_, ?_, ?_⟩
  · rintro ev (rfl | rfl)
    · exact .program
    · exact .body h.traversed.entry rfl
  · rintro ev ev' hev (⟨C, F, I, G, rfl, rfl, hcall⟩ | ⟨C, I, G, rfl, rfl, hbody, hheap⟩)
    · exact h.directCall hev hcall
    · exact h.body hev hbody hheap
  · rintro ev ev' x o hev ho ⟨C, F, I, G, rfl, rfl, hcall⟩
    exact h.indirectCall hlimit hev ho hcall
  · exact fun ev x o hev hk => hmeets ev hev hk o rfl
  · exact fun ev x y o hev hk => hmeets ev hev hk o
  · exact fun ev x y p o hev hk => hmeets ev hev hk p o
  · exact fun ev x y p o hev hk => hmeets ev hev hk p o
  · exact fun ev x y o f hev hk ho hf => hmeets ev hev hk o f ho hf

end Result

end

end AserPTA
