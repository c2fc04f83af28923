import AserPTA.Program.InitCallGraph

/-!
# The call graph over the whole analysis

The initial traversal and the later resolution of calls both look up or make the node that a call leads
to and then add the edge.  A property of the call graph and of the callbacks' data that these two
operations keep holds all the way.

* `Extends`     nodes stay, but for the targets of indirect calls, and edges stay;
* `Leads`       why a call leads to the node of a key: it is visited, or it has got a target;
* `Follows J`   what the two operations keep;
* `Traversed`   the invariant: every call of a body that was visited has its edge, every edge is one that
                a call leads to, and `J`;
* `resolveCallTo_cases`   all that `resolveCallTo` can do;
* `Traversed.buildInitCallGraph`, `Traversed.resolveCallTo`   the two ways into the loop.
-/

namespace AserPTA

open Loop

variable {Ctx Fun Inst Val σ : Type}

/-- the call at an indirect node, without its targets -/
structure InDirectCallSite.Same (c c' : InDirectCallSite Ctx Fun Inst Val) : Prop where
  context : c'.context = c.context
  callSite : c'.callSite = c.callSite
  funPtr : c'.funPtr = c.funPtr

theorem InDirectCallSite.Same.refl (c : InDirectCallSite Ctx Fun Inst Val) : c.Same c :=
  ⟨rfl, rfl, rfl⟩

theorem InDirectCallSite.Same.trans {c c' c'' : InDirectCallSite Ctx Fun Inst Val} (h : c.Same c')
    (h' : c'.Same c'') : c.Same c'' :=
  ⟨h'.context.trans h.context, h'.callSite.trans h.callSite, h'.funPtr.trans h.funPtr⟩

namespace CtxModule

structure Extends (M M' : CtxModule Ctx Fun Inst Val) : Prop where
  edges : M.edges ⊆ M'.edges
  direct : ∀ (i : CallNodeID) (f : CtxFunction Ctx Fun Inst), M.nodes[i]? = some (.direct f) →
    M'.nodes[i]? = some (.direct f)
  inDirect : ∀ (i : CallNodeID) (c : InDirectCallSite Ctx Fun Inst Val),
    M.nodes[i]? = some (.inDirect c) → ∃ c', M'.nodes[i]? = some (.inDirect c') ∧ c.Same c'

namespace Extends

variable {M M' M'' : CtxModule Ctx Fun Inst Val}

theorem refl (M : CtxModule Ctx Fun Inst Val) : Extends M M :=
  ⟨List.Subset.refl _, fun _ _ h => h, fun _ c h => ⟨c, h, .refl c⟩⟩

theorem trans (h : Extends M M') (h' : Extends M' M'') : Extends M M'' := by
  refine ⟨List.Subset.trans h.edges h'.edges, fun i f hf => h'.direct i f (h.direct i f hf),
    fun i c hc => ?_⟩
  obtain ⟨c', hc', hs⟩ := h.inDirect i c hc
  obtain ⟨c'', hc'', hs'⟩ := h'.inDirect i c' hc'
  exact ⟨c'', hc'', hs.trans hs'⟩

/-- a node keeps its key -/
theorem key (h : Extends M M') {i : CallNodeID} {n : CallGraphNode Ctx Fun Inst Val}
    (hn : M.nodes[i]? = some n) : ∃ n', M'.nodes[i]? = some n' ∧ n'.key = n.key := by
  cases n with
  | direct f => exact ⟨_, h.direct i f hn, rfl⟩
  | inDirect c =>
    obtain ⟨c', hc', hs⟩ := h.inDirect i c hn
    refine ⟨_, hc', ?_⟩
    show CallKey.inDirect c'.context c'.callSite = CallKey.inDirect c.context c.callSite
    rw [hs.context, hs.callSite]

theorem of_nodes (hedges : M.edges ⊆ M'.edges)
    (hnode : ∀ (i : CallNodeID) (n : CallGraphNode Ctx Fun Inst Val), M.nodes[i]? = some n →
      M'.nodes[i]? = some n) : Extends M M' :=
  ⟨hedges, fun i _ hf => hnode i _ hf, fun i c hc => ⟨c, hnode i _ hc, .refl c⟩⟩

end Extends

/-- another call at an indirect node -/
def setCall (M : CtxModule Ctx Fun Inst Val) (id : CallNodeID)
    (c : InDirectCallSite Ctx Fun Inst Val) : CtxModule Ctx Fun Inst Val :=
  { M with nodes := M.nodes.set id (.inDirect c) }

variable {M : CtxModule Ctx Fun Inst Val} {id : CallNodeID} {c c' : InDirectCallSite Ctx Fun Inst Val}

theorem setCall_self (hc : M.nodes[id]? = some (.inDirect c)) :
    (M.setCall id c').nodes[id]? = some (.inDirect c') := by
  show (M.nodes.set id (.inDirect c'))[id]? = _
  rw [List.getElem?_set_self (List.getElem?_eq_some_iff.mp hc).1]

theorem setCall_of_ne {i : CallNodeID} (hi : i ≠ id) :
    (M.setCall id c').nodes[i]? = M.nodes[i]? := List.getElem?_set_ne (Ne.symm hi)

theorem setCall_extends (hc : M.nodes[id]? = some (.inDirect c)) (hs : c.Same c') :
    Extends M (M.setCall id c') := by
  refine ⟨List.Subset.refl _, fun i f hf => ?_, fun i d hd => ?_⟩
  · by_cases hi : i = id
    · subst hi
      rw [hc] at hf
      cases hf
    · exact (setCall_of_ne hi).trans hf
  · by_cases hi : i = id
    · subst hi
      rw [hc] at hd
      cases hd
      exact ⟨c', setCall_self hc, hs⟩
    · exact ⟨d, (setCall_of_ne hi).trans hd, .refl d⟩

/-- and back -/
theorem setCall_back (hc : M.nodes[id]? = some (.inDirect c)) (hs : c.Same c') {i : CallNodeID}
    {n' : CallGraphNode Ctx Fun Inst Val} (hn' : (M.setCall id c').nodes[i]? = some n') :
    ∃ n, M.nodes[i]? = some n ∧ n.key = n'.key ∧ ∀ f, n' = .direct f → n = .direct f := by
  by_cases hi : i = id
  · subst hi
    rw [setCall_self hc] at hn'
    cases hn'
    refine ⟨_, hc, ?_, fun f hf => by cases hf⟩
    show CallKey.inDirect c.context c.callSite = CallKey.inDirect c'.context c'.callSite
    rw [hs.context, hs.callSite]
  · exact ⟨n', (setCall_of_ne hi).symm.trans hn', rfl, fun f hf => hf⟩

theorem insertEdge_nodes [DecidableEq Inst] (M : CtxModule Ctx Fun Inst Val) (e : CallEdge Inst) :
    (M.insertEdge e).nodes = M.nodes := by
  unfold insertEdge
  split <;> rfl

theorem mem_insertEdge [DecidableEq Inst] (M : CtxModule Ctx Fun Inst Val) (e x : CallEdge Inst) :
    x ∈ (M.insertEdge e).edges ↔ x ∈ M.edges ∨ x = e := by
  unfold insertEdge
  split
  · rename_i he
    constructor
    · exact .inl
    · rintro (h | rfl)
      · exact h
      · exact he
  · show x ∈ M.edges ++ [e] ↔ _
    rw [List.mem_append, List.mem_singleton]

theorem insertEdge_extends [DecidableEq Inst] (M : CtxModule Ctx Fun Inst Val) (e : CallEdge Inst) :
    Extends M (M.insertEdge e) :=
  .of_nodes (fun x hx => (mem_insertEdge M e x).mpr (.inl hx)) fun i n hn => by
    rw [insertEdge_nodes]
    exact hn

end CtxModule

namespace Discovery

variable (P : CallSites Fun Inst) (T : CtxDomain Ctx Inst) (K : CallBacks Ctx Fun Inst Val σ)
variable {R R1 R' : Discovery Ctx Fun Inst Val σ}

theorem Got.extends {option : InterceptOption} {k : CallKey Ctx Fun Inst} {id : CallNodeID}
    (h : Got option k id R R1) : R.module.Extends R1.module :=
  .of_nodes (h.edges ▸ List.Subset.refl _) h.node

/-! ## looking up the node of a call -/

section
variable [DecidableEq Ctx] [DecidableEq Fun]

theorem createDirect_queue (R : Discovery Ctx Fun Inst Val σ) (C : Ctx) (F : Fun) (I : Inst)
    (option : InterceptOption) : (createDirect K R C F I option).1.queue = R.queue := by
  unfold createDirect
  cases option <;> rfl

variable [DecidableEq Inst]

theorem getOrCreateCallNode_queue (R : Discovery Ctx Fun Inst Val σ) (curCtx preCtx : Ctx) (F : Fun)
    (I : Inst) : (getOrCreateCallNode K R curCtx preCtx F I).1.queue = R.queue := by
  unfold getOrCreateCallNode
  dsimp only
  split
  · rfl
  · split
    · split
      · rfl
      · exact createDirect_queue K R curCtx _ I _
    · show (getOrCreateInDirectCallNode K R preCtx I _).1.queue = R.queue
      unfold getOrCreateInDirectCallNode
      split <;> rfl

/-- the lookup without the visit: the queue is left to the caller -/
theorem getOrCreateCallNode_spec (R : Discovery Ctx Fun Inst Val σ) (hq : R.queue = []) (preCtx : Ctx)
    (F : Fun) (I : Inst) (hig : (K.beforeNewNode F I).option ≠ .ignore) :
    ∃ id R1, GetNode K (K.beforeNewNode F I).option I R (target T K preCtx F I) id R1 ∧
      let r := getOrCreateCallNode K R (T.contextEvolve preCtx I) preCtx F I
      r.2.1 = some id ∧ R1 = { r.1 with queue := if r.2.2 then [id] else [] } := by
  obtain ⟨id, R1, hget, hvisit⟩ := visitDirectCallSite_spec T K R preCtx F I hig
  refine ⟨id, R1, hget, ?_⟩
  intro r
  have hqueue : r.1.queue = [] := (getOrCreateCallNode_queue K R _ preCtx F I).trans hq
  unfold visitDirectCallSite at hvisit
  have h1 : ({ r.1 with queue := if r.2.2 then r.1.queue ++ r.2.1.toList else r.1.queue } :
      Discovery Ctx Fun Inst Val σ) = R1 := congrArg Prod.fst hvisit
  have h2 : r.2.1 = some id := congrArg Prod.snd hvisit
  refine ⟨h2, ?_⟩
  rw [← h1, hqueue, h2]
  rfl

theorem GetNode.ignored (R : Discovery Ctx Fun Inst Val σ) (curCtx preCtx : Ctx) (F : Fun) (I : Inst)
    (hig : (K.beforeNewNode F I).option = .ignore) :
    getOrCreateCallNode K R curCtx preCtx F I = (R, none, false) := by
  unfold getOrCreateCallNode
  dsimp only
  rw [if_pos hig]

/-- the call graph after `resolvedToNode` -/
def resolved (R : Discovery Ctx Fun Inst Val σ) (id : CallNodeID)
    (c : InDirectCallSite Ctx Fun Inst Val) (node : CallNodeID) : Discovery Ctx Fun Inst Val σ :=
  { R with module := R.module.setCall id { c with resolvedNode := c.resolvedNode ++ [node] } }

/-- all that `resolveCallTo` can do -/
theorem resolveCallTo_cases (hB : R.Base) (hq : R.queue = []) {n : Nat} {id : CallNodeID} {F : Fun}
    (h : resolveCallTo P T K n R id F = some R') :
    ∃ e caller, R.module.predEdges id = [e] ∧ R.module.nodes[e.src]? = some caller ∧
      ((K.beforeNewNode F e.inst).option = .ignore ∧ R' = R ∨
      ∃ G node R1 c, (K.beforeNewNode F e.inst).option ≠ .ignore ∧
        (K.beforeNewNode F e.inst).redirectTo = .function G ∧
        GetNode K (K.beforeNewNode F e.inst).option e.inst R
          (.direct (T.contextEvolve caller.getContext e.inst) G) node R1 ∧
        R1.module.nodes[id]? = some (.inDirect c) ∧
        (R1.queue = [] ∧ R' = createEdge K (R1.resolved id c node) e.src (some node) e.inst ∨
        R1.queue = [node] ∧ expandFromNode P T K n
          (createEdge K (R1.resolved id c node) e.src (some node) e.inst) node = some R')) := by
  unfold resolveCallTo at h
  split at h
  · rename_i e he
    split at h
    · cases h
    · rename_i caller hcaller
      refine ⟨e, caller, he, hcaller, ?_⟩
      dsimp only at h
      by_cases hig : (K.beforeNewNode F e.inst).option = .ignore
      · rw [GetNode.ignored K R _ _ F e.inst hig] at h
        cases h
        exact .inl ⟨hig, rfl⟩
      · right
        obtain ⟨node, R1, hget, hnode, hR1⟩ :=
          getOrCreateCallNode_spec T K R hq caller.getContext F e.inst hig
        obtain ⟨m, hm, hkey⟩ := (hget.got hB).2.found
        rw [hnode] at h
        dsimp only at h
        have hmod : R1.module = (getOrCreateCallNode K R
            (T.contextEvolve caller.getContext e.inst) caller.getContext F e.inst).1.module := by
          rw [hR1]
        rw [← hmod, hm] at h
        split at h
        · cases h
        · rename_i hdirect
          -- an indirect node is no target
          obtain ⟨G, hG⟩ : ∃ G, (K.beforeNewNode F e.inst).redirectTo = .function G := by
            cases hr : (K.beforeNewNode F e.inst).redirectTo with
            | function G => exact ⟨G, rfl⟩
            | indirect V =>
              unfold target at hkey
              rw [hr] at hkey
              cases m with
              | direct f => cases hkey
              | inDirect c => exact absurd rfl hdirect
          obtain ⟨R2, hR2, hrest⟩ := Option.bind_eq_some_iff.mp h
          unfold resolvedToNode at hR2
          rw [← hmod] at hR2
          split at hR2
          · rename_i c hc
            split at hR2
            · cases hR2
            · cases hR2
              unfold target at hget
              rw [hG] at hget
              refine ⟨G, node, R1, c, hig, hG, hget, hc, ?_⟩
              generalize hr : getOrCreateCallNode K R (T.contextEvolve caller.getContext e.inst)
                caller.getContext F e.inst = r at hrest hR1
              obtain ⟨r1, r2, r3⟩ := r
              cases r3 with
              | false =>
                refine .inl ⟨by rw [hR1]; rfl, ?_⟩
                have hq' : r1.queue = [] := by
                  have := getOrCreateCallNode_queue K R
                    (T.contextEvolve caller.getContext e.inst) caller.getContext F e.inst
                  rw [hr, hq] at this
                  exact this
                cases hrest
                rw [hR1]
                unfold resolved createEdge CtxModule.setCall
                dsimp only
                rw [if_neg (by decide), ← hq']
              | true =>
                refine .inr ⟨by rw [hR1]; rfl, ?_⟩
                rw [if_pos rfl, hR1] at hrest
                rw [hR1]
                exact hrest
          · cases hR2
  · cases h

/-! ## why a node is looked up -/

/-- The call `I` in the context `C` leads to the node of a key: its function is visited, or one of its
targets `A` is resolved. -/
inductive Leads (A : Ctx → Inst → Fun → Prop) (C : Ctx) (I : Inst) :
    CallKey Ctx Fun Inst → InterceptOption → Prop where
  | visit {k : CallKey Ctx Fun Inst} : callee P T K C I = some k → Leads A C I k (optionOf P K I)
  | target {F G : Fun} : A C I F → (K.beforeNewNode F I).redirectTo = .function G →
      (K.beforeNewNode F I).option ≠ .ignore →
      Leads A C I (.direct (T.contextEvolve C I) G) (K.beforeNewNode F I).option

/-- the pointer of an indirect node at the call `I` -/
inductive Awaits (I : Inst) : Option Val → Prop where
  | indirect : P.getTargetFunction I = none → Awaits I none
  | redirected {fn : Fun} {V : Val} : P.getTargetFunction I = some fn →
      (K.beforeNewNode fn I).redirectTo = .indirect V → (K.beforeNewNode fn I).option ≠ .ignore →
      Awaits I (some V)

/-- the node of a key is looked up at a call that leads to it -/
inductive Lookup (A : Ctx → Inst → Fun → Prop) (C : Ctx) (I : Inst) (R : Discovery Ctx Fun Inst Val σ) :
    CallKey Ctx Fun Inst → CallNodeID → Discovery Ctx Fun Inst Val σ → Prop where
  | known {k : CallKey Ctx Fun Inst} {id : CallNodeID} : R.module.find k = some id →
      Lookup A C I R k id R
  | direct {C' : Ctx} {G : Fun} {option : InterceptOption} :
      Leads P T K A C I (.direct C' G) option →
      R.module.find (.direct C' G) = none →
      Lookup A C I R (.direct C' G) R.module.nodes.length (discover K R C' G I option)
  | inDirect {target : Option Val} : Awaits P K I target → R.module.find (.inDirect C I) = none →
      Lookup A C I R (.inDirect C I) R.module.nodes.length (discoverIndirect K R C I target)

variable {P T K} {A : Ctx → Inst → Fun → Prop} {C : Ctx} {I : Inst}

theorem Lookup.getNode {k : CallKey Ctx Fun Inst} {id : CallNodeID}
    (h : Lookup P T K A C I R k id R1) : ∃ option, GetNode K option I R k id R1 := by
  cases h with
  | known h => exact ⟨.expandBody, .known h⟩
  | direct _ h => exact ⟨_, .direct _ _ h⟩
  | inDirect _ h => exact ⟨.expandBody, .inDirect _ _ h⟩

/-- the node of a function is looked up -/
theorem Leads.lookup {option : InterceptOption} {C' : Ctx} {G : Fun} {id : CallNodeID}
    (hl : Leads P T K A C I (.direct C' G) option)
    (h : GetNode K option I R (.direct C' G) id R1) : Lookup P T K A C I R (.direct C' G) id R1 := by
  generalize hk : CallKey.direct C' G = k at h
  cases h with
  | known h =>
    subst hk
    exact .known h
  | direct C G h =>
    cases hk
    exact .direct hl h
  | inDirect C target h => cases hk

theorem lookup_inDirect {target : Option Val} (hw : Awaits P K I target) :
    let r := getOrCreateInDirectCallNode K R C I target
    Lookup P T K A C I R (.inDirect C I) r.2 r.1 := by
  unfold getOrCreateInDirectCallNode
  split
  · rename_i id h
    exact .known h
  · rename_i h
    exact .inDirect hw h

/-- the visit of a call instruction -/
theorem visitCall_lookup (A : Ctx → Inst → Fun → Prop) (node : CallNodeID) (C : Ctx)
    (R : Discovery Ctx Fun Inst Val σ) (I : Inst) :
    (callee P T K C I = none ∧ visitCall P T K node C R I = R) ∨
    ∃ k id R1, callee P T K C I = some k ∧ Lookup P T K A C I R k id R1 ∧
      visitCall P T K node C R I = createEdge K R1 node (some id) I := by
  cases hf : P.getTargetFunction I with
  | none =>
    have hk : callee P T K C I = some (.inDirect C I) := by
      unfold callee
      rw [hf]
    refine .inr ⟨_, _, _, hk, lookup_inDirect (.indirect hf), ?_⟩
    unfold visitCall
    rw [hf]
  | some fn =>
    by_cases hig : (K.beforeNewNode fn I).option = .ignore
    · left
      unfold callee visitCall
      rw [hf]
      dsimp only
      rw [if_pos hig]
      unfold visitDirectCallSite
      rw [GetNode.ignored K R _ _ fn I hig]
      exact ⟨rfl, rfl⟩
    · right
      have hk : callee P T K C I = some (target T K C fn I) := by
        unfold callee
        rw [hf]
        exact if_neg hig
      have hrun : ∀ id R1, visitDirectCallSite K R (T.contextEvolve C I) C fn I = (R1, some id) →
          visitCall P T K node C R I = createEdge K R1 node (some id) I := by
        intro id R1 h
        unfold visitCall
        rw [hf]
        dsimp only
        rw [h]
      obtain ⟨id, R1, hget, hvisit⟩ := visitDirectCallSite_spec T K R C fn I hig
      have hopt : optionOf P K I = (K.beforeNewNode fn I).option := by
        unfold optionOf
        rw [hf]
      refine ⟨_, id, R1, hk, ?_, hrun id R1 hvisit⟩
      have hl := Leads.visit (A := A) hk
      cases hr : (K.beforeNewNode fn I).redirectTo with
      | function G =>
        have htarget : target T K C fn I = .direct (T.contextEvolve C I) G := by
          unfold target
          rw [hr]
        rw [htarget] at hl hget ⊢
        rw [hopt] at hl
        exact hl.lookup hget
      | indirect V =>
        have htarget : target T K C fn I = .inDirect C I := by
          unfold target
          rw [hr]
        have hindirect := lookup_inDirect (R := R) (T := T) (A := A) (C := C)
          (.redirected hf hr hig)
        unfold visitDirectCallSite getOrCreateCallNode at hvisit
        dsimp only at hvisit
        rw [if_neg hig, hr] at hvisit
        cases hvisit
        rw [htarget]
        exact hindirect

/-! ## the invariant -/

/-- a call instruction in a body that is or will be visited -/
structure Site (P : CallSites Fun Inst) (M : CtxModule Ctx Fun Inst Val) (src : CallNodeID)
    (f : CtxFunction Ctx Fun Inst) (I : Inst) : Prop where
  node : M.nodes[src]? = some (.direct f)
  body : f.isExt = false
  call : I ∈ P.calls f.function

omit [DecidableEq Ctx] [DecidableEq Fun] [DecidableEq Inst] in
theorem Site.extends {M M' : CtxModule Ctx Fun Inst Val} {src : CallNodeID}
    {f : CtxFunction Ctx Fun Inst} (h : Site P M src f I) (he : M.Extends M') : Site P M' src f I :=
  ⟨he.direct src f h.node, h.body, h.call⟩

/-- what looking up a node and adding an edge keep -/
structure Follows (P : CallSites Fun Inst) (T : CtxDomain Ctx Inst) (K : CallBacks Ctx Fun Inst Val σ)
    (A : Ctx → Inst → Fun → Prop) (J : CtxModule Ctx Fun Inst Val → σ → Prop) : Prop where
  node : ∀ {R R1 : Discovery Ctx Fun Inst Val σ} {src f I k id}, R.Base →
    Site P R.module src f I → Lookup P T K A f.context I R k id R1 → J R.module R.data →
    J R1.module R1.data
  edge : ∀ {M s src dst f I n option}, Site P M src f I → M.nodes[dst]? = some n →
    Leads P T K A f.context I n.key option → J M s →
    J (M.insertEdge ⟨src, I, dst⟩) (K.onNewEdge (M.insertEdge ⟨src, I, dst⟩) ⟨src, I, dst⟩ s)
  call : ∀ {M s id c c'}, M.nodes[id]? = some (.inDirect c) → c.Same c' → J M s →
    J (M.setCall id c') s

/-- the call graph so far; the edges of the calls in `rest` are still to come -/
structure Traversed (P : CallSites Fun Inst) (T : CtxDomain Ctx Inst) (K : CallBacks Ctx Fun Inst Val σ)
    (A : Ctx → Inst → Fun → Prop) (J : CtxModule Ctx Fun Inst Val → σ → Prop)
    (main : CtxFunction Ctx Fun Inst) (done : List (CallNodeID × Fun))
    (rest : List (CallNodeID × Inst)) (R : Discovery Ctx Fun Inst Val σ) : Prop where
  base : R.Base
  data : J R.module R.data
  entry : R.module.nodes[0]? = some (.direct main)
  called : ∀ id ∈ R.visited, ∀ f, R.module.nodes[id]? = some (.direct f) →
    ∀ I ∈ P.calls f.function, (id, I) ∉ rest → ∀ k, callee P T K f.context I = some k →
      ∃ d n, ⟨id, I, d⟩ ∈ R.module.edges ∧ R.module.nodes[d]? = some n ∧ n.key = k
  edge : ∀ e ∈ R.module.edges, ∃ f n option, Site P R.module e.src f e.inst ∧
    R.module.nodes[e.dst]? = some n ∧ Leads P T K A f.context e.inst n.key option
  /-- the calls that have been resolved have the edges that they lead to -/
  resolved : ∀ id F, (id, F) ∈ done → ∃ e ∈ R.module.edges, e.dst = id ∧
    ∀ G, (K.beforeNewNode F e.inst).option ≠ .ignore →
      (K.beforeNewNode F e.inst).redirectTo = .function G → ∃ f d n,
        R.module.nodes[e.src]? = some (.direct f) ∧ ⟨e.src, e.inst, d⟩ ∈ R.module.edges ∧
        R.module.nodes[d]? = some n ∧ n.key = .direct (T.contextEvolve f.context e.inst) G

namespace Traversed

variable {J : CtxModule Ctx Fun Inst Val → σ → Prop} {main : CtxFunction Ctx Fun Inst}
  {done : List (CallNodeID × Fun)} {rest : List (CallNodeID × Inst)}

omit [DecidableEq Ctx] [DecidableEq Fun] [DecidableEq Inst] in
/-- where nothing is visited the calls and the resolved edges stay -/
theorem later (h : Traversed P T K A J main done rest R) (he : R.module.Extends R1.module)
    (hback : ∀ id f, R1.module.nodes[id]? = some (.direct f) → id < R.module.nodes.length →
      R.module.nodes[id]? = some (.direct f))
    (hvis : R1.visited = R.visited) (hB : R1.Base) (hJ : J R1.module R1.data)
    (hedges : R1.module.edges = R.module.edges) : Traversed P T K A J main done rest R1 := by
  refine ⟨hB, hJ, he.direct 0 main h.entry, ?_, ?_, ?_⟩
  · intro id hid f hf I hI hrest k hk
    rw [hvis] at hid
    have hlt : id < R.module.nodes.length := by
      obtain ⟨f', hf', -⟩ := (h.base.body id).mp (List.mem_append_left _ hid)
      exact (List.getElem?_eq_some_iff.mp hf').1
    obtain ⟨d, n, hd, hn, hkey⟩ := h.called id hid f (hback id f hf hlt) I hI hrest k hk
    obtain ⟨n', hn', hkey'⟩ := he.key hn
    exact ⟨d, n', he.edges hd, hn', hkey'.trans hkey⟩
  · intro e hmem
    rw [hedges] at hmem
    obtain ⟨f, n, option, hsite, hn, hl⟩ := h.edge e hmem
    obtain ⟨n', hn', hkey'⟩ := he.key hn
    exact ⟨f, n', option, hsite.extends he, hn', hkey' ▸ hl⟩
  · intro id F hF
    obtain ⟨e, hmem, hdst, hall⟩ := h.resolved id F hF
    refine ⟨e, he.edges hmem, hdst, fun G hig hr => ?_⟩
    obtain ⟨f, d, n, hf, hd, hn, hkey⟩ := hall G hig hr
    obtain ⟨n', hn', hkey'⟩ := he.key hn
    exact ⟨f, d, n', he.direct _ f hf, he.edges hd, hn', hkey'.trans hkey⟩

theorem node (hK : Follows P T K A J) (h : Traversed P T K A J main done rest R) {src : CallNodeID}
    {f : CtxFunction Ctx Fun Inst} {k : CallKey Ctx Fun Inst} {id : CallNodeID}
    (hsite : Site P R.module src f I) (hl : Lookup P T K A f.context I R k id R1) :
    Traversed P T K A J main done rest R1 ∧ R.module.Extends R1.module ∧ R1.visited = R.visited ∧
      ∃ n, R1.module.nodes[id]? = some n ∧ n.key = k := by
  obtain ⟨option, hget⟩ := hl.getNode
  obtain ⟨hB, hgot⟩ := hget.got h.base
  refine ⟨h.later hgot.extends (fun i g hg hi => ?_) hgot.visited hB
    (hK.node h.base hsite hl h.data) hgot.edges, hgot.extends, hgot.visited, hgot.found⟩
  obtain ⟨m, hm⟩ : ∃ m, R.module.nodes[i]? = some m := ⟨_, List.getElem?_eq_getElem hi⟩
  rw [hgot.node i m hm] at hg
  exact hm.trans hg

/-- the edge to the node of the key that the call leads to -/
theorem newEdge (hK : Follows P T K A J) {node dst : CallNodeID} {f : CtxFunction Ctx Fun Inst}
    {n : CallGraphNode Ctx Fun Inst Val} {option : InterceptOption} (hsite : Site P R.module node f I)
    (hn : R.module.nodes[dst]? = some n) (hl : Leads P T K A f.context I n.key option)
    {rest' : List (CallNodeID × Inst)} (h : Traversed P T K A J main done rest' R)
    (hrest : ∀ p ∈ rest', p ∈ rest ∨
      p = (node, I) ∧ ∀ k, callee P T K f.context I = some k → n.key = k) :
    Traversed P T K A J main done rest (createEdge K R node (some dst) I) := by
  have he : R.module.Extends (R.module.insertEdge ⟨node, I, dst⟩) := CtxModule.insertEdge_extends _ _
  have hnodes : (R.module.insertEdge ⟨node, I, dst⟩).nodes = R.module.nodes :=
    CtxModule.insertEdge_nodes _ _
  have hB := h.base.createEdge (K := K) node dst I
  have hvis : (createEdge K R node (some dst) I).visited = R.visited := by
    have htrace : (createEdge K R node (some dst) I).trace = R.trace ++ [.newEdge ⟨node, I, dst⟩] := rfl
    apply visited_append htrace
    simp
  refine ⟨hB, hK.edge hsite hn hl h.data, he.direct 0 main h.entry, ?_, ?_, ?_⟩
  · intro id hid g hg J' hJ' hnot k hk
    rw [hvis] at hid
    replace hg : (R.module.insertEdge ⟨node, I, dst⟩).nodes[id]? = some (.direct g) := hg
    rw [hnodes] at hg
    show ∃ d n, _ ∈ (R.module.insertEdge _).edges ∧ (R.module.insertEdge _).nodes[d]? = some n ∧ _
    rw [hnodes]
    by_cases hp : (id, J') ∈ rest'
    · obtain ⟨heq, hkey⟩ := (hrest _ hp).resolve_left hnot
      cases heq
      rw [hsite.node] at hg
      cases hg
      exact ⟨dst, n, (CtxModule.mem_insertEdge ..).mpr (.inr rfl), hn, hkey k hk⟩
    · obtain ⟨d, m, hd, hm, hkey⟩ := h.called id hid g hg J' hJ' hp k hk
      exact ⟨d, m, he.edges hd, hm, hkey⟩
  · intro e hmem
    show ∃ f n option, Site P (R.module.insertEdge _) e.src f e.inst ∧
      (R.module.insertEdge _).nodes[e.dst]? = some n ∧ _
    rw [hnodes]
    rcases (CtxModule.mem_insertEdge ..).mp hmem with hmem | rfl
    · obtain ⟨g, m, option, hsite, hm, hl⟩ := h.edge e hmem
      exact ⟨g, m, option, hsite.extends he, hm, hl⟩
    · exact ⟨f, n, option, hsite.extends he, hn, hl⟩
  · intro id F hF
    obtain ⟨e, hmem, hdst, hall⟩ := h.resolved id F hF
    refine ⟨e, he.edges hmem, hdst, fun G hig hr => ?_⟩
    obtain ⟨g, d, m, hg, hd, hm, hkey⟩ := hall G hig hr
    show ∃ f d n, (R.module.insertEdge _).nodes[e.src]? = some (.direct f) ∧
      _ ∈ (R.module.insertEdge _).edges ∧ (R.module.insertEdge _).nodes[d]? = some n ∧ _
    rw [hnodes]
    exact ⟨g, d, m, hg, he.edges hd, hm, hkey⟩

/-! ## visits -/

theorem visitCall (hK : Follows P T K A J) {node : CallNodeID} {f : CtxFunction Ctx Fun Inst}
    (hsite : Site P R.module node f I) (h : Traversed P T K A J main done ((node, I) :: rest) R) :
    Traversed P T K A J main done rest (visitCall P T K node f.context R I) ∧
      R.module.Extends (visitCall P T K node f.context R I).module ∧
      (visitCall P T K node f.context R I).visited = R.visited := by
  rcases visitCall_lookup A node f.context R I with ⟨hnone, heq⟩ | ⟨k, id, R1, hk, hl, heq⟩
  · rw [heq]
    refine ⟨⟨h.base, h.data, h.entry, ?_, h.edge, h.resolved⟩, .refl _, rfl⟩
    intro id hid g hg J' hJ' hnot k hk
    refine h.called id hid g hg J' hJ' (fun hm => ?_) k hk
    rcases List.mem_cons.mp hm with hm | hm
    · cases hm
      rw [hsite.node] at hg
      cases hg
      rw [hnone] at hk
      cases hk
    · exact hnot hm
  · obtain ⟨h1, he, hvis, n, hn, hkey⟩ := h.node hK hsite hl
    have hleads : Leads P T K A f.context I n.key (optionOf P K I) := by
      rw [hkey]
      exact .visit hk
    rw [heq]
    refine ⟨h1.newEdge hK (hsite.extends he) hn hleads fun p hp => ?_,
      he.trans (CtxModule.insertEdge_extends _ _), ?_⟩
    · rcases List.mem_cons.mp hp with rfl | hp
      · refine .inr ⟨rfl, fun k' hk' => ?_⟩
        rw [hk] at hk'
        cases hk'
        exact hkey
      · exact .inl hp
    · rw [← hvis]
      have htrace : (createEdge K R1 node (some id) I).trace = R1.trace ++ [.newEdge ⟨node, I, id⟩] :=
        rfl
      apply visited_append htrace
      simp

theorem visitCalls (hK : Follows P T K A J) {node : CallNodeID} {f : CtxFunction Ctx Fun Inst}
    {l : List Inst} (hl : ∀ I ∈ l, Site P R.module node f I)
    (h : Traversed P T K A J main done (l.map (node, ·)) R) :
    Traversed P T K A J main done [] (l.foldl (Discovery.visitCall P T K node f.context) R) := by
  induction l generalizing R with
  | nil => exact h
  | cons I l ih =>
    obtain ⟨h1, he, -⟩ := visitCall hK (hl I List.mem_cons_self) h
    exact ih (fun J' hJ' => (hl J' (List.mem_cons_of_mem _ hJ')).extends he) h1

/-- the body of a function that waited in the queue -/
theorem visitCallNode (hK : Follows P T K A J) (h : Traversed P T K A J main done [] R)
    {node : CallNodeID} {queue : List CallNodeID} (hqueue : R.queue = node :: queue) :
    Traversed P T K A J main done [] (visitCallNode P T K { R with queue := queue } node) := by
  have hmem : node ∈ R.visited ++ R.queue := by
    rw [hqueue]
    exact List.mem_append_right _ List.mem_cons_self
  obtain ⟨f, hf, hbody⟩ := (h.base.body node).mp hmem
  -- the body is marked as visited first
  obtain ⟨R0, hR0⟩ : ∃ R0 : Discovery Ctx Fun Inst Val σ,
      R0 = { R with queue := queue, trace := R.trace ++ [.visit node] } := ⟨_, rfl⟩
  have hvis : R0.visited = R.visited ++ [node] := by
    subst hR0
    unfold visited
    rw [List.filterMap_append]
    rfl
  have hall : R0.visited ++ R0.queue = R.visited ++ R.queue := by
    rw [hvis, hqueue, hR0, List.append_assoc]
    rfl
  have hmod : R0.module = R.module := by rw [hR0]
  have hstarted : ∀ i, Started R0.trace i ↔ Started R.trace i := by
    intro i
    subst hR0
    simp [Started]
  have hB0 : R0.Base := by
    refine ⟨by rw [hmod]; exact h.base.find, by rw [hall]; exact h.base.nodup, ?_, ?_, ?_⟩
    · intro i
      rw [hall, hmod]
      exact h.base.body i
    · intro i hi
      rw [hall] at hi
      rw [hR0]
      exact List.mem_append_left _ (h.base.started i hi)
    · intro i hi
      rw [hmod]
      exact h.base.bound i ((hstarted i).mp hi)
  have h0 : Traversed P T K A J main done ((P.calls f.function).map (node, ·)) R0 := by
    have hdata : R0.data = R.data := by rw [hR0]
    refine ⟨hB0, by rw [hmod, hdata]; exact h.data, by rw [hmod]; exact h.entry, ?_,
      by rw [hmod]; exact h.edge, by rw [hmod]; exact h.resolved⟩
    intro id hid g hg I hI hnot k hk
    rw [hmod] at hg ⊢
    rw [hvis] at hid
    rcases List.mem_append.mp hid with hid | hid
    · exact h.called id hid g hg I hI List.not_mem_nil k hk
    · rw [List.mem_singleton] at hid
      subst hid
      rw [hf] at hg
      cases hg
      exact absurd (List.mem_map_of_mem hI) hnot
  have heq : Discovery.visitCallNode P T K { R with queue := queue } node =
      (P.calls f.function).foldl (Discovery.visitCall P T K node f.context) R0 := by
    unfold Discovery.visitCallNode
    dsimp only
    rw [hf, hR0]
  rw [heq]
  exact visitCalls hK (fun I hI => ⟨by rw [hmod]; exact hf, hbody, hI⟩) h0

/-- the loop over the queue -/
theorem expandFromNode (hK : Follows P T K A J) {root : CallNodeID}
    (h : Traversed P T K A J main done [] { R with queue := [root] }) {n : Nat}
    (hr : expandFromNode P T K n R root = some R') :
    Traversed P T K A J main done [] R' ∧ R'.queue = [] := by
  have hstep : ∀ R R1 : Discovery Ctx Fun Inst Val σ, Traversed P T K A J main done [] R →
      (!R.queue.isEmpty) = true → expandNext P T K R = some R1 →
      Traversed P T K A J main done [] R1 := by
    intro R R1 h _ hr
    unfold expandNext at hr
    split at hr
    · cases hr
    · rename_i node queue hq
      cases hr
      exact visitCallNode hK h hq
  obtain ⟨h1, hc⟩ := loop_inv hstep n h hr
  refine ⟨h1, ?_⟩
  cases hq : R'.queue with
  | nil => rfl
  | cons a l =>
    rw [hq] at hc
    cases hc

/-! ## targets -/

/-- a call gets other targets -/
theorem setCall (hK : Follows P T K A J) (h : Traversed P T K A J main done rest R) {id : CallNodeID}
    {c c' : InDirectCallSite Ctx Fun Inst Val} (hc : R.module.nodes[id]? = some (.inDirect c))
    (hs : c.Same c') :
    Traversed P T K A J main done rest { R with module := R.module.setCall id c' } := by
  have he := CtxModule.setCall_extends hc hs
  have hdirect : ∀ (i : CallNodeID) f, (R.module.setCall id c').nodes[i]? = some (.direct f) →
      R.module.nodes[i]? = some (.direct f) := by
    intro i f hf
    obtain ⟨n, hn, -, hback⟩ := CtxModule.setCall_back hc hs hf
    rw [hback f rfl] at hn
    exact hn
  have hB : ({ R with module := R.module.setCall id c' } : Discovery Ctx Fun Inst Val σ).Base := by
    refine ⟨fun k i => ?_, h.base.nodup, fun i => ?_, h.base.started, fun i hi => ?_⟩
    · show R.module.find k = some i ↔ _
      rw [h.base.find]
      constructor
      · rintro ⟨n, hn, hkey⟩
        obtain ⟨n', hn', hkey'⟩ := he.key hn
        exact ⟨n', hn', hkey'.trans hkey⟩
      · rintro ⟨n', hn', hkey⟩
        obtain ⟨n, hn, hkey', -⟩ := CtxModule.setCall_back hc hs hn'
        exact ⟨n, hn, hkey'.trans hkey⟩
    · show i ∈ R.visited ++ R.queue ↔ _
      rw [h.base.body]
      constructor
      · rintro ⟨f, hf, hbody⟩
        exact ⟨f, he.direct i f hf, hbody⟩
      · rintro ⟨f, hf, hbody⟩
        exact ⟨f, hdirect i f hf, hbody⟩
    · show i < (R.module.nodes.set id _).length
      rw [List.length_set]
      exact h.base.bound i hi
  exact h.later he (fun i f hf _ => hdirect i f hf) rfl hB (hK.call hc hs h.data) rfl

omit [DecidableEq Ctx] [DecidableEq Fun] [DecidableEq Inst] in
/-- the edge into an indirect node is the one of its call -/
theorem call_of_edge (h : Traversed P T K A J main done rest R) {e : CallEdge Inst}
    (he : e ∈ R.module.edges) {c : InDirectCallSite Ctx Fun Inst Val}
    (hc : R.module.nodes[e.dst]? = some (.inDirect c)) :
    ∃ f, Site P R.module e.src f e.inst ∧ f.context = c.context ∧ e.inst = c.callSite := by
  obtain ⟨f, n, option, hsite, hn, hl⟩ := h.edge e he
  rw [hc] at hn
  cases hn
  refine ⟨f, hsite, ?_⟩
  generalize hk : (CallGraphNode.inDirect c : CallGraphNode Ctx Fun Inst Val).key = k at hl
  cases hl with
  | visit hcall =>
    rw [← hk] at hcall
    exact callee_inDirect hcall
  | target _ _ _ => cases hk

omit [DecidableEq Ctx] [DecidableEq Fun] [DecidableEq Inst] in
/-- a call of the resolved ones -/
theorem addDone (h : Traversed P T K A J main done rest R) {id : CallNodeID} {F : Fun}
    {e : CallEdge Inst} (he : e ∈ R.module.edges) (hdst : e.dst = id)
    (hall : ∀ G, (K.beforeNewNode F e.inst).option ≠ .ignore →
      (K.beforeNewNode F e.inst).redirectTo = .function G → ∃ f d n,
        R.module.nodes[e.src]? = some (.direct f) ∧ ⟨e.src, e.inst, d⟩ ∈ R.module.edges ∧
        R.module.nodes[d]? = some n ∧ n.key = .direct (T.contextEvolve f.context e.inst) G) :
    Traversed P T K A J main (done ++ [(id, F)]) rest R := by
  refine ⟨h.base, h.data, h.entry, h.called, h.edge, fun id' F' hmem => ?_⟩
  rcases List.mem_append.mp hmem with hmem | hmem
  · exact h.resolved id' F' hmem
  · cases List.mem_singleton.mp hmem
    exact ⟨e, he, hdst, hall⟩

/-- a target of a call is resolved -/
theorem resolveCallTo (hK : Follows P T K A J) (h : Traversed P T K A J main done [] R)
    (hq : R.queue = []) {id : CallNodeID} {c : InDirectCallSite Ctx Fun Inst Val} {F : Fun}
    (hc : R.module.nodes[id]? = some (.inDirect c)) (hF : A c.context c.callSite F) {n : Nat}
    (hr : resolveCallTo P T K n R id F = some R') :
    Traversed P T K A J main (done ++ [(id, F)]) [] R' ∧ R'.queue = [] := by
  obtain ⟨e, caller, hpred, hcaller, hcases⟩ := resolveCallTo_cases P T K h.base hq hr
  have hmem : e ∈ R.module.edges ∧ e.dst = id := by
    have : e ∈ R.module.predEdges id := by
      rw [hpred]
      exact List.mem_singleton_self e
    obtain ⟨h1, h2⟩ := List.mem_filter.mp this
    exact ⟨h1, of_decide_eq_true h2⟩
  obtain ⟨he, rfl⟩ := hmem
  obtain ⟨f, hsite, hctx, hinst⟩ := h.call_of_edge he hc
  rw [hsite.node] at hcaller
  cases hcaller
  rcases hcases with ⟨hig, rfl⟩ | ⟨G, node, R1, c1, hig, hG, hget, hc1, hrun⟩
  · exact ⟨h.addDone he rfl fun G hne => absurd hig hne, hq⟩
  have hleads : Leads P T K A f.context e.inst (.direct (T.contextEvolve f.context e.inst) G)
      (K.beforeNewNode F e.inst).option := .target (by rw [hctx, hinst]; exact hF) hG hig
  obtain ⟨h1, hext1, -, m, hm, hkey⟩ := h.node hK hsite (hleads.lookup hget)
  -- the node is noted at the call, and gets its edge
  have hsame : c1.Same { c1 with resolvedNode := c1.resolvedNode ++ [node] } := ⟨rfl, rfl, rfl⟩
  have h2 := h1.setCall hK hc1 hsame
  have hext2 := CtxModule.setCall_extends hc1 hsame
  obtain ⟨m2, hm2, hkey2⟩ := hext2.key hm
  have hsite2 := (hsite.extends hext1).extends hext2
  have hleads2 : Leads P T K A f.context e.inst m2.key (K.beforeNewNode F e.inst).option := by
    rw [hkey2, hkey]
    exact hleads
  have h3 := h2.newEdge hK hsite2 hm2 hleads2 fun p hp => .inl hp
  have hext3 := CtxModule.insertEdge_extends (R1.resolved e.dst c1 node).module ⟨e.src, e.inst, node⟩
  obtain ⟨m3, hm3, hkey3⟩ := hext3.key hm2
  have h4 : Traversed P T K A J main (done ++ [(e.dst, F)]) []
      (createEdge K (R1.resolved e.dst c1 node) e.src (some node) e.inst) := by
    refine h3.addDone (hext3.edges (hext2.edges (hext1.edges he))) rfl fun G' _ hG' => ?_
    rw [hG] at hG'
    cases hG'
    refine ⟨f, node, m3, hext3.direct _ f hsite2.node, ?_, hm3, ?_⟩
    · exact (CtxModule.mem_insertEdge ..).mpr (.inr rfl)
    · exact (hkey3.trans hkey2).trans hkey
  rcases hrun with ⟨hqueue, rfl⟩ | ⟨hqueue, hrun⟩
  · exact ⟨h4, hqueue⟩
  · have h5 : Traversed P T K A J main (done ++ [(e.dst, F)]) []
        { createEdge K (R1.resolved e.dst c1 node) e.src (some node) e.inst with queue := [node] } := by
      rw [← hqueue]
      exact h4
    exact expandFromNode hK h5 hrun

/-! ## the entry node -/

omit [DecidableEq Inst] in
/-- the entry node, which waits in the queue -/
theorem base_entry (C : Ctx) (F : Fun) (data : σ) :
    (⟨(CtxModule.createCallNode {} C F none).1, [0], data, [.newDirect 0]⟩ :
      Discovery Ctx Fun Inst Val σ).Base := by
  let empty : Discovery Ctx Fun Inst Val σ := ⟨{}, [], data, []⟩
  have hempty : empty.Base := by
    refine ⟨fun k id => ⟨fun h => ?_, ?_⟩, List.nodup_nil, fun id => ⟨fun h => (by cases h), ?_⟩,
      fun id hid => (by cases hid), ?_⟩
    · cases k <;> cases h
    · rintro ⟨n, hn, -⟩
      cases hn
    · rintro ⟨f, hf, -⟩
      cases hf
    · rintro id (h | h) <;> cases h
  have hadd : Added (.direct ⟨C, F, none, false⟩) [0] [.newDirect 0] empty
      ⟨(CtxModule.createCallNode {} C F none).1, [0], data, [.newDirect 0]⟩ := by
    refine ⟨rfl, rfl, rfl, Function.update_self .., fun k hk => ?_, rfl, rfl,
      fun e he => .inl (List.mem_singleton.mp he),
      .inl ⟨rfl, ⟨_, rfl, rfl⟩, List.mem_cons_self⟩⟩
    cases k with
    | direct C' F' =>
      refine Function.update_of_ne ?_ _ _
      intro heq
      cases heq
      exact hk rfl
    | inDirect C' I => rfl
  exact hadd.base hempty

theorem buildInitCallGraph (hK : Follows P T K A J) {n : Nat} {entryFun : Fun} {data : σ}
    (hJ : (K.onNewDirect (CtxModule.createCallNode {} T.getInitialCtx entryFun none).1 0 data).2 =
        true →
      J (CtxModule.createCallNode {} T.getInitialCtx entryFun none).1
        (K.onNewDirect (CtxModule.createCallNode {} T.getInitialCtx entryFun none).1 0 data).1)
    (hr : buildInitCallGraph P T K n entryFun data = some R) :
    Traversed P T K A J ⟨T.getInitialCtx, entryFun, none, false⟩ [] [] R ∧ R.queue = [] := by
  unfold Discovery.buildInitCallGraph at hr
  split at hr
  · cases hr
  · dsimp only at hr
    split at hr
    · rename_i hbody
      refine expandFromNode hK ?_ hr
      refine ⟨base_entry T.getInitialCtx entryFun _, hJ hbody, rfl, fun id hid => (by cases hid),
        fun e he => (by cases he), fun id F hF => (by cases hF)⟩
    · cases hr

end Traversed

end

end Discovery

end AserPTA
