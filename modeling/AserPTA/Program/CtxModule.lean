import AserPTA.Loop.While
import AserPTA.Loop.Fold
import AserPTA.ConsGraph.Node
import Mathlib.Logic.Function.Basic

/-!
# The program with contexts, and its call graph

`CtxModule` discovers the functions of a program, each in its contexts, from the entry function on.
The constraint graph is built by the callbacks, whose state is a parameter.

* `CallSites`, `CtxDomain`     the call instructions of a program and the evolution of contexts;
* `InterceptResult`            what the language model makes of a direct call;
* `CallGraphNode`, `CtxModule` the call graph with its two maps;
* `CallBacks`, `Discovery`     the callbacks, and the state of a traversal;
* `buildInitCallGraph`, `resolveCallTo`   the source's functions;
* `visitCall_cases`            all that the visit of one call instruction can do;
* `Kept`                       the rule for properties that the callbacks keep.
-/

namespace AserPTA

open Loop

/-- The call and invoke instructions of each function in layout order, and what a direct call calls
(`CallSite::getTargetFunction`, `none` for an indirect call).  An instruction is in one function. -/
structure CallSites (Fun Inst : Type) where
  calls : Fun → List Inst
  getTargetFunction : Inst → Option Fun
  isDeclaration : Fun → Bool
  nodup : ∀ F, (calls F).Nodup
  unique : ∀ {F G : Fun} {I : Inst}, I ∈ calls F → I ∈ calls G → F = G

structure CtxDomain (Ctx Inst : Type) where
  getInitialCtx : Ctx
  getGlobalCtx : Ctx
  contextEvolve : Ctx → Inst → Ctx

/-! ## interception -/

inductive InterceptOption where
  | expandBody
  | onlyCallSite
  | ignore
  deriving DecidableEq

/-- a value is a function or another pointer to a function -/
inductive Redirect (Fun Val : Type) where
  | function (F : Fun)
  | indirect (V : Val)
  deriving DecidableEq

structure InterceptResult (Fun Val : Type) where
  redirectTo : Redirect Fun Val
  option : InterceptOption
  deriving DecidableEq

/-! ## call graph -/

structure CtxFunction (Ctx Fun Inst : Type) where
  context : Ctx
  function : Fun
  callSite : Option Inst
  isExt : Bool := false
  deriving DecidableEq

/-- `funPtr` is the value that a direct call was redirected to -/
structure InDirectCallSite (Ctx Fun Inst Val : Type) where
  context : Ctx
  callSite : Inst
  funPtr : Option Val
  targets : List Fun := []
  resolvedNode : List CallNodeID := []
  deriving DecidableEq

inductive CallGraphNode (Ctx Fun Inst Val : Type) where
  | direct (f : CtxFunction Ctx Fun Inst)
  | inDirect (c : InDirectCallSite Ctx Fun Inst Val)
  deriving DecidableEq

/-- the keys of the two maps -/
inductive CallKey (Ctx Fun Inst : Type) where
  | direct (C : Ctx) (F : Fun)
  | inDirect (C : Ctx) (I : Inst)
  deriving DecidableEq

variable {Ctx Fun Inst Val σ : Type}

namespace CallGraphNode

def key : CallGraphNode Ctx Fun Inst Val → CallKey Ctx Fun Inst
  | .direct f => .direct f.context f.function
  | .inDirect c => .inDirect c.context c.callSite

def isIndirectCall : CallGraphNode Ctx Fun Inst Val → Bool
  | .direct _ => false
  | .inDirect _ => true

def getContext : CallGraphNode Ctx Fun Inst Val → Ctx
  | .direct f => f.context
  | .inDirect c => c.context

def markAsExtFunction : CallGraphNode Ctx Fun Inst Val → CallGraphNode Ctx Fun Inst Val
  | .direct f => .direct { f with isExt := true }
  | .inDirect c => .inDirect c

end CallGraphNode

/-- caller --instruction--> callee -/
structure CallEdge (Inst : Type) where
  src : CallNodeID
  inst : Inst
  dst : CallNodeID
  deriving DecidableEq

/-- The nodes of the call graph by their numbers, its edges in the order of their insertion, and the
maps that find the node of a key. -/
structure CtxModule (Ctx Fun Inst Val : Type) where
  nodes : List (CallGraphNode Ctx Fun Inst Val) := []
  edges : List (CallEdge Inst) := []
  ctxFunMap : Ctx × Fun → Option CallNodeID := fun _ => none
  ctxFunPtrMap : Ctx × Inst → Option CallNodeID := fun _ => none

namespace CtxModule

variable [DecidableEq Ctx] [DecidableEq Fun] [DecidableEq Inst]

/-- a new direct node, put into the map -/
def createCallNode (M : CtxModule Ctx Fun Inst Val) (C : Ctx) (F : Fun) (I : Option Inst) :
    CtxModule Ctx Fun Inst Val × CallNodeID :=
  ({ M with
      nodes := M.nodes ++ [.direct ⟨C, F, I, false⟩]
      ctxFunMap := Function.update M.ctxFunMap (C, F) (some M.nodes.length) }, M.nodes.length)

/-- a new indirect node, put into the map -/
def createIndCallNode (M : CtxModule Ctx Fun Inst Val) (C : Ctx) (target : Option Val) (I : Inst) :
    CtxModule Ctx Fun Inst Val × CallNodeID :=
  ({ M with
      nodes := M.nodes ++ [.inDirect ⟨C, I, target, [], []⟩]
      ctxFunPtrMap := Function.update M.ctxFunPtrMap (C, I) (some M.nodes.length) }, M.nodes.length)

def markAsExtFunction (M : CtxModule Ctx Fun Inst Val) (id : CallNodeID) :
    CtxModule Ctx Fun Inst Val :=
  { M with nodes := M.nodes.modify id CallGraphNode.markAsExtFunction }

/-- the edge is added to a set -/
def insertEdge (M : CtxModule Ctx Fun Inst Val) (e : CallEdge Inst) : CtxModule Ctx Fun Inst Val :=
  if e ∈ M.edges then M else { M with edges := M.edges ++ [e] }

/-- the lookup in the map of the key -/
def find (M : CtxModule Ctx Fun Inst Val) : CallKey Ctx Fun Inst → Option CallNodeID
  | .direct C F => M.ctxFunMap (C, F)
  | .inDirect C I => M.ctxFunPtrMap (C, I)

def predEdges (M : CtxModule Ctx Fun Inst Val) (id : CallNodeID) : List (CallEdge Inst) :=
  M.edges.filter fun e => e.dst = id

end CtxModule

/-! ## callbacks -/

/-- The callbacks are given the call graph and the node, or the edge, that was added to it. -/
structure CallBacks (Ctx Fun Inst Val σ : Type) where
  beforeNewNode : Fun → Inst → InterceptResult Fun Val
  onNewDirect : CtxModule Ctx Fun Inst Val → CallNodeID → σ → σ × Bool
  onNewInDirect : CtxModule Ctx Fun Inst Val → CallNodeID → σ → σ
  onNewEdge : CtxModule Ctx Fun Inst Val → CallEdge Inst → σ → σ

/-- the calls of the callbacks and the visits of function bodies -/
inductive CallEvent (Inst : Type) where
  | newDirect (id : CallNodeID)
  | newInDirect (id : CallNodeID)
  | newEdge (e : CallEdge Inst)
  | visit (id : CallNodeID)
  deriving DecidableEq

/-- a traversal of the call graph; `trace` is a history that no function reads -/
structure Discovery (Ctx Fun Inst Val σ : Type) where
  module : CtxModule Ctx Fun Inst Val
  queue : List CallNodeID
  data : σ
  trace : List (CallEvent Inst)

namespace Discovery

variable [DecidableEq Ctx] [DecidableEq Fun] [DecidableEq Inst]
variable (P : CallSites Fun Inst) (T : CtxDomain Ctx Inst) (K : CallBacks Ctx Fun Inst Val σ)

def getOrCreateInDirectCallNode (R : Discovery Ctx Fun Inst Val σ) (C : Ctx) (I : Inst)
    (target : Option Val) : Discovery Ctx Fun Inst Val σ × CallNodeID :=
  match R.module.ctxFunPtrMap (C, I) with
  | some id => (R, id)
  | none =>
    let callNode := R.module.createIndCallNode C target I
    ({ R with
        module := callNode.1
        data := K.onNewInDirect callNode.1 callNode.2 R.data
        trace := R.trace ++ [.newInDirect callNode.2] }, callNode.2)

/-- a direct node for a function that is not in the map, and whether it is to be expanded -/
def createDirect (R : Discovery Ctx Fun Inst Val σ) (C : Ctx) (F : Fun) (I : Inst)
    (option : InterceptOption) : Discovery Ctx Fun Inst Val σ × CallNodeID × Bool :=
  let callNode := R.module.createCallNode C F (some I)
  match option with
  | .expandBody =>
    let result := K.onNewDirect callNode.1 callNode.2 R.data
    ({ R with
        module := if result.2 then callNode.1 else callNode.1.markAsExtFunction callNode.2
        data := result.1
        trace := R.trace ++ [.newDirect callNode.2] }, callNode.2, result.2)
  | _ => ({ R with module := callNode.1.markAsExtFunction callNode.2 }, callNode.2, false)

/-- for the entry node see `buildInitCallGraph` -/
def getOrCreateCallNode (R : Discovery Ctx Fun Inst Val σ) (curCtx preCtx : Ctx) (F : Fun)
    (I : Inst) : Discovery Ctx Fun Inst Val σ × Option CallNodeID × Bool :=
  let interceptResult := K.beforeNewNode F I
  if interceptResult.option = .ignore then (R, none, false)
  else match interceptResult.redirectTo with
    | .function F' =>
      match R.module.ctxFunMap (curCtx, F') with
      | some id => (R, some id, false)
      | none =>
        let r := createDirect K R curCtx F' I interceptResult.option
        (r.1, some r.2.1, r.2.2)
    | .indirect V =>
      -- use previous ctx as the indirect call has not been resolved yet
      let r := getOrCreateInDirectCallNode K R preCtx I (some V)
      (r.1, some r.2, false)

/-- nothing happens for a null node -/
def createEdge (R : Discovery Ctx Fun Inst Val σ) (src : CallNodeID) (dst : Option CallNodeID)
    (I : Inst) : Discovery Ctx Fun Inst Val σ :=
  match dst with
  | none => R
  | some dst =>
    let M := R.module.insertEdge ⟨src, I, dst⟩
    { R with
      module := M
      data := K.onNewEdge M ⟨src, I, dst⟩ R.data
      trace := R.trace ++ [.newEdge ⟨src, I, dst⟩] }

/-- a new node to expand goes to the end of the queue -/
def visitDirectCallSite (R : Discovery Ctx Fun Inst Val σ) (curCtx preCtx : Ctx) (F : Fun)
    (I : Inst) : Discovery Ctx Fun Inst Val σ × Option CallNodeID :=
  let r := getOrCreateCallNode K R curCtx preCtx F I
  ({ r.1 with queue := if r.2.2 then r.1.queue ++ r.2.1.toList else r.1.queue }, r.2.1)

/-- the part of `visitCallNode` for one call instruction -/
def visitCall (node : CallNodeID) (context : Ctx) (R : Discovery Ctx Fun Inst Val σ) (I : Inst) :
    Discovery Ctx Fun Inst Val σ :=
  match P.getTargetFunction I with
  | none =>
    let r := getOrCreateInDirectCallNode K R context I none
    createEdge K r.1 node (some r.2) I
  | some fn =>
    let r := visitDirectCallSite K R (T.contextEvolve context I) context fn I
    createEdge K r.1 node r.2 I

def visitCallNode (R : Discovery Ctx Fun Inst Val σ) (node : CallNodeID) :
    Discovery Ctx Fun Inst Val σ :=
  match R.module.nodes[node]? with
  | some (.direct f) =>
    (P.calls f.function).foldl (visitCall P T K node f.context)
      { R with trace := R.trace ++ [.visit node] }
  | _ => R

/-- the body of the loop over the queue -/
def expandNext (R : Discovery Ctx Fun Inst Val σ) : Option (Discovery Ctx Fun Inst Val σ) :=
  match R.queue with
  | [] => none
  | curNode :: rest => some (visitCallNode P T K { R with queue := rest } curNode)

def expandFromNode (n : Nat) (R : Discovery Ctx Fun Inst Val σ) (root : CallNodeID) :
    Option (Discovery Ctx Fun Inst Val σ) :=
  loop (fun R => !R.queue.isEmpty) (expandNext P T K) n { R with queue := [root] }

/-- `none` where the entry function is a declaration, or `assert(needToExpand)` fails; what
`beforeNewNode` returns for the entry function is not used -/
def buildInitCallGraph (n : Nat) (entryFun : Fun) (data : σ) :
    Option (Discovery Ctx Fun Inst Val σ) :=
  if P.isDeclaration entryFun then none
  else
    let callNode := CtxModule.createCallNode {} T.getInitialCtx entryFun none
    let result := K.onNewDirect callNode.1 callNode.2 data
    if result.2 then
      expandFromNode P T K n ⟨callNode.1, [], result.1, [.newDirect callNode.2]⟩ callNode.2
    else none

/-- `InDirectCallSite::resolvedToNode` -/
def resolvedToNode (R : Discovery Ctx Fun Inst Val σ) (resolved node : CallNodeID) :
    Option (Discovery Ctx Fun Inst Val σ) :=
  match R.module.nodes[resolved]? with
  | some (.inDirect c) =>
    -- assert(result)
    if node ∈ c.resolvedNode then none
    else
      let c' := { c with resolvedNode := c.resolvedNode ++ [node] }
      let M := { R.module with nodes := R.module.nodes.set resolved (.inDirect c') }
      some { R with module := M }
  | _ => none

/-- `InDirectCallSite::resolvedTo`: whether the target is new; none is taken beyond the limit -/
def resolvedTo (MaxIndirectTarget : Nat) (R : Discovery Ctx Fun Inst Val σ) (resolved : CallNodeID)
    (F : Fun) : Discovery Ctx Fun Inst Val σ × Bool :=
  match R.module.nodes[resolved]? with
  | some (.inDirect c) =>
    if c.targets.length ≥ MaxIndirectTarget ∨ F ∈ c.targets then (R, false)
    else
      let c' := { c with targets := c.targets ++ [F] }
      let M := { R.module with nodes := R.module.nodes.set resolved (.inDirect c') }
      ({ R with module := M }, true)
  | _ => (R, false)

/-- the loop over the incoming edges has one turn, as the assertion says -/
def resolveCallTo (n : Nat) (R : Discovery Ctx Fun Inst Val σ) (resolvedNode : CallNodeID)
    (target : Fun) : Option (Discovery Ctx Fun Inst Val σ) :=
  match R.module.predEdges resolvedNode with
  | [e] =>
    match R.module.nodes[e.src]? with
    | none => none
    | some callerNode =>
      let callerCtx := callerNode.getContext
      let r := getOrCreateCallNode K R (T.contextEvolve callerCtx e.inst) callerCtx target e.inst
      match r.2.1 with
      -- the resolved function might then be ignored by the language model
      | none => some r.1
      | some node =>
        if (r.1.module.nodes[node]?).any (·.isIndirectCall) then none
        else
          (resolvedToNode r.1 resolvedNode node).bind fun R =>
            let R := createEdge K R e.src (some node) e.inst
            if r.2.2 then expandFromNode P T K n R node else some R
  | _ => none

/-! ## the visit of a call instruction -/

/-- the key of the node for a call of `fn` in `preCtx` -/
def target (preCtx : Ctx) (fn : Fun) (I : Inst) : CallKey Ctx Fun Inst :=
  match (K.beforeNewNode fn I).redirectTo with
  | .function F => .direct (T.contextEvolve preCtx I) F
  | .indirect _ => .inDirect preCtx I

/-- the key of the node that a call leads to, `none` if the call is ignored -/
def callee (context : Ctx) (I : Inst) : Option (CallKey Ctx Fun Inst) :=
  match P.getTargetFunction I with
  | none => some (.inDirect context I)
  | some fn =>
    if (K.beforeNewNode fn I).option = .ignore then none else some (target T K context fn I)

/-- what the interception of a direct call asks for -/
def optionOf (I : Inst) : InterceptOption :=
  match P.getTargetFunction I with
  | none => .expandBody
  | some fn => (K.beforeNewNode fn I).option

/-- a new direct node that waits in the queue if it is to be expanded -/
def discover (R : Discovery Ctx Fun Inst Val σ) (C : Ctx) (F : Fun) (I : Inst)
    (option : InterceptOption) : Discovery Ctx Fun Inst Val σ :=
  let r := createDirect K R C F I option
  { r.1 with queue := if r.2.2 then r.1.queue ++ [r.2.1] else r.1.queue }

/-- a new indirect node -/
def discoverIndirect (R : Discovery Ctx Fun Inst Val σ) (C : Ctx) (I : Inst) (target : Option Val) :
    Discovery Ctx Fun Inst Val σ :=
  let callNode := R.module.createIndCallNode C target I
  { R with
    module := callNode.1
    data := K.onNewInDirect callNode.1 callNode.2 R.data
    trace := R.trace ++ [.newInDirect callNode.2] }

/-- the node of a key: one that is known, or a new one -/
inductive GetNode (option : InterceptOption) (I : Inst) (R : Discovery Ctx Fun Inst Val σ) :
    CallKey Ctx Fun Inst → CallNodeID → Discovery Ctx Fun Inst Val σ → Prop
  | known {k : CallKey Ctx Fun Inst} {id : CallNodeID} (h : R.module.find k = some id) :
      GetNode option I R k id R
  | direct (C : Ctx) (F : Fun) (h : R.module.find (.direct C F) = none) :
      GetNode option I R (.direct C F) R.module.nodes.length (discover K R C F I option)
  | inDirect (C : Ctx) (target : Option Val) (h : R.module.find (.inDirect C I) = none) :
      GetNode option I R (.inDirect C I) R.module.nodes.length (discoverIndirect K R C I target)

theorem getOrCreateInDirectCallNode_spec (option : InterceptOption)
    (R : Discovery Ctx Fun Inst Val σ) (C : Ctx) (I : Inst) (target : Option Val) :
    let r := getOrCreateInDirectCallNode K R C I target
    GetNode K option I R (.inDirect C I) r.2 r.1 := by
  unfold getOrCreateInDirectCallNode
  split
  · rename_i id h
    exact .known h
  · rename_i h
    exact .inDirect C target h

theorem visitDirectCallSite_spec (R : Discovery Ctx Fun Inst Val σ) (preCtx : Ctx) (fn : Fun)
    (I : Inst) (hig : (K.beforeNewNode fn I).option ≠ .ignore) :
    ∃ id R1, GetNode K (K.beforeNewNode fn I).option I R (target T K preCtx fn I) id R1 ∧
      visitDirectCallSite K R (T.contextEvolve preCtx I) preCtx fn I = (R1, some id) := by
  unfold visitDirectCallSite getOrCreateCallNode target
  rw [if_neg hig]
  cases hr : (K.beforeNewNode fn I).redirectTo with
  | indirect V =>
    exact ⟨_, _, getOrCreateInDirectCallNode_spec K _ R preCtx I (some V), rfl⟩
  | function F =>
    dsimp only
    split
    · rename_i id hm
      exact ⟨_, _, .known hm, rfl⟩
    · rename_i hm
      refine ⟨_, _, .direct _ _ hm, ?_⟩
      unfold discover createDirect
      cases (K.beforeNewNode fn I).option <;> rfl

/-- all that the visit of a call instruction can do -/
theorem visitCall_cases (node : CallNodeID) (context : Ctx) (R : Discovery Ctx Fun Inst Val σ)
    (I : Inst) :
    (callee P T K context I = none ∧ visitCall P T K node context R I = R) ∨
    ∃ k id R1, callee P T K context I = some k ∧ GetNode K (optionOf P K I) I R k id R1 ∧
      visitCall P T K node context R I = createEdge K R1 node (some id) I := by
  unfold callee visitCall optionOf
  cases hf : P.getTargetFunction I with
  | none =>
    exact .inr ⟨_, _, _, rfl, getOrCreateInDirectCallNode_spec K _ R context I none, rfl⟩
  | some fn =>
    by_cases hig : (K.beforeNewNode fn I).option = .ignore
    · left
      simp [hig, visitDirectCallSite, getOrCreateCallNode, createEdge]
    · obtain ⟨id, R1, hget, hvisit⟩ := visitDirectCallSite_spec T K R context fn I hig
      right
      dsimp only
      rw [if_neg hig, hvisit]
      exact ⟨_, id, R1, rfl, hget, rfl⟩

/-! ## what the callbacks keep -/

/-- A property of the call graph and of the state of the callbacks that every change of the call graph
keeps, with the callback that is made for it. -/
structure Kept (J : CtxModule Ctx Fun Inst Val → σ → Prop) : Prop where
  onNewDirect : ∀ M s C F I, J M s →
    J (M.createCallNode C F I).1 (K.onNewDirect (M.createCallNode C F I).1 M.nodes.length s).1
  external : ∀ M s C F I, J M s → J (M.createCallNode C F I).1 s
  markAsExt : ∀ M s id, J M s → J (M.markAsExtFunction id) s
  onNewInDirect : ∀ M s C target I, M.ctxFunPtrMap (C, I) = none → J M s →
    J (M.createIndCallNode C target I).1
      (K.onNewInDirect (M.createIndCallNode C target I).1 M.nodes.length s)
  onNewEdge : ∀ M s e, J M s → J (M.insertEdge e) (K.onNewEdge (M.insertEdge e) e s)
  resolved : ∀ M s id c node, M.nodes[id]? = some (.inDirect c) → J M s →
    J { M with nodes := M.nodes.set id (.inDirect
      { c with resolvedNode := c.resolvedNode ++ [node] }) } s

namespace Kept

variable {P T K} {J : CtxModule Ctx Fun Inst Val → σ → Prop} (h : Kept K J)
include h

theorem createDirect {R : Discovery Ctx Fun Inst Val σ} (hR : J R.module R.data) (C : Ctx) (F : Fun)
    (I : Inst) (option : InterceptOption) :
    J (createDirect K R C F I option).1.module (createDirect K R C F I option).1.data := by
  unfold Discovery.createDirect
  cases option with
  | expandBody =>
    have hnew := h.onNewDirect R.module R.data C F (some I) hR
    dsimp only
    split
    · exact hnew
    · exact h.markAsExt _ _ _ hnew
  | onlyCallSite => exact h.markAsExt _ _ _ (h.external _ _ C F (some I) hR)
  | ignore => exact h.markAsExt _ _ _ (h.external _ _ C F (some I) hR)

theorem getOrCreateInDirect {R : Discovery Ctx Fun Inst Val σ} (hR : J R.module R.data) (C : Ctx)
    (I : Inst) (target : Option Val) :
    J (getOrCreateInDirectCallNode K R C I target).1.module
      (getOrCreateInDirectCallNode K R C I target).1.data := by
  unfold Discovery.getOrCreateInDirectCallNode
  split
  · exact hR
  · rename_i hm
    exact h.onNewInDirect R.module R.data C target I hm hR

theorem getOrCreateCallNode {R : Discovery Ctx Fun Inst Val σ} (hR : J R.module R.data)
    (curCtx preCtx : Ctx) (F : Fun) (I : Inst) :
    J (getOrCreateCallNode K R curCtx preCtx F I).1.module
      (getOrCreateCallNode K R curCtx preCtx F I).1.data := by
  unfold Discovery.getOrCreateCallNode
  dsimp only
  split
  · exact hR
  · split
    · split
      · exact hR
      · exact h.createDirect hR _ _ _ _
    · exact h.getOrCreateInDirect hR _ _ _

theorem createEdge {R : Discovery Ctx Fun Inst Val σ} (hR : J R.module R.data) (src : CallNodeID)
    (dst : Option CallNodeID) (I : Inst) :
    J (createEdge K R src dst I).module (createEdge K R src dst I).data := by
  cases dst with
  | none => exact hR
  | some dst => exact h.onNewEdge _ _ _ hR

theorem visitCall {R : Discovery Ctx Fun Inst Val σ} (hR : J R.module R.data) (node : CallNodeID)
    (context : Ctx) (I : Inst) :
    J (visitCall P T K node context R I).module (visitCall P T K node context R I).data := by
  unfold Discovery.visitCall
  split
  · exact h.createEdge (h.getOrCreateInDirect hR _ _ _) _ _ _
  · exact h.createEdge (R := (visitDirectCallSite K R _ _ _ I).1)
      (h.getOrCreateCallNode hR _ _ _ _) _ _ _

theorem visitCallNode {R : Discovery Ctx Fun Inst Val σ} (hR : J R.module R.data)
    (node : CallNodeID) :
    J (visitCallNode P T K R node).module (visitCallNode P T K R node).data := by
  unfold Discovery.visitCallNode
  split
  · exact foldl_inv (I := fun R : Discovery Ctx Fun Inst Val σ => J R.module R.data)
      (fun R I _ hR => h.visitCall hR _ _ I) hR
  · exact hR

theorem expandFromNode {R R' : Discovery Ctx Fun Inst Val σ} (hR : J R.module R.data) {n : Nat}
    {root : CallNodeID} (hrun : expandFromNode P T K n R root = some R') :
    J R'.module R'.data := by
  refine (loop_inv (I := fun R : Discovery Ctx Fun Inst Val σ => J R.module R.data) ?_ n
    (s := { R with queue := [root] }) hR hrun).1
  intro R R' hR _ hstep
  unfold expandNext at hstep
  split at hstep
  · cases hstep
  · rename_i curNode rest hq
    cases hstep
    exact h.visitCallNode (R := { R with queue := rest }) hR curNode

theorem buildInitCallGraph {s : σ} (h0 : J {} s) {n : Nat} {entryFun : Fun}
    {R : Discovery Ctx Fun Inst Val σ} (hrun : buildInitCallGraph P T K n entryFun s = some R) :
    J R.module R.data := by
  unfold Discovery.buildInitCallGraph at hrun
  split at hrun
  · cases hrun
  · dsimp only at hrun
    split at hrun
    · exact h.expandFromNode (R := ⟨_, _, _, _⟩) (h.onNewDirect {} s _ entryFun none h0) hrun
    · cases hrun

theorem resolvedToNode {R R' : Discovery Ctx Fun Inst Val σ} (hR : J R.module R.data)
    {resolved node : CallNodeID} (hrun : resolvedToNode R resolved node = some R') :
    J R'.module R'.data := by
  unfold Discovery.resolvedToNode at hrun
  split at hrun
  · rename_i c hc
    split at hrun
    · cases hrun
    · cases hrun
      exact h.resolved _ _ _ c node hc hR
  · cases hrun

theorem resolveCallTo {R R' : Discovery Ctx Fun Inst Val σ} (hR : J R.module R.data) {n : Nat}
    {id : CallNodeID} {F : Fun} (hrun : resolveCallTo P T K n R id F = some R') :
    J R'.module R'.data := by
  unfold Discovery.resolveCallTo at hrun
  split at hrun
  · rename_i e he
    split at hrun
    · cases hrun
    · rename_i callerNode hcaller
      dsimp only at hrun
      have hnode := h.getOrCreateCallNode hR (T.contextEvolve callerNode.getContext e.inst)
        callerNode.getContext F e.inst
      split at hrun
      · cases hrun
        exact hnode
      · rename_i node hn
        split at hrun
        · cases hrun
        · obtain ⟨R1, hR1, hrest⟩ := Option.bind_eq_some_iff.mp hrun
          have hedge := h.createEdge (h.resolvedToNode hnode hR1) e.src (some node) e.inst
          split at hrest
          · exact h.expandFromNode hedge hrest
          · cases hrest
            exact hedge
  · cases hrun

end Kept

end Discovery

end AserPTA
