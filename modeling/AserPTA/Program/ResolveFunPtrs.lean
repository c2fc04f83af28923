import AserPTA.Program.Frame
import AserPTA.Solver.FunPtrs

/-!
# Indirect calls are resolved on the fly

`solve` runs the solver and resolves the function pointers that have grown, until nothing is resolved.

* `isCompatible`, `compatible`   the check of a target, with the assertions on intercepted calls;
* `updateFunPtrs`, `resolveFunPtrs`   the loops over the pointers, their objects and their calls;
* `Solve`          the states of the loop of `solve`.
-/

namespace AserPTA

open ConsGraph AserPTA.Core Loop Relation

variable {Ctx Fun Val Ty : Type}

section
variable [DecidableEq Ty] (P : Program Fun Val Ty) (L : LangModel Fun Val Ty)

/-- `DefaultLangModel::isCompatible`.  Only calls of `pthread_create` are intercepted, whose callback
takes an `i8*`; its return type does not matter. -/
def isCompatible (I : Val) (target : Fun) : Option Bool :=
  match (P.instr I).callInst.bind (·.getCalledFunction) with
  | none => none
  | some pthread =>
    if L.isThreadCreation pthread then
      match P.args target with
      | [arg] => some (decide (P.type arg = L.int8PtrTy))
      | _ => some false
    else none

/-- `none` where an assertion fails -/
def InDirectCallSite.compatible (c : InDirectCallSite Ctx Fun Val Val) (target : Fun) : Option Bool :=
  if c.funPtr.isSome then isCompatible P L c.callSite target
  else (P.instr c.callSite).callInst.map fun cs => P.isCompatibleCall c.callSite cs target

end

/-- The state of `solve`.  `changed` says whether anything was resolved in the last round, and
`resolved` is a history of the calls of `resolveCallTo` that no function reads. -/
structure Solving (Ctx Fun Val : Type) where
  disc : Discovery Ctx Fun Val Val (Except Abort (Builder Ctx Fun Val))
  resolved : List (CallNodeID × Fun)
  changed : Bool

namespace Solving

variable [DecidableEq Ctx] [DecidableEq Fun] [DecidableEq Val] [DecidableEq Ty]
variable (P : Program Fun Val Ty) (hlay : P.Layout) (T : CtxDomain Ctx Val)
  (L : LangModel Fun Val Ty) (w : Walk) (MaxIndirectTarget n : Nat)

/-- the program goes on if nothing has aborted -/
def goOn (R : Discovery Ctx Fun Val Val (Except Abort (Builder Ctx Fun Val))) :
    Option (Discovery Ctx Fun Val Val (Except Abort (Builder Ctx Fun Val))) :=
  match R.data with
  | .ok _ => some R
  | .error _ => none

/-- the body of the loop over the calls at a pointer -/
def resolveTarget (target : Fun) (s : Solving Ctx Fun Val) (indirectNode : CallNodeID) :
    Option (Solving Ctx Fun Val) :=
  match s.disc.module.nodes[indirectNode]? with
  | some (.inDirect c) =>
    (c.compatible P L target).bind fun ok =>
      if ok then
        let newTarget := s.disc.resolvedTo MaxIndirectTarget indirectNode target
        if newTarget.2 then do
          let R ← newTarget.1.resolveCallTo (P.callSites hlay) T (Builder.callBacks P T L) n
            indirectNode target
          let R ← goOn R
          return ⟨R, s.resolved ++ [(indirectNode, target)], true⟩
        else some s
      else some s
  | _ => none

/-- The body of the loop over the objects.  The set of calls is walked as it is when the loop over it
begins; `AttachOk` asks that no call is added to it in the meantime, which could move it. -/
def resolveObject (funPtrNode : NodeID) (s : Solving Ctx Fun Val) (x : NodeID) :
    Option (Solving Ctx Fun Val) :=
  match s.disc.data with
  | .error _ => none
  | .ok b =>
    match b.core.graph.kind x with
    | .ptrNode _ => some s
    | .objNode object =>
      match P.asFunction object.value with
      | none => some s
      | some target =>
        (w.walk (b.core.graph.indirect funPtrNode)).foldlM
          (resolveTarget P hlay T L MaxIndirectTarget n target) s

/-- the body of the loop over the pointers; it walks a copy of the points-to set -/
def resolvePtr (s : Solving Ctx Fun Val) (id : NodeID) : Option (Solving Ctx Fun Val) :=
  match s.disc.data with
  | .error _ => none
  | .ok b =>
    -- in case the node is collapsed
    let funPtrNode := b.core.graph.getSuperNode id
    if b.core.graph.isFunctionPtr funPtrNode then
      (bits (b.core.pts funPtrNode)).foldlM (resolveObject P hlay T L w MaxIndirectTarget n funPtrNode)
        s
    else none

def updateFunPtrs (s : Solving Ctx Fun Val) (funPtrs : Finset NodeID) :
    Option (Solving Ctx Fun Val) :=
  (bits funPtrs).foldlM (resolvePtr P hlay T L w MaxIndirectTarget n) { s with changed := false }

/-- the state with another graph -/
def setCore (s : Solving Ctx Fun Val) (b : Builder Ctx Fun Val)
    (c : Core (FSObject Ctx Val) (Pointer Ctx Val)) : Solving Ctx Fun Val :=
  { s with disc := { s.disc with data := .ok { b with core := c } } }

/-- `updateFunPtrs` on the pointers that have grown, which are then cleared -/
def resolveFunPtrs (s : Solving Ctx Fun Val) : Option (Solving Ctx Fun Val) :=
  match s.disc.data with
  | .error _ => none
  | .ok b =>
    (updateFunPtrs P hlay T L w MaxIndirectTarget n s b.core.updatedFunPtrs).bind fun s =>
      match s.disc.data with
      | .error _ => none
      | .ok b => some (s.setCore b { b.core with updatedFunPtrs := ∅ })

end Solving

/-! ## the calls of the call graph -/

namespace InDirectCallSite

/-- the same call, with more targets -/
structure Before (c c' : InDirectCallSite Ctx Fun Val Val) : Prop where
  context : c'.context = c.context
  callSite : c'.callSite = c.callSite
  funPtr : c'.funPtr = c.funPtr
  targets : c.targets ⊆ c'.targets
  length : c.targets.length ≤ c'.targets.length

namespace Before

variable {c c' c'' : InDirectCallSite Ctx Fun Val Val}

theorem refl (c : InDirectCallSite Ctx Fun Val Val) : Before c c :=
  ⟨rfl, rfl, rfl, List.Subset.refl _, le_rfl⟩

theorem trans (h : Before c c') (h' : Before c' c'') : Before c c'' where
  context := h'.context.trans h.context
  callSite := h'.callSite.trans h.callSite
  funPtr := h'.funPtr.trans h.funPtr
  targets := List.Subset.trans h.targets h'.targets
  length := h.length.trans h'.length

theorem addTarget (c : InDirectCallSite Ctx Fun Val Val) (F : Fun) :
    Before c { c with targets := c.targets ++ [F] } :=
  ⟨rfl, rfl, rfl, List.subset_append_left .., (List.sublist_append_left ..).length_le⟩

theorem getValue (h : Before c c') (P : Program Fun Val Ty) : c'.getValue P = c.getValue P := by
  unfold InDirectCallSite.getValue
  rw [h.funPtr, h.callSite]

theorem compatible [DecidableEq Ty] (h : Before c c') (P : Program Fun Val Ty)
    (L : LangModel Fun Val Ty) (F : Fun) : c'.compatible P L F = c.compatible P L F := by
  unfold InDirectCallSite.compatible
  rw [h.funPtr, h.callSite]

end Before

end InDirectCallSite

section
variable [DecidableEq Ty] (P : Program Fun Val Ty) (L : LangModel Fun Val Ty)

/-- the object is a function that the check of the call site does not refuse -/
def Callable (c : InDirectCallSite Ctx Fun Val Val) (o : FSObject Ctx Val) : Prop :=
  ∃ F, P.asFunction o.value = some F ∧ c.compatible P L F ≠ some false

/-- and it is not among the targets, although the limit is not reached -/
def Unresolved (MaxIndirectTarget : Nat) (c : InDirectCallSite Ctx Fun Val Val)
    (o : FSObject Ctx Val) : Prop :=
  ∃ F, P.asFunction o.value = some F ∧ c.compatible P L F ≠ some false ∧ F ∉ c.targets ∧
    c.targets.length < MaxIndirectTarget

variable {P L}

theorem Unresolved.before {MaxIndirectTarget : Nat} {c c' : InDirectCallSite Ctx Fun Val Val}
    (hc : c.Before c') {o : FSObject Ctx Val} (h : Unresolved P L MaxIndirectTarget c' o) :
    Unresolved P L MaxIndirectTarget c o := by
  obtain ⟨F, hF, hcomp, hnot, hlen⟩ := h
  rw [hc.compatible] at hcomp
  exact ⟨F, hF, hcomp, fun hmem => hnot (hc.targets hmem), hc.length.trans_lt hlen⟩

end

namespace CtxModule

/-- the calls of `M'` are those of `M`, but for their resolved nodes -/
structure CallsKept (M M' : CtxModule Ctx Fun Val Val) : Prop where
  length : M.nodes.length ≤ M'.nodes.length
  calls : ∀ (id : CallNodeID) (c' : InDirectCallSite Ctx Fun Val Val),
    M'.nodes[id]? = some (.inDirect c') → ∃ (c : InDirectCallSite Ctx Fun Val Val) (l : List CallNodeID),
      M.nodes[id]? = some (.inDirect c) ∧ c' = { c with resolvedNode := l }

namespace CallsKept

variable {M : CtxModule Ctx Fun Val Val}

theorem refl (M : CtxModule Ctx Fun Val Val) : CallsKept M M :=
  ⟨le_rfl, fun _ c hc => ⟨c, c.resolvedNode, hc, rfl⟩⟩

theorem createCallNode [DecidableEq Ctx] [DecidableEq Fun] (C : Ctx) (F : Fun) (I : Option Val) :
    CallsKept M (M.createCallNode C F I).1 := by
  refine ⟨?_, fun id c hc => ?_⟩
  · show M.nodes.length ≤ (M.nodes ++ [_]).length
    rw [List.length_append]
    exact Nat.le_add_right _ _
  · replace hc : (M.nodes ++ [.direct ⟨C, F, I, false⟩])[id]? = some (.inDirect c) := hc
    rcases Nat.lt_or_ge id M.nodes.length with hlt | hge
    · rw [List.getElem?_append_left hlt] at hc
      exact ⟨c, c.resolvedNode, hc, rfl⟩
    · rw [List.getElem?_append_right hge] at hc
      have hmem := List.mem_of_getElem? hc
      cases List.mem_singleton.mp hmem

theorem markAsExtFunction (id : CallNodeID) : CallsKept M (M.markAsExtFunction id) := by
  refine ⟨(List.length_modify ..).ge, fun j c hc => ?_⟩
  replace hc : (M.nodes.modify id CallGraphNode.markAsExtFunction)[j]? = some (.inDirect c) := hc
  rw [List.getElem?_modify] at hc
  obtain ⟨m, hm, he⟩ := Option.map_eq_some_iff.mp hc
  refine ⟨c, c.resolvedNode, hm.trans ?_, rfl⟩
  split at he
  · cases m with
    | direct f => cases he
    | inDirect c' => exact congrArg some he
  · exact congrArg some he

theorem insertEdge [DecidableEq Val] (e : CallEdge Val) : CallsKept M (M.insertEdge e) := by
  unfold CtxModule.insertEdge
  split
  · exact refl M
  · exact ⟨le_rfl, (refl M).calls⟩

/-- the call at one place gets another list of resolved nodes -/
theorem setResolved {id : CallNodeID} {c : InDirectCallSite Ctx Fun Val Val}
    (hc : M.nodes[id]? = some (.inDirect c)) (l : List CallNodeID) :
    CallsKept M { M with nodes := M.nodes.set id (.inDirect { c with resolvedNode := l }) } := by
  refine ⟨List.length_set.ge, fun j c' hc' => ?_⟩
  dsimp only at hc'
  rw [List.getElem?_set] at hc'
  split at hc'
  · rename_i hj
    split at hc'
    · cases hc'
      exact ⟨c, l, hj ▸ hc, rfl⟩
    · cases hc'
  · exact ⟨c', c'.resolvedNode, hc', rfl⟩

end CallsKept

/-- the call graph in which the call at `id` has one more target -/
def addTarget (M : CtxModule Ctx Fun Val Val) (id : CallNodeID) (c : InDirectCallSite Ctx Fun Val Val)
    (target : Fun) : CtxModule Ctx Fun Val Val :=
  { M with nodes := M.nodes.set id (.inDirect { c with targets := c.targets ++ [target] }) }

theorem addTarget_cases {M : CtxModule Ctx Fun Val Val} {id j : CallNodeID} {target : Fun}
    {c c' : InDirectCallSite Ctx Fun Val Val}
    (h : (M.addTarget id c target).nodes[j]? = some (.inDirect c')) :
    (j = id ∧ c' = { c with targets := c.targets ++ [target] }) ∨
      (j ≠ id ∧ M.nodes[j]? = some (.inDirect c')) := by
  unfold addTarget at h
  dsimp only at h
  rw [List.getElem?_set] at h
  split at h
  · rename_i hj
    split at h
    · cases h
      exact .inl ⟨hj.symm, rfl⟩
    · cases h
  · rename_i hj
    exact .inr ⟨Ne.symm hj, h⟩

/-- for every target of a call `resolveCallTo` has been run -/
def Logged (M : CtxModule Ctx Fun Val Val) (resolved : List (CallNodeID × Fun)) : Prop :=
  ∀ (id : CallNodeID) (c : InDirectCallSite Ctx Fun Val Val), M.nodes[id]? = some (.inDirect c) →
    ∀ F ∈ c.targets, (id, F) ∈ resolved

theorem Logged.kept {M M' : CtxModule Ctx Fun Val Val} {resolved : List (CallNodeID × Fun)}
    (h : M.Logged resolved) (hk : M.CallsKept M') : M'.Logged resolved := by
  intro id c hc F hF
  obtain ⟨c0, l, hc0, rfl⟩ := hk.calls id c hc
  exact h id c0 hc0 F hF

end CtxModule

/-! ## what the resolution of a call adds -/

variable [DecidableEq Val]

/-- From the call graph `M₀` and the builder `b₀` on nodes, edges and calls are added, and each new call
stands at the node of its value. -/
structure Grown (P : Program Fun Val Ty) (T : CtxDomain Ctx Val) (M₀ : CtxModule Ctx Fun Val Val)
    (b₀ : Builder Ctx Fun Val) (M : CtxModule Ctx Fun Val Val) (b : Builder Ctx Fun Val) : Prop where
  placed : Builder.Placed P T b
  frame : Builder.Frame b₀ b
  length : M₀.nodes.length ≤ M.nodes.length
  old : ∀ id < M₀.nodes.length, ∀ c, M.nodes[id]? = some (.inDirect c) →
    ∃ c₀, M₀.nodes[id]? = some (.inDirect c₀) ∧ c₀.Before c
  new : ∀ id, M₀.nodes.length ≤ id → ∀ c, M.nodes[id]? = some (.inDirect c) →
    ∃ V n, c.getValue P = some V ∧ Builder.getPtrNodeOrNull P T b c.context V = some n ∧
      n < b.core.graph.nodeNum ∧ id ∈ b.core.graph.indirect n

namespace Grown

variable {P : Program Fun Val Ty} {T : CtxDomain Ctx Val} {L : LangModel Fun Val Ty}
  {M₀ M M' : CtxModule Ctx Fun Val Val} {b₀ b b' : Builder Ctx Fun Val}

theorem refl (h : Builder.Placed P T b) : Grown P T M b M b :=
  ⟨h, .refl b, le_rfl, fun _ _ c hc => ⟨c, hc, .refl c⟩,
    fun _ hid _ hc => absurd (List.getElem?_eq_some_iff.mp hc).1 (Nat.not_lt_of_le hid)⟩

/-- no call is added -/
theorem later (h : Grown P T M₀ b₀ M b) (hp : Builder.Placed P T b') (hf : Builder.Frame b b')
    (hlen : M.nodes.length ≤ M'.nodes.length)
    (hcalls : ∀ (id : CallNodeID) (c' : InDirectCallSite Ctx Fun Val Val),
      M'.nodes[id]? = some (.inDirect c') → ∃ c, M.nodes[id]? = some (.inDirect c) ∧ c.Before c') :
    Grown P T M₀ b₀ M' b' := by
  refine ⟨hp, h.frame.trans hf, h.length.trans hlen, fun id hid c' hc' => ?_, fun id hid c' hc' => ?_⟩
  · obtain ⟨c, hc, hb⟩ := hcalls id c' hc'
    obtain ⟨c₀, hc₀, hb₀⟩ := h.old id hid c hc
    exact ⟨c₀, hc₀, hb₀.trans hb⟩
  · obtain ⟨c, hc, hb⟩ := hcalls id c' hc'
    obtain ⟨V, n, hV, hget, hn, hid'⟩ := h.new id hid c hc
    refine ⟨V, n, (hb.getValue P).trans hV, ?_, hn.trans_le hf.le, hf.indirect n hn hid'⟩
    rw [hb.context]
    exact hf.lookup hget

theorem kept (h : Grown P T M₀ b₀ M b) (hp : Builder.Placed P T b') (hf : Builder.Frame b b')
    (hk : M.CallsKept M') : Grown P T M₀ b₀ M' b' := by
  refine h.later hp hf hk.length fun id c' hc' => ?_
  obtain ⟨c, l, hc, rfl⟩ := hk.calls id c' hc'
  exact ⟨c, hc, ⟨rfl, rfl, rfl, List.Subset.refl _, le_rfl⟩⟩

/-- a call gets a target -/
theorem addTarget (h : Grown P T M₀ b₀ M b) {id : CallNodeID} {c : InDirectCallSite Ctx Fun Val Val}
    (hc : M.nodes[id]? = some (.inDirect c)) (F : Fun) :
    Grown P T M₀ b₀ (M.addTarget id c F) b := by
  refine h.later h.placed (.refl b) List.length_set.ge fun j c' hc' => ?_
  rcases CtxModule.addTarget_cases hc' with ⟨rfl, rfl⟩ | ⟨-, hc'⟩
  · exact ⟨c, hc, .addTarget c F⟩
  · exact ⟨c', hc', .refl c'⟩

variable [DecidableEq Ctx]

/-- a new call stands at the node of its value -/
theorem attach (h : Grown P T M₀ b₀ M b) {C : Ctx} {target : Option Val} {I V : Val}
    (hV : (InDirectCallSite.mk C I target [] [] : InDirectCallSite Ctx Fun Val Val).getValue P = some V)
    (hr : Builder.initIndirectCall P T b C V M.nodes.length = .ok b') :
    Grown P T M₀ b₀ (M.createIndCallNode C target I).1 b' := by
  have hp := h.placed.initIndirectCall hr
  have hf := Builder.Frame.initIndirectCall hr
  have hnodes : (M.createIndCallNode C target I).1.nodes =
      M.nodes ++ [.inDirect ⟨C, I, target, [], []⟩] := rfl
  -- without the new call nothing is added
  have hold : ∀ id < M.nodes.length, (M.createIndCallNode C target I).1.nodes[id]? = M.nodes[id]? :=
    fun id hid => by rw [hnodes, List.getElem?_append_left hid]
  have hlen : M.nodes.length ≤ (M.createIndCallNode C target I).1.nodes.length := by
    rw [hnodes, List.length_append]
    exact Nat.le_add_right _ _
  refine ⟨hp, h.frame.trans hf, h.length.trans hlen, fun id hid c hc => ?_, fun id hid c hc => ?_⟩
  · rw [hold id (hid.trans_le h.length)] at hc
    exact h.old id hid c hc
  · rcases Nat.lt_or_ge id M.nodes.length with hlt | hge
    · rw [hold id hlt] at hc
      obtain ⟨V', n, hV', hget, hn, hid'⟩ := h.new id hid c hc
      exact ⟨V', n, hV', hf.lookup hget, hn.trans_le hf.le, hf.indirect n hn hid'⟩
    · rw [hnodes, List.getElem?_append_right hge] at hc
      have hmem := List.mem_of_getElem? hc
      have hidlt := (List.getElem?_eq_some_iff.mp hc).1
      rw [List.length_singleton] at hidlt
      have hid0 : id = M.nodes.length := by lia
      cases List.mem_singleton.mp hmem
      obtain ⟨n, hget, hr⟩ := Builder.bind_ok hr
      cases hr
      have hget' := Builder.getPtrNode_ok hget
      refine ⟨V, n, hV, hget', (h.placed.lookup hget').1, ?_⟩
      show id ∈ (b.core.graph.setIndirectCallNode n M.nodes.length).indirect n
      rw [indirect_setIndirectCallNode, if_pos rfl, hid0]
      exact Finset.mem_insert_self ..

variable [DecidableEq Fun] [DecidableEq Ty]

/-- the callbacks only add -/
theorem callBacks (hP : P.Canonical) (L : LangModel Fun Val Ty) (M₀ : CtxModule Ctx Fun Val Val)
    (b₀ : Builder Ctx Fun Val) :
    Discovery.Kept (Builder.callBacks P T L) fun M s => ∀ b, s = .ok b → Grown P T M₀ b₀ M b where
  onNewDirect M s C F I hs b hb := by
    unfold Builder.callBacks at hb
    dsimp only at hb
    split at hb
    · obtain ⟨b1, h1, hb⟩ := Builder.bind_ok hb
      have hg := hs b1 h1
      exact hg.kept (hg.placed.initFunction hP hb) ((Builder.frame_respected P).initFunction hb)
        (.createCallNode C F I)
    · exact (hs b hb).kept (hs b hb).placed (.refl b) (.createCallNode C F I)
  external M s C F I hs b hb := (hs b hb).kept (hs b hb).placed (.refl b) (.createCallNode C F I)
  markAsExt M s id hs b hb := (hs b hb).kept (hs b hb).placed (.refl b) (.markAsExtFunction id)
  onNewInDirect M s C target I _ hs b hb := by
    have hnew : (M.createIndCallNode C target I).1.nodes[M.nodes.length]? =
        some (.inDirect ⟨C, I, target, [], []⟩) := List.getElem?_concat_length ..
    unfold Builder.callBacks at hb
    dsimp only at hb
    rw [hnew] at hb
    dsimp only at hb
    split at hb
    · rename_i V hV
      obtain ⟨b1, h1, hb⟩ := Builder.bind_ok hb
      exact (hs b1 h1).attach hV hb
    · cases hb
  onNewEdge M s e hs b hb := by
    unfold Builder.callBacks at hb
    dsimp only at hb
    split at hb
    · obtain ⟨b1, h1, hb⟩ := Builder.bind_ok hb
      have hg := hs b1 h1
      replace hb := Builder.onNewCallEdge_ok hb
      exact hg.kept (hg.placed.processCallSite hP hb)
        ((Builder.frame_respected P).processCallSite hb) (.insertEdge e)
    · exact (hs b hb).kept (hs b hb).placed (.refl b) (.insertEdge e)
  resolved M s id c node hc hs b hb :=
    (hs b hb).kept (hs b hb).placed (.refl b) (.setResolved hc _)

end Grown

/-- no callback gives a call a target -/
theorem CtxModule.logged_kept [DecidableEq Ctx] [DecidableEq Fun] {σ : Type}
    (K : CallBacks Ctx Fun Val Val σ) (resolved : List (CallNodeID × Fun)) :
    Discovery.Kept K fun M _ => M.Logged resolved where
  onNewDirect M s C F I h := h.kept (.createCallNode C F I)
  external M s C F I h := h.kept (.createCallNode C F I)
  markAsExt M s id h := h.kept (.markAsExtFunction id)
  onNewInDirect M s C target I _ h := by
    intro id c hc F hF
    replace hc : (M.nodes ++ [.inDirect ⟨C, I, target, [], []⟩])[id]? = some (.inDirect c) := hc
    rcases Nat.lt_or_ge id M.nodes.length with hlt | hge
    · rw [List.getElem?_append_left hlt] at hc
      exact h id c hc F hF
    · rw [List.getElem?_append_right hge] at hc
      have hmem := List.mem_of_getElem? hc
      cases List.mem_singleton.mp hmem
      cases hF
  onNewEdge M s e h := h.kept (.insertEdge e)
  resolved M s id c node hc h := h.kept (.setResolved hc _)

/-! ## the loops -/

namespace Solving

variable {P : Program Fun Val Ty} {hlay : P.Layout} {T : CtxDomain Ctx Val}
  {L : LangModel Fun Val Ty} {w : Walk} {MaxIndirectTarget n : Nat}
  {s s' : Solving Ctx Fun Val} {M₀ : CtxModule Ctx Fun Val Val} {b₀ : Builder Ctx Fun Val}

/-- what every turn keeps -/
def Going (P : Program Fun Val Ty) (T : CtxDomain Ctx Val) (M₀ : CtxModule Ctx Fun Val Val)
    (b₀ : Builder Ctx Fun Val) (s : Solving Ctx Fun Val) : Prop :=
  (∃ b, s.disc.data = .ok b ∧ Grown P T M₀ b₀ s.disc.module b) ∧
    s.disc.module.Logged s.resolved

theorem Going.refl {b : Builder Ctx Fun Val} (hb : s.disc.data = .ok b)
    (hp : Builder.Placed P T b) (hlog : s.disc.module.Logged s.resolved) :
    Going P T s.disc.module b s :=
  ⟨⟨b, hb, .refl hp⟩, hlog⟩

variable [DecidableEq Ty]

/-- the call has the target, unless its check refuses it or it has too many -/
def Has (P : Program Fun Val Ty) (L : LangModel Fun Val Ty) (MaxIndirectTarget : Nat) (target : Fun)
    (id : CallNodeID) (s : Solving Ctx Fun Val) : Prop :=
  ∀ c, s.disc.module.nodes[id]? = some (.inDirect c) → c.compatible P L target ≠ some false →
    target ∈ c.targets ∨ MaxIndirectTarget ≤ c.targets.length

/-- calls keep their targets -/
theorem Has.later {target : Fun} {id : CallNodeID} (h : Has P L MaxIndirectTarget target id s)
    (hid : id < s.disc.module.nodes.length) {b : Builder Ctx Fun Val}
    (hs : Going P T s.disc.module b s') : Has P L MaxIndirectTarget target id s' := by
  intro c hc hcomp
  obtain ⟨⟨b', -, hg⟩, -⟩ := hs
  obtain ⟨c₀, hc₀, hbefore⟩ := hg.old id hid c hc
  rw [hbefore.compatible] at hcomp
  rcases h c₀ hc₀ hcomp with h | h
  · exact .inl (hbefore.targets h)
  · exact .inr (h.trans hbefore.length)

/-- what keeps `Going` for every start keeps the targets -/
theorem Has.kept (hstep : ∀ M₀ b₀, Going P T M₀ b₀ s → Going P T M₀ b₀ s') (hs : Going P T M₀ b₀ s)
    {target : Fun} {id : CallNodeID} (hid : id < s.disc.module.nodes.length)
    (h : Has P L MaxIndirectTarget target id s) : Has P L MaxIndirectTarget target id s' := by
  obtain ⟨⟨b, hb, hg⟩, hlog⟩ := hs
  exact h.later hid (hstep _ b (.refl hb hg.placed hlog))

variable [DecidableEq Ctx] [DecidableEq Fun]

/-- all that the turn of a call can do -/
theorem resolveTarget_cases {target : Fun} {id : CallNodeID}
    (h : resolveTarget P hlay T L MaxIndirectTarget n target s id = some s') :
    ∃ c, s.disc.module.nodes[id]? = some (.inDirect c) ∧
      ((s' = s ∧ (c.compatible P L target = some false ∨ target ∈ c.targets ∨
        MaxIndirectTarget ≤ c.targets.length)) ∨
      ∃ R b, Discovery.resolveCallTo (P.callSites hlay) T (Builder.callBacks P T L) n
          { s.disc with module := s.disc.module.addTarget id c target } id target = some R ∧
          R.data = .ok b ∧ s' = ⟨R, s.resolved ++ [(id, target)], true⟩) := by
  unfold resolveTarget at h
  split at h
  · rename_i c hc
    refine ⟨c, hc, ?_⟩
    obtain ⟨ok, hok, h⟩ := Option.bind_eq_some_iff.mp h
    cases ok with
    | false =>
      cases h
      exact .inl ⟨rfl, .inl hok⟩
    | true =>
      unfold Discovery.resolvedTo at h
      rw [hc] at h
      dsimp only at h
      rw [if_pos rfl] at h
      by_cases hold : c.targets.length ≥ MaxIndirectTarget ∨ target ∈ c.targets
      · rw [if_pos hold] at h
        cases h
        exact .inl ⟨rfl, .inr hold.symm⟩
      · right
        rw [if_neg hold] at h
        dsimp only at h
        rw [if_pos rfl] at h
        obtain ⟨R, hR, h⟩ := Option.bind_eq_some_iff.mp h
        obtain ⟨R', hR', h⟩ := Option.bind_eq_some_iff.mp h
        cases h
        unfold goOn at hR'
        split at hR'
        · rename_i b hb
          cases hR'
          exact ⟨_, b, hR, hb, rfl⟩
        · cases hR'
  · cases h

theorem Going.resolveTarget (hP : P.Canonical) (hs : Going P T M₀ b₀ s) {target : Fun}
    {id : CallNodeID} (h : Solving.resolveTarget P hlay T L MaxIndirectTarget n target s id = some s') :
    Going P T M₀ b₀ s' := by
  obtain ⟨⟨b, hb, hg⟩, hlog⟩ := hs
  obtain ⟨c, hc, ⟨rfl, -⟩ | ⟨R, b', hR, hb', rfl⟩⟩ := resolveTarget_cases h
  · exact ⟨⟨b, hb, hg⟩, hlog⟩
  refine ⟨⟨b', hb', ?_⟩, ?_⟩
  · refine (Grown.callBacks hP L M₀ b₀).resolveCallTo ?_ hR b' hb'
    intro b1 hb1
    rw [hb] at hb1
    cases hb1
    exact hg.addTarget hc target
  · refine (CtxModule.logged_kept _ _).resolveCallTo ?_ hR
    intro j c' hc' F hF
    rcases CtxModule.addTarget_cases hc' with ⟨rfl, rfl⟩ | ⟨-, hc'⟩
    · rcases List.mem_append.mp hF with hF | hF
      · exact List.mem_append_left _ (hlog j c hc F hF)
      · rw [List.mem_singleton.mp hF]
        exact List.mem_append_right _ (List.mem_singleton_self _)
    · exact List.mem_append_left _ (hlog j c' hc' F hF)

/-- after its turn a call has the target -/
theorem Going.has (hP : P.Canonical) (hs : Going P T M₀ b₀ s) {target : Fun} {id : CallNodeID}
    (h : Solving.resolveTarget P hlay T L MaxIndirectTarget n target s id = some s') :
    Has P L MaxIndirectTarget target id s' := by
  obtain ⟨⟨b, hb, hg⟩, hlog⟩ := hs
  obtain ⟨c, hc, ⟨rfl, hcase⟩ | ⟨R, b', hR, hb', rfl⟩⟩ := resolveTarget_cases h
  · intro c' hc' hcomp
    rw [hc] at hc'
    cases hc'
    rcases hcase with hno | h
    · exact absurd hno hcomp
    · exact h
  · intro c' hc' _
    -- the target has been added before the call is resolved
    have hlt := (List.getElem?_eq_some_iff.mp hc).1
    have hR' := (Grown.callBacks hP L _ b).resolveCallTo (fun b1 hb1 => by
      rw [hb] at hb1
      cases hb1
      exact Grown.refl hg.placed) hR b' hb'
    obtain ⟨c₀, hc₀, hbefore⟩ := hR'.old id (hlt.trans_eq List.length_set.symm) c' hc'
    rcases CtxModule.addTarget_cases hc₀ with ⟨-, rfl⟩ | ⟨hne, -⟩
    · exact .inl (hbefore.targets (List.mem_append_right _ (List.mem_singleton_self _)))
    · exact absurd rfl hne

/-- the turn of an object: every call that stands at the pointer gets the target -/
theorem Going.resolveObject (hP : P.Canonical) (hs : Going P T M₀ b₀ s) {funPtrNode x : NodeID}
    (h : Solving.resolveObject P hlay T L w MaxIndirectTarget n funPtrNode s x = some s') :
    Going P T M₀ b₀ s' ∧ ∀ b, s.disc.data = .ok b → ∀ id < s.disc.module.nodes.length,
      id ∈ b.core.graph.indirect funPtrNode → ∀ o F, b.core.graph.kind x = .objNode o →
      P.asFunction o.value = some F → Has P L MaxIndirectTarget F id s' := by
  have hs0 := hs
  obtain ⟨⟨b, hb, hg⟩, hlog⟩ := hs0
  have hbase := Going.refl hb hg.placed hlog
  unfold Solving.resolveObject at h
  rw [hb] at h
  dsimp only at h
  split at h
  · rename_i p hk
    cases h
    refine ⟨hs, fun b1 hb1 id _ _ o F ho => ?_⟩
    rw [hb] at hb1
    cases hb1
    rw [hk] at ho
    cases ho
  · rename_i o hk
    split at h
    · rename_i hF
      cases h
      refine ⟨hs, fun b1 hb1 id _ _ o' F ho hF' => ?_⟩
      rw [hb] at hb1
      cases hb1
      rw [hk] at ho
      cases ho
      rw [hF] at hF'
      cases hF'
    · rename_i target hF
      obtain ⟨⟨hgo, -⟩, hall⟩ := foldlM_all
        (I := fun t => Going P T M₀ b₀ t ∧ Going P T s.disc.module b t)
        (Q := fun id t => id < s.disc.module.nodes.length → Has P L MaxIndirectTarget target id t)
        (fun t id _ t' ht ht' => ⟨⟨ht.1.resolveTarget hP ht', ht.2.resolveTarget hP ht'⟩,
          fun _ => ht.1.has hP ht'⟩)
        (fun t _ _ t' id ht ht' hQ hid => by
          refine (hQ hid).kept (fun _ _ hgo => hgo.resolveTarget hP ht') ht.1 ?_
          obtain ⟨⟨b1, -, hg1⟩, -⟩ := ht.2
          exact hid.trans_le hg1.length)
        ⟨hs, hbase⟩ h
      refine ⟨hgo, fun b1 hb1 id hid hmem o' F ho hF' => ?_⟩
      rw [hb] at hb1
      cases hb1
      rw [hk] at ho
      cases ho
      rw [hF] at hF'
      cases hF'
      exact hall id ((w.mem_walk _ _).mpr hmem) hid

/-- the turn of a pointer: every call that stands there gets every function that it points to -/
theorem Going.resolvePtr (hP : P.Canonical) (hs : Going P T M₀ b₀ s) {q : NodeID}
    (h : Solving.resolvePtr P hlay T L w MaxIndirectTarget n s q = some s') :
    Going P T M₀ b₀ s' ∧ ∀ b, s.disc.data = .ok b → ∀ id < s.disc.module.nodes.length,
      id ∈ b.core.graph.indirect (b.core.graph.getSuperNode q) →
      ∀ x ∈ b.core.pts (b.core.graph.getSuperNode q), ∀ o F, b.core.graph.kind x = .objNode o →
      P.asFunction o.value = some F → Has P L MaxIndirectTarget F id s' := by
  have hs0 := hs
  obtain ⟨⟨b, hb, hg⟩, hlog⟩ := hs0
  have hbase := Going.refl hb hg.placed hlog
  unfold Solving.resolvePtr at h
  rw [hb] at h
  dsimp only at h
  split at h
  · obtain ⟨⟨hgo, -⟩, hall⟩ := foldlM_all
      (I := fun t => Going P T M₀ b₀ t ∧ Going P T s.disc.module b t)
      (Q := fun x t => ∀ id < s.disc.module.nodes.length,
        id ∈ b.core.graph.indirect (b.core.graph.getSuperNode q) →
        ∀ o F, b.core.graph.kind x = .objNode o → P.asFunction o.value = some F →
        Has P L MaxIndirectTarget F id t)
      (fun t x hx t' ht ht' => by
        obtain ⟨h1, h2⟩ := ht.1.resolveObject hP ht'
        refine ⟨⟨h1, (ht.2.resolveObject hP ht').1⟩, fun id hid hmem o F ho hF => ?_⟩
        obtain ⟨⟨b1, hb1, hg1⟩, -⟩ := ht.2
        -- the nodes that were there have not changed
        have hx' := (mem_bits _ _).mp hx
        have hr := hg.placed.shape.pts_lt _ x hx'
        have hxlt := (hg.placed.shape.pts_obj _ x hx').1
        exact h2 b1 hb1 id (hid.trans_le hg1.length) (hg1.frame.indirect _ hr hmem) o F
          ((hg1.frame.kind x hxlt).trans ho) hF)
      (fun t _ _ t' x ht ht' hQ id hid hmem o F ho hF => by
        refine (hQ id hid hmem o F ho hF).kept (fun _ _ hgo => (hgo.resolveObject hP ht').1) ht.1 ?_
        obtain ⟨⟨b1, -, hg1⟩, -⟩ := ht.2
        exact hid.trans_le hg1.length)
      ⟨hs, hbase⟩ h
    refine ⟨hgo, fun b1 hb1 id hid hmem x hx o F ho hF => ?_⟩
    rw [hb] at hb1
    cases hb1
    exact hall x ((mem_bits _ _).mpr hx) id hid hmem o F ho hF
  · cases h

end Solving

end AserPTA
