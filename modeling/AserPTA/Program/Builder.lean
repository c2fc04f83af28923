import AserPTA.Program.Syntax
import AserPTA.Solver.Tracks

/-!
# The builder of the constraint graph

`ConsGraphBuilder` with the memory blocks of `FSMemModel` and the interceptions of `DefaultLangModel`.  A
function that aborts, or whose assertion fails, returns an `Abort`.

* `Builder`                the constraint graph, and the maps that find the node of a pointer;
* `createPtrNode`, `getPtrNode`, `getOrCreatePtrNode`   create or abort, get or abort, get or create;
* `visit`, `initFunction`  the visitors of instructions, over the blocks in layout order;
* `initial`, `addGlobals`  the two special pointers, and a node and an object for every global;
* `initIndirectCall`, `processCallSite`, `onNewCallEdge`
                           what is done for a new indirect call and a new call edge;
* `callBacks`              these functions as the callbacks of `CtxModule`.
-/

namespace AserPTA

structure Pointer (Ctx Val : Type) where
  context : Ctx
  value : Val
  deriving DecidableEq

/-- the object of a memory block, which is known by its allocation site, at a physical offset -/
structure FSObject (Ctx Val : Type) where
  context : Ctx
  value : Val
  pOffset : Nat := 0
  deriving DecidableEq

inductive Abort where
  /-- Trying to re-create a existing item -/
  | recreate
  /-- Trying to get a non-exist item! -/
  | nonExist
  /-- allocating a existing memory block -/
  | existingBlock
  /-- the assertions of `createRetNode` and `getRetNode` -/
  | retNode
  /-- `*aIt` past the last actual argument -/
  | pastLastActual
  /-- a pointer is passed for something else, or the other way round -/
  | pointerTy
  /-- more actual arguments than formal ones -/
  | argumentCount
  /-- the other assertions on a call site -/
  | callSite
  deriving DecidableEq

/-- what `DefaultLangModel` knows of the library; `threadFun` strips casts from the start routine -/
structure LangModel (Fun Val Ty : Type) where
  isHeapAllocFun : Fun → Bool
  isThreadCreation : Fun → Bool
  threadFun : Val → Option Fun
  int8PtrTy : Ty

/-- `ptrs` is the set of the `SingleInstanceOwner`, with the node of each pointer. -/
structure Builder (Ctx Fun Val : Type) where
  core : Core (FSObject Ctx Val) (Pointer Ctx Val) := {}
  ptrs : Ctx × Val → Option NodeID := fun _ => none
  retPtrMap : Ctx × Fun → Option NodeID := fun _ => none
  memBlockMap : List (Ctx × Val) := []
  nullPtrNode : NodeID := 0
  uniPtrNode : NodeID := 0

variable {Ctx Fun Val Ty : Type}

/-- the value of an indirect call site -/
def InDirectCallSite.getValue (P : Program Fun Val Ty) (c : InDirectCallSite Ctx Fun Val Val) :
    Option Val :=
  match c.funPtr with
  | some V => some V
  | none => (P.instr c.callSite).callInst.map (·.calledValue)

namespace Builder

variable (P : Program Fun Val Ty) (T : CtxDomain Ctx Val) (L : LangModel Fun Val Ty)

/-! ## nodes -/

def addPtrNode (b : Builder Ctx Fun Val) (p : Pointer Ctx Val) : Builder Ctx Fun Val × NodeID :=
  ({ b with core := b.core.addCGNode (.ptrNode (some p)) }, b.core.graph.nodeNum)

def addConstraints (b : Builder Ctx Fun Val) (src dst : NodeID) (k : Constraints) :
    Builder Ctx Fun Val :=
  { b with core := { b.core with graph := (b.core.graph.addConstraints src dst k).1 } }

section
variable [DecidableEq Ctx] [DecidableEq Fun] [DecidableEq Val]

/-- a new pointer, put into the set -/
def insertPtr (b : Builder Ctx Fun Val) (C : Ctx) (V : Val) : Builder Ctx Fun Val × NodeID :=
  let r := b.addPtrNode ⟨C, V⟩
  ({ r.1 with ptrs := Function.update r.1.ptrs (C, V) (some r.2) }, r.2)

def createPtrNode (b : Builder Ctx Fun Val) (C : Ctx) (V : Val) :
    Except Abort (Builder Ctx Fun Val × NodeID) :=
  match b.ptrs (C, V) with
  | some _ => .error .recreate
  | none => .ok (b.insertPtr C V)

/-- the pointers that are not looked up in the set -/
def specialPtr (b : Builder Ctx Fun Val) (V : Val) : Option NodeID :=
  if V = P.uniValue then some b.uniPtrNode
  else if V = P.nullValue then some b.nullPtrNode
  else none

def ctxOf (C : Ctx) (V : Val) : Ctx := if P.isGlobalValue V then T.getGlobalCtx else C

def getPtrNodeOrNull (b : Builder Ctx Fun Val) (C : Ctx) (V : Val) : Option NodeID :=
  let V := P.canonicalize V
  match specialPtr P b V with
  | some n => some n
  | none => b.ptrs (ctxOf P T C V, V)

def getPtrNode (b : Builder Ctx Fun Val) (C : Ctx) (V : Val) : Except Abort NodeID :=
  match getPtrNodeOrNull P T b C V with
  | some n => .ok n
  | none => .error .nonExist

def getOrCreatePtrNode (b : Builder Ctx Fun Val) (C : Ctx) (V : Val) :
    Builder Ctx Fun Val × NodeID :=
  match getPtrNodeOrNull P T b C V with
  | some n => (b, n)
  | none => b.insertPtr (ctxOf P T C (P.canonicalize V)) (P.canonicalize V)

def createRetNode (b : Builder Ctx Fun Val) (C : Ctx) (F : Fun) :
    Except Abort (Builder Ctx Fun Val) :=
  match b.retPtrMap (C, F) with
  | some _ => .error .retNode
  | none =>
    let r := b.addPtrNode ⟨C, P.value F⟩
    .ok { r.1 with retPtrMap := Function.update r.1.retPtrMap (C, F) (some r.2) }

def getRetNode (b : Builder Ctx Fun Val) (C : Ctx) (F : Fun) : Except Abort NodeID :=
  match b.retPtrMap (C, F) with
  | some n => .ok n
  | none => .error .retNode

/-- a memory block for the allocation site, and the node of its object at offset 0 -/
def allocate (b : Builder Ctx Fun Val) (C : Ctx) (V : Val) :
    Except Abort (Builder Ctx Fun Val × NodeID) :=
  if (C, V) ∈ b.memBlockMap then .error .existingBlock
  else .ok ({ b with
    core := b.core.addCGNode (.objNode ⟨C, V, 0⟩)
    memBlockMap := (C, V) :: b.memBlockMap }, b.core.graph.nodeNum)

/-! ## globals -/

/-- the constructor: the null and the universal pointer, and their objects -/
def initial : Except Abort (Builder Ctx Fun Val) := do
  let nullPtr ← createPtrNode {} T.getGlobalCtx P.nullValue
  let uniPtr ← nullPtr.1.createPtrNode T.getGlobalCtx P.uniValue
  let nullObj ← uniPtr.1.allocate T.getGlobalCtx P.nullValue
  let uniObj ← nullObj.1.allocate T.getGlobalCtx P.uniValue
  return { uniObj.1 with nullPtrNode := nullPtr.2, uniPtrNode := uniPtr.2 }

/-- `addGlobalVariable` and `addFunction`, which differ in the kind of the memory block -/
def addGlobal (b : Builder Ctx Fun Val) (V : Val) : Except Abort (Builder Ctx Fun Val) := do
  let obj ← b.allocate T.getGlobalCtx V
  let ptr ← obj.1.createPtrNode T.getGlobalCtx V
  return ptr.1.addConstraints obj.2 ptr.2 .addrOf

def addGlobals (b : Builder Ctx Fun Val) : Except Abort (Builder Ctx Fun Val) := do
  let b ← P.globals.foldlM (addGlobal T) b
  (P.functions.map P.value).foldlM (addGlobal T) b

/-! ## visitors -/

def visitAllocaInst (b : Builder Ctx Fun Val) (C : Ctx) (I : Val) :
    Except Abort (Builder Ctx Fun Val) := do
  let stackObj ← b.allocate C I
  let stackPtr ← stackObj.1.createPtrNode C I
  return stackPtr.1.addConstraints stackObj.2 stackPtr.2 .addrOf

def visitReturnInst (b : Builder Ctx Fun Val) (C : Ctx) (F : Fun) (retValue : Option Val) :
    Except Abort (Builder Ctx Fun Val) :=
  match retValue with
  | none => .ok b
  | some V =>
    if P.isPointer V then do
      let returnPtr ← getPtrNode P T b C V
      let returnNode ← b.getRetNode C F
      return b.addConstraints returnPtr returnNode .copy
    else .ok b

/-- an edge between two pointers whose nodes may have to be made; `first` is asked for first -/
def addEdge (b : Builder Ctx Fun Val) (C : Ctx) (first second : Val)
    (edge : NodeID → NodeID → Builder Ctx Fun Val → Builder Ctx Fun Val) : Builder Ctx Fun Val :=
  let r1 := getOrCreatePtrNode P T b C first
  let r2 := getOrCreatePtrNode P T r1.1 C second
  edge r1.2 r2.2 r2.1

def visitGetElementPtrInst (b : Builder Ctx Fun Val) (C : Ctx) (I base : Val) :
    Builder Ctx Fun Val :=
  let baseValue := P.canonicalize base
  let gepValue := P.canonicalize I
  if baseValue ≠ gepValue then
    addEdge P T b C gepValue baseValue fun gepNode baseNode b =>
      b.addConstraints baseNode gepNode .offset
  else b

def visitLoadInst (b : Builder Ctx Fun Val) (C : Ctx) (I ptr : Val) : Builder Ctx Fun Val :=
  if P.isPointer I then
    addEdge P T b C ptr I fun loadedFrom loadedInto b =>
      b.addConstraints loadedFrom loadedInto .load
  else b

/-- a store into the universal or the null pointer is ignored -/
def visitStoreInst (b : Builder Ctx Fun Val) (C : Ctx) (value ptr : Val) : Builder Ctx Fun Val :=
  if P.isPointer value then
    let dst := P.canonicalize ptr
    if dst = P.uniValue ∨ dst = P.nullValue then b
    else addEdge P T b C value ptr fun srcNode dstNode b =>
      b.addConstraints srcNode dstNode .store
  else b

/-- call site is handled by `onNewEdge`; here a node is made for the returned pointer -/
def visitCallSite (b : Builder Ctx Fun Val) (C : Ctx) (I : Val) : Builder Ctx Fun Val :=
  if P.isPointer I then
    if P.canonicalize I ≠ I then b else (getOrCreatePtrNode P T b C I).1
  else b

/-- `src --copy--> dst` for an operand -/
def addIncoming (C : Ctx) (dst : NodeID) (b : Builder Ctx Fun Val) (V : Val) :
    Builder Ctx Fun Val :=
  let src := getOrCreatePtrNode P T b C V
  src.1.addConstraints src.2 dst .copy

/-- Phi node might access a node that we have not visited yet -/
def visitPHINode (b : Builder Ctx Fun Val) (C : Ctx) (I : Val) (incoming : List Val) :
    Builder Ctx Fun Val :=
  if P.isPointer I then
    let dst := getOrCreatePtrNode P T b C I
    incoming.foldl (addIncoming P T C dst.2) dst.1
  else b

def visitSelectInst (b : Builder Ctx Fun Val) (C : Ctx) (I trueValue falseValue : Val) :
    Builder Ctx Fun Val :=
  if P.isPointer I then
    let dst := getOrCreatePtrNode P T b C I
    [trueValue, falseValue].foldl (addIncoming P T C dst.2) dst.1
  else b

def visitMemCpyInst (b : Builder Ctx Fun Val) (C : Ctx) (source dest : Val) :
    Builder Ctx Fun Val :=
  addEdge P T b C source dest fun _ _ b => b

def visitExtractValueInst (b : Builder Ctx Fun Val) (C : Ctx) (I : Val) : Builder Ctx Fun Val :=
  if P.isPointer I then (getOrCreatePtrNode P T b C I).1 else b

/-- the visitor of one instruction of `F` -/
def visit (C : Ctx) (F : Fun) (b : Builder Ctx Fun Val) (I : Val) :
    Except Abort (Builder Ctx Fun Val) :=
  match P.instr I with
  | .alloca => b.visitAllocaInst C I
  | .load ptr => .ok (visitLoadInst P T b C I ptr)
  | .store value ptr => .ok (visitStoreInst P T b C value ptr)
  | .getElementPtr base => .ok (visitGetElementPtrInst P T b C I base)
  | .phi incoming => .ok (visitPHINode P T b C I (incoming.map (·.1)))
  | .select t f => .ok (visitSelectInst P T b C I t f)
  | .call _ => .ok (visitCallSite P T b C I)
  | .memcpy source dest _ => .ok (visitMemCpyInst P T b C source dest)
  | .ret value => visitReturnInst P T b C F value
  | .extractValue => .ok (visitExtractValueInst P T b C I)
  | .other => .ok b

/-- a return node for a function that returns a pointer -/
def initReturn (b : Builder Ctx Fun Val) (C : Ctx) (F : Fun) : Except Abort (Builder Ctx Fun Val) :=
  if P.isPointerTy (P.sig F).ret then createRetNode P b C F else .ok b

/-- a node for an argument that is a pointer -/
def initArgument (C : Ctx) (b : Builder Ctx Fun Val) (arg : Val) :
    Except Abort (Builder Ctx Fun Val) :=
  if P.isPointer arg then (b.createPtrNode C arg).map (·.1) else .ok b

/-- the part of `initFunction` for a function with a body; see `callBacks` for what it returns -/
def initFunction (b : Builder Ctx Fun Val) (C : Ctx) (F : Fun) :
    Except Abort (Builder Ctx Fun Val) :=
  if P.hasBody F then do
    let b ← initReturn P b C F
    let b ← (P.args F).foldlM (initArgument P C) b
    (P.insts F).foldlM (visit P T C F) b
  else .ok b

/-! ## calls -/

def initIndirectCall (b : Builder Ctx Fun Val) (C : Ctx) (value : Val) (callNode : CallNodeID) :
    Except Abort (Builder Ctx Fun Val) := do
  let funPtrNode ← getPtrNode P T b C value
  return { b with core := { b.core with
    graph := b.core.graph.setIndirectCallNode funPtrNode callNode } }

/-- the loop that links actual and formal arguments, with the actual arguments that are left -/
def linkArgs (C C' : Ctx) : List Val → List Val → Builder Ctx Fun Val →
    Except Abort (Builder Ctx Fun Val × List Val)
  | actuals, [], b => .ok (b, actuals)
  | [], _ :: _, _ => .error .pastLastActual
  | actual :: actuals, formal :: formals, b =>
    if P.isPointer formal ≠ P.isPointer actual then .error .pointerTy
    else if P.isPointer actual then do
      let aNode ← getPtrNode P T b C actual
      let fNode ← getPtrNode P T b C' formal
      linkArgs C C' actuals formals (b.addConstraints aNode fNode .copy)
    else linkArgs C C' actuals formals b

/-- modelling the heap allocation -/
def interceptHeapAllocSite (b : Builder Ctx Fun Val) (C : Ctx) (allocSite : Val) :
    Except Abort (Builder Ctx Fun Val) := do
  let obj ← b.allocate C allocSite
  let ptr ← getPtrNode P T obj.1 C allocSite
  return obj.1.addConstraints obj.2 ptr .addrOf

/-- link the parameter of a thread's start routine -/
def interceptThreadCreation (b : Builder Ctx Fun Val) (C C' : Ctx) (callee : Fun)
    (cs : CallInst Fun Val) : Except Abort (Builder Ctx Fun Val) :=
  match P.args callee, cs.args[3]? with
  | [arg], some operand => do
    let formal ← getPtrNode P T b C' arg
    let actual ← getPtrNode P T b C operand
    return b.addConstraints actual formal .copy
  | _, _ => .error .callSite

/-- 2nd, link the return node -/
def linkReturn (b : Builder Ctx Fun Val) (C C' : Ctx) (callee : Fun) (I : Val)
    (cs : CallInst Fun Val) : Except Abort (Builder Ctx Fun Val) :=
  match cs.returnedArg with
  | some rv =>
    -- no need to handle this case
    if P.isPointer rv ∧ P.canonicalize rv ≠ P.canonicalize I then .error .callSite else .ok b
  | none =>
    if P.isPointerTy (P.sig callee).ret then do
      let src ← b.getRetNode C' callee
      let dst ← getPtrNode P T b C I
      return b.addConstraints src dst .copy
    else .ok b

/-- the two parts of `processCallSite` for a function with a body -/
def linkCall (b : Builder Ctx Fun Val) (C C' : Ctx) (callee : Fun) (I : Val)
    (cs : CallInst Fun Val) : Except Abort (Builder Ctx Fun Val) := do
  -- 1st, link the parameter
  let r ← linkArgs P T C C' cs.args (P.args callee) b
  if (P.sig callee).isVarArg = false ∧ r.2 ≠ [] then .error .argumentCount
  else linkReturn P T r.1 C C' callee I cs

variable [DecidableEq Ty]

def processCallSite (b : Builder Ctx Fun Val) (C : Ctx) (caller : Fun) (C' : Ctx) (callee : Fun)
    (I : Val) : Except Abort (Builder Ctx Fun Val) :=
  match (P.instr I).callInst with
  | none => .error .callSite
  | some cs =>
    if T.contextEvolve C I ≠ C' then .error .callSite
    -- `overrideCallSite`
    else if L.isHeapAllocFun callee then interceptHeapAllocSite P T b C I
    else if cs.getTargetFunction.any L.isThreadCreation then
      interceptThreadCreation P T b C C' callee cs
    else if ¬ (cs.isIndirectCall ∨ cs.getTargetFunction = some callee) then .error .callSite
    else if I ∉ P.insts caller then .error .callSite
    else if cs.isIndirectCall ∧ ¬ P.isCompatibleCall I cs callee then .error .callSite
    else if P.hasBody callee then linkCall P T b C C' callee I cs
    else .ok b

/-- `overrideFunction` with `interceptFunction` of the default language model.  It aborts when a call of
`pthread_create` has no third argument, for which see `onNewCallEdge`. -/
def overrideFunction (F : Fun) (I : Val) : InterceptResult Fun Val :=
  if L.isHeapAllocFun F then ⟨.function F, .onlyCallSite⟩
  else if P.isIntrinsic F then ⟨.function F, .ignore⟩
  else if L.isThreadCreation F then
    match (P.instr I).callInst.bind (·.args[2]?) with
    | none => ⟨.function F, .expandBody⟩
    | some v =>
      match L.threadFun v with
      | some threadFun => ⟨.function threadFun, .expandBody⟩
      | none => ⟨.indirect v, .expandBody⟩
  else ⟨.function F, .expandBody⟩

/-- `getArgOperand(2)` in `interceptFunction` fails its assertion -/
def lacksRoutine (F : Fun) (I : Val) : Bool :=
  !L.isHeapAllocFun F && !P.isIntrinsic F && L.isThreadCreation F &&
    ((P.instr I).callInst.bind (·.args[2]?)).isNone

/-- `OnNewCallEdge`.  Whatever `interceptFunction` returns gets an edge, so its abort is put here. -/
def onNewCallEdge (b : Builder Ctx Fun Val) (C : Ctx) (caller : Fun) (C' : Ctx) (callee : Fun)
    (I : Val) : Except Abort (Builder Ctx Fun Val) :=
  if lacksRoutine P L callee I then .error .callSite
  else processCallSite P T L b C caller C' callee I

/-- what has aborted does nothing any more -/
def callBacks : CallBacks Ctx Fun Val Val (Except Abort (Builder Ctx Fun Val)) where
  beforeNewNode := overrideFunction P L
  onNewDirect M id s :=
    match M.nodes[id]? with
    | some (.direct f) => (s.bind (initFunction P T · f.context f.function), P.hasBody f.function)
    | _ => (s, false)
  onNewInDirect M id s :=
    match M.nodes[id]? with
    | some (.inDirect c) =>
      match c.getValue P with
      | some V => s.bind (initIndirectCall P T · c.context V id)
      | none => .error .callSite
    | _ => s
  onNewEdge M e s :=
    match M.nodes[e.src]?, M.nodes[e.dst]? with
    | some (.direct f), some (.direct g) =>
      s.bind (onNewCallEdge P T L · f.context f.function g.context g.function e.inst)
    | _, _ => s

end

/-! ## runs that do not abort -/

theorem bind_ok {α β : Type} {x : Except Abort α} {f : α → Except Abort β} {b : β}
    (h : x.bind f = .ok b) : ∃ a, x = .ok a ∧ f a = .ok b := by
  cases x with
  | error e => cases h
  | ok a => exact ⟨a, rfl, h⟩

theorem onNewCallEdge_ok [DecidableEq Ctx] [DecidableEq Fun] [DecidableEq Val] [DecidableEq Ty]
    {P : Program Fun Val Ty} {T : CtxDomain Ctx Val} {L : LangModel Fun Val Ty}
    {b b' : Builder Ctx Fun Val} {C C' : Ctx} {caller callee : Fun} {I : Val}
    (h : onNewCallEdge P T L b C caller C' callee I = .ok b') :
    processCallSite P T L b C caller C' callee I = .ok b' := by
  unfold onNewCallEdge at h
  split at h
  · cases h
  · exact h

/-- what every step of a fold keeps -/
theorem foldlM_ok {α β : Type} {I : β → Prop} {f : β → α → Except Abort β} {l : List α}
    (hf : ∀ b, ∀ a ∈ l, I b → ∀ b', f b a = .ok b' → I b') {b b' : β} (hb : I b)
    (h : l.foldlM f b = .ok b') : I b' := by
  induction l generalizing b with
  | nil =>
    cases h
    exact hb
  | cons a l ih =>
    rw [List.foldlM_cons] at h
    obtain ⟨b1, h1, h2⟩ := bind_ok h
    exact ih (fun b x hx => hf b x (List.mem_cons_of_mem _ hx))
      (hf b a (List.mem_cons_self ..) hb b1 h1) h2

end Builder

end AserPTA
