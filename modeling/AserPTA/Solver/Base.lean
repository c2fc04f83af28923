import AserPTA.Scc.Enumeration

/-!
# The routines that the solvers share

`SolverBase`: the points-to sets, `processCopy`, `processCopySCC`, `processLoad`, `processStore` and
`processOffset`.  `Core` is the state that every solver has; `State` adds the fields of the subclass,
which only the callbacks touch.

The memory model enters through `indexObject`, a partial function into a finite set of field objects.
The node of a field object is made when it is first asked for.
-/

namespace AserPTA

/-- what the solvers use of the memory model -/
structure MemModel (Obj Val : Type) where
  /-- the field that a `getelementptr` takes of an object, if there is one -/
  indexObject : Obj → Val → Option Obj
  fields : Finset Obj
  mem_fields : ∀ o gep f, indexObject o gep = some f → f ∈ fields

structure Core (Obj Val : Type) where
  graph : ConsGraph Obj Val := {}
  pts : NodeID → Finset NodeID := fun _ => ∅
  handledGEPMap : NodeID → Finset NodeID := fun _ => ∅
  updatedFunPtrs : Finset NodeID := ∅

structure State (Obj Val ε : Type) where
  core : Core Obj Val := {}
  self : ε

variable {Obj Val ε : Type}

/-- the node of an object -/
def ConsGraph.findObj [DecidableEq Obj] (g : ConsGraph Obj Val) (f : Obj) : Option NodeID :=
  (List.range g.nodeNum).find? fun n => match g.kind n with
    | .objNode o => decide (o = f)
    | .ptrNode _ => false

/-- the graph along whose copy edges the iterator walks -/
def ConsGraph.copyGraph (w : Walk) (g : ConsGraph Obj Val) : SccGraph :=
  { nodeNum := g.nodeNum, child := fun n => w.walk (g.succ .copy n), hasSuperNode := g.hasSuperNode }

theorem ConsGraph.copyGraph_eq (w : Walk) (g : ConsGraph Obj Val) :
    g.copyGraph w = g.sccGraph w .copy false := rfl

namespace Core

variable (c : Core Obj Val)

def setPts (n : NodeID) (s : Finset NodeID) : Core Obj Val :=
  { c with pts := fun m => if m = n then s else c.pts m }

def updateFunPtr (n : NodeID) : Core Obj Val :=
  { c with updatedFunPtrs := insert n c.updatedFunPtrs }

/-- `pts(dst) |= new`; a function pointer whose set has grown is noted -/
def unionPts (dst : NodeID) (new : Finset NodeID) : Core Obj Val × Bool :=
  if new ⊆ c.pts dst then (c, false)
  else
    let c' := c.setPts dst (c.pts dst ∪ new)
    (if c.graph.isFunctionPtr dst then c'.updateFunPtr dst else c', true)

def processCopy (src dst : NodeID) : Core Obj Val × Bool := c.unionPts dst (c.pts src)

/-- the graph's part, and the points-to sets of the new nodes -/
def addCGNode (kind : NodeKind Obj Val) : Core Obj Val :=
  { c with
    graph := c.graph.addCGNode kind
    pts := fun m =>
      match kind with
      | .ptrNode _ => if m = c.graph.nodeNum then ∅ else c.pts m
      | .objNode _ =>
        if m = c.graph.nodeNum + 1 then {c.graph.nodeNum}
        else if m = c.graph.nodeNum then ∅ else c.pts m }

/-- the node of the indexed object, which may have to be made -/
def indexObject [DecidableEq Obj] (M : MemModel Obj Val) (obj : Obj) (gep : Val) :
    Option (Core Obj Val × NodeID) :=
  (M.indexObject obj gep).map fun f =>
    match c.graph.findObj f with
    | some i => (c, i)
    | none => (c.addCGNode (.objNode f), c.graph.nodeNum)

/-- collapse an scc whose points-to sets are merged, and note it if it holds a function pointer -/
def collapse (w : Walk) (scc : List NodeID) (superNode : NodeID) : Core Obj Val :=
  let c' := { c with graph := c.graph.collapseSCCTo w scc superNode }
  if c'.graph.isFunctionPtr superNode then c'.updateFunPtr superNode else c'

/-- propagate along the outgoing copy edges -/
def propagate (w : Walk) (n : NodeID) : Core Obj Val :=
  (w.walk (c.graph.succ .copy n)).foldl (fun c v => (c.processCopy n v).1) c

/-- `processCopySCC` of the base class -/
def processCopySCC (w : Walk) (scc : List NodeID) : Core Obj Val :=
  match scc with
  | [] => c
  | superNode :: rest =>
    let c1 := rest.foldl (fun c n => (c.processCopy n superNode).1) c
    (c1.collapse w scc superNode).propagate w superNode

end Core

namespace State

/-- what is called back with the two ends of a new edge -/
abbrev CallBack (Obj Val ε : Type) := NodeID → NodeID → State Obj Val ε → State Obj Val ε

def noop : CallBack Obj Val ε := fun _ _ s => s

variable (s : State Obj Val ε)

/-- `addConstraints` with the callback registered at the graph, for constraints that are stored as
copy edges -/
def addCopy (hook : CallBack Obj Val ε) (src dst : NodeID) : State Obj Val ε × Bool :=
  let r := s.core.graph.addConstraints src dst .copy
  let s' := { s with core := { s.core with graph := r.1 } }
  if r.2 then (hook src dst s', true) else (s', false)

/-- `addConstraints(fieldObj, ptrNode, addr_of)` -/
def addAddrOf (hook : CallBack Obj Val ε) (src dst : NodeID) : State Obj Val ε × Bool :=
  let r := s.core.graph.addConstraints src dst .addrOf
  let s' := { s with core := { s.core with graph := r.1 } }
  if r.2 then (hook (src + 1) dst s', true) else (s', false)

/-- add a copy edge, and call back if it is new; the flag says whether any was new so far -/
def addCopyThen (hook callBack : CallBack Obj Val ε) (src dst : NodeID)
    (r : State Obj Val ε × Bool) : State Obj Val ε × Bool :=
  let a := r.1.addCopy hook src dst
  if a.2 then (callBack src dst a.1, true) else (a.1, r.2)

/-- for every node in `diffPts`: node --COPY--> dst -/
def processLoad (hook callBack : CallBack Obj Val ε) (dst : NodeID) (diffPts : Finset NodeID) :
    State Obj Val ε × Bool :=
  (bits diffPts).foldl (fun r x =>
    addCopyThen hook callBack (r.1.core.graph.getSuperNode x) dst r) (s, false)

/-- for every node in `diffPts`: src --COPY--> node -/
def processStore (hook callBack : CallBack Obj Val ε) (src : NodeID) (diffPts : Finset NodeID) :
    State Obj Val ε × Bool :=
  (bits diffPts).foldl (fun r x =>
    addCopyThen hook callBack src (r.1.core.graph.getSuperNode x) r) (s, false)

/-- the body of the loop of `processOffset` -/
def offsetStep [DecidableEq Obj] (M : MemModel Obj Val) (hook callBack : CallBack Obj Val ε)
    (ptrNode : NodeID) (gep : Val) (r : State Obj Val ε × Bool) (objNode : NodeID) :
    State Obj Val ε × Bool :=
  match r.1.core.graph.kind objNode with
  | .ptrNode _ => r
  | .objNode obj =>
    match r.1.core.indexObject M obj gep with
    | none => r
    | some (core, fieldObj) =>
      let s := { r.1 with core := core }
      -- the edge is only added if the pointer does not point to the field object yet
      if fieldObj ∈ core.pts ptrNode then (s, r.2)
      else (callBack fieldObj ptrNode (s.addAddrOf hook fieldObj ptrNode).1, true)

/-- The target must be the node of a `getelementptr`; `processOffset` casts it to one. -/
def processOffset [DecidableEq Obj] (M : MemModel Obj Val) (hook callBack : CallBack Obj Val ε)
    (src dst : NodeID) : State Obj Val ε × Bool :=
  match s.core.graph.kind dst with
  | .ptrNode (some gep) =>
    let newGEPs := s.core.pts src \ s.core.handledGEPMap dst
    let handled := fun m => if m = dst then s.core.handledGEPMap m ∪ newGEPs
      else s.core.handledGEPMap m
    (bits newGEPs).foldl (offsetStep M hook callBack dst gep)
      ({ s with core := { s.core with handledGEPMap := handled } }, false)
  | _ => (s, false)

end State

end AserPTA
