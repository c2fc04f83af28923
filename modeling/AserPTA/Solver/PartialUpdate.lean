import AserPTA.Solver.Base

/-!
# PartialUpdateSolver

The solver that goes over the changed part of the constraint graph only.  A bit that is unset in
`copyWorkList`, `lsWorkList` or `targetList` stands for work to do; `requiredEdge` is the set of the
hash values of the new copy edges.

`hashEdge` is a parameter.  `noAddrOfForOffset` is the build option `NO_ADDR_OF_FOR_OFFSET`.
-/

namespace AserPTA

open Loop

namespace PartialUpdate

structure Config (Obj Val : Type) where
  mem : MemModel Obj Val
  walk : Walk
  hashEdge : NodeID → NodeID → Nat
  noAddrOfForOffset : Bool

structure Work where
  /-- copy worklist -/
  copyWorkList : BitVector := {}
  /-- load/store/offset worklist -/
  lsWorkList : BitVector := {}
  /-- the target node id of the newly added copy edge by load/store/offset -/
  targetList : BitVector := {}
  /-- set of the new added copy edge (identified by the hash value of src/dst) -/
  requiredEdge : Finset Nat := ∅

variable {Obj Val : Type} [DecidableEq Obj] (F : Config Obj Val)

/-- the state of the solver -/
abbrev St (Obj Val : Type) := State Obj Val Work

def recordCopyEdge : State.CallBack Obj Val Work := fun src dst s =>
  { s with self := { s.self with
      -- src is not a newly added node
      copyWorkList :=
        if src < s.self.copyWorkList.size then s.self.copyWorkList.reset src
        else s.self.copyWorkList
      targetList :=
        if dst < s.self.targetList.size then s.self.targetList.reset dst else s.self.targetList
      -- we need to handle the copy edge
      requiredEdge := insert (F.hashEdge src dst) s.self.requiredEdge } }

def resetLs (n : NodeID) (s : St Obj Val) : St Obj Val :=
  { s with self := { s.self with lsWorkList := s.self.lsWorkList.reset n } }

/-- `if (processCopy(src, dst)) lsWorkList.reset(dst)` -/
def copyEdge (src dst : NodeID) (s : St Obj Val) : St Obj Val :=
  let r := s.core.processCopy src dst
  let s' := { s with core := r.1 }
  if r.2 then resetLs dst s' else s'

def shouldProcessCopy (src dst : NodeID) (s : St Obj Val) : Bool :=
  if !s.self.lsWorkList.test src then
    -- if the incoming src changed then yes
    true
  else
    let isDstTarget := !s.self.targetList.test dst
    let isSrcUnhandled := !s.self.copyWorkList.test src
    if isDstTarget && isSrcUnhandled then
      -- whether this is the edge
      decide (F.hashEdge src dst ∈ s.self.requiredEdge)
    else false

/-- merge the points-to set of a node of the scc into the super node -/
def mergeNode (superNode : NodeID) (s : St Obj Val) (n : NodeID) : St Obj Val :=
  { core := (s.core.processCopy n superNode).1.setPts n ∅
    self := { s.self with
      -- if any node in the scc is the target, the scc supernode is the target
      targetList :=
        if s.self.targetList.test n then s.self.targetList
        else s.self.targetList.reset superNode } }

def processCopySCC (scc : List NodeID) (s : St Obj Val) : St Obj Val :=
  match scc with
  | [] => s
  | superNode :: rest =>
    let s := resetLs superNode (rest.foldl (mergeNode superNode) s)
    let s := { s with core := s.core.collapse F.walk scc superNode }
    (F.walk.walk (s.core.graph.succ .copy superNode)).foldl (fun s v => copyEdge superNode v s) s

/-- the outgoing copy edges of a node that is no scc -/
def processCopyNode (curNode : NodeID) (s : St Obj Val) : St Obj Val :=
  (F.walk.walk (s.core.graph.succ .copy curNode)).foldl
    (fun s v => if shouldProcessCopy F curNode v s then copyEdge curNode v s else s) s

/-- one entry of the stack of components -/
def processEntry (s : St Obj Val) (scc : List NodeID) : St Obj Val :=
  if 1 < scc.length then processCopySCC F scc s
  else match scc with
    | [] => s
    | curNode :: _ => processCopyNode F curNode s

/-- SCC detection and topological sort, then the copy edges -/
def copyPhase (s : St Obj Val) : Option (St Obj Val) :=
  let G := s.core.graph.copyGraph F.walk
  ((SCCIterator.startFrom G s.self.copyWorkList).bind (SCCIterator.sccStack G)).map fun sccs =>
    sccs.foldl (processEntry F) s

/-- set all copy to be already handled -/
def clearCopy (s : St Obj Val) : St Obj Val :=
  { s with self := { s.self with
      copyWorkList := s.self.copyWorkList.setAll
      targetList := s.self.targetList.setAll
      requiredEdge := ∅ } }

def storeEdges (s : St Obj Val) (curNode : NodeID) : St Obj Val :=
  (F.walk.walk (s.core.graph.pred .store curNode)).foldl (fun s src =>
    (s.processStore State.noop (recordCopyEdge F) src (s.core.pts curNode)).1) s

def loadEdges (s : St Obj Val) (curNode : NodeID) : St Obj Val :=
  (F.walk.walk (s.core.graph.succ .load curNode)).foldl (fun s dst =>
    (s.processLoad State.noop (recordCopyEdge F) dst (s.core.pts curNode)).1) s

/-- what `processOffset` calls back: the new edge starts at the address node -/
def recordAddrOf : State.CallBack Obj Val Work := fun fieldObj ptr s =>
  recordCopyEdge F (fieldObj + 1) ptr s

/-- what `processOffset` calls back without addr_of edges: the object is inserted at once -/
def insertField : State.CallBack Obj Val Work := fun fieldObj ptr s =>
  { core := s.core.setPts ptr (insert fieldObj (s.core.pts ptr))
    self := { s.self with
      -- ensure that ptr is visited by SCCIterator
      copyWorkList := s.self.copyWorkList.reset ptr
      -- the pts of ptr has been updated, so need to be revisted by load/store
      lsWorkList := s.self.lsWorkList.reset ptr } }

def offsetEdges (callBack : State.CallBack Obj Val Work) (s : St Obj Val) (curNode : NodeID) :
    St Obj Val :=
  (F.walk.walk (s.core.graph.succ .offset curNode)).foldl (fun s dst =>
    (s.processOffset F.mem State.noop callBack curNode dst).1) s

/-- the load, store and offset edges of a node whose points-to set has changed -/
def processLsNode (s : St Obj Val) (curNode : NodeID) : St Obj Val :=
  let s := loadEdges F (storeEdges F s curNode) curNode
  if F.noAddrOfForOffset then s else offsetEdges F (recordAddrOf F) s curNode

/-- nothing in this loop writes to `lsWorkList` -/
def lsPhase (s : St Obj Val) : St Obj Val :=
  let s := s.self.lsWorkList.unsetBits.foldl (processLsNode F) s
  if F.noAddrOfForOffset then
    let tmpWorklist := s.self.lsWorkList
    let s := { s with self := { s.self with lsWorkList := s.self.lsWorkList.setAll } }
    tmpWorklist.unsetBits.foldl (offsetEdges F insertField) s
  else
    { s with self := { s.self with
        lsWorkList := (s.self.lsWorkList.resize s.core.graph.nodeNum true).setAll } }

/-- the newly added node contains address taken node, which need to be revisited again -/
def resizeLists (s : St Obj Val) : St Obj Val :=
  let n := s.core.graph.nodeNum
  { s with self := { s.self with
      lsWorkList := s.self.lsWorkList.resize n true
      copyWorkList := s.self.copyWorkList.resize n false
      targetList := s.self.targetList.resize n true } }

/-- the body of the loop of `runSolver` -/
def iteration (s : St Obj Val) : Option (St Obj Val) :=
  (copyPhase F s).map fun s => resizeLists (lsPhase F (clearCopy s))

def runSolver (fuel : Nat) (s : St Obj Val) : Option (St Obj Val) :=
  doWhile (fun s => !s.self.copyWorkList.all) (iteration F) fuel s

/-! ## between two calls of runSolver -/

/-- the worklists have an unset bit for every new node; `solve` does this before the first call and
after every round of `resolveFunPtrs` -/
def extendLists (s : St Obj Val) : St Obj Val :=
  let n := s.core.graph.nodeNum
  { s with self := { s.self with
      lsWorkList := s.self.lsWorkList.resize n false
      targetList := s.self.targetList.resize n false
      copyWorkList := s.self.copyWorkList.resize n false } }

/-- `onNewConstraint` of a copy constraint, `nodeNum` being the number of old nodes -/
def onNewCopy (nodeNum : Nat) : State.CallBack Obj Val Work := fun src dst s =>
  -- new constraint need to be handled
  if src < nodeNum then recordCopyEdge F src dst s else s

/-- the callback that is registered at the graph; what it adds to the graph is called back too -/
def onNewConstraint (nodeNum : Nat) (src dst : NodeID) (constraint : Constraints) (s : St Obj Val) :
    St Obj Val :=
  match constraint with
  | .copy => onNewCopy F nodeNum src dst s
  | .offset =>
    if src < nodeNum then
      (s.processOffset F.mem (onNewCopy F nodeNum) (recordAddrOf F) src dst).1
    else s
  | .load =>
    if src < nodeNum then
      (s.processLoad (onNewCopy F nodeNum) (recordCopyEdge F) dst (s.core.pts src)).1
    else s
  | .store =>
    if dst < nodeNum then
      (s.processStore (onNewCopy F nodeNum) (recordCopyEdge F) src (s.core.pts dst)).1
    else s
  | .addrOf => s

/-- `addConstraints` while the callback is registered -/
def addConstraints (nodeNum : Nat) (src dst : NodeID) (constraint : Constraints) (s : St Obj Val) :
    St Obj Val :=
  let r := s.core.graph.addConstraints src dst constraint
  let s' := { s with core := { s.core with graph := r.1 } }
  if r.2 then
    if constraint = .addrOf then onNewConstraint F nodeNum (src + 1) dst .copy s'
    else onNewConstraint F nodeNum src dst constraint s'
  else s'

def addCGNode (kind : NodeKind Obj Val) (s : St Obj Val) : St Obj Val :=
  { s with core := s.core.addCGNode kind }

end PartialUpdate

end AserPTA
