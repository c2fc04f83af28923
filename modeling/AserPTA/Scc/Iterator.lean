import AserPTA.ConsGraph.Node
import Mathlib.Algebra.BigOperators.Group.Finset.Basic
import AserPTA.Loop.While
import AserPTA.Scc.BitVector

/-!
# The SCC iterator

`SCCIterator`: Tarjan's algorithm with an explicit stack, suspended after each component.  The walk
goes along the copy edges of the graph, from the nodes that a work list leaves unset.

`visitNum` is unbounded, so `VisitNumber.done` stands for the visit number ~0U.  Every loop gets the
fuel `sccFuel`; `Scc/Tarjan.lean` shows that it is enough.
-/

namespace AserPTA

open Loop

/-- what the iterator sees of the graph -/
structure SccGraph where
  nodeNum : Nat
  child : NodeID → List NodeID
  hasSuperNode : NodeID → Bool

inductive VisitNumber where
  | num (n : Nat)
  | done
  deriving DecidableEq

/-- element of the visit stack during DFS -/
structure StackElement where
  node : NodeID
  nextChild : List NodeID
  minVisited : Nat

/-- The stacks have their top first. -/
structure SCCIterator where
  visitNum : Nat := 0
  nodeVisitNumbers : NodeID → Option VisitNumber := fun _ => none
  sccNodeStack : List NodeID := []
  currentSCC : List NodeID := []
  visitedNode : BitVector := {}
  lastRoot : Option NodeID := some 0
  visitStack : List StackElement := []

/-- a bound for the number of steps of every loop of the iterator -/
def sccFuel (G : SccGraph) : Nat :=
  ∑ n ∈ Finset.range G.nodeNum, ((G.child n).length + 2) + 1

/-- pop the stack until `n` is popped: what was popped, and the rest -/
def popUntil (n : NodeID) : List NodeID → List NodeID × List NodeID
  | [] => ([], [])
  | v :: st => if v = n then ([v], st) else (v :: (popUntil n st).1, (popUntil n st).2)

namespace SCCIterator

variable (G : SccGraph)

def dfsVisitOne (n : NodeID) (it : SCCIterator) : SCCIterator :=
  { it with
    visitNum := it.visitNum + 1
    nodeVisitNumbers := fun m => if m = n then some (.num (it.visitNum + 1))
      else it.nodeVisitNumbers m
    sccNodeStack := n :: it.sccNodeStack
    visitStack := ⟨n, G.child n, it.visitNum + 1⟩ :: it.visitStack
    visitedNode := it.visitedNode.set n }

/-- the top of the stack has at least one more child -/
def hasNextChild (it : SCCIterator) : Bool :=
  match it.visitStack with
  | ⟨_, _ :: _, _⟩ :: _ => true
  | _ => false

/-- `if (MinVisited > childNum) MinVisited = childNum` -/
def updateMin (minVisited : Nat) : VisitNumber → Nat
  | .num childNum => if minVisited > childNum then childNum else minVisited
  | .done => minVisited

/-- continue with the next child of the top of the stack -/
def visitNextChild (it : SCCIterator) : SCCIterator :=
  match it.visitStack with
  | ⟨n, childN :: rest, m⟩ :: st =>
    match it.nodeVisitNumbers childN with
    -- this node has never been seen
    | none => dfsVisitOne G childN { it with visitStack := ⟨n, rest, m⟩ :: st }
    -- node has been visited, update the min value
    | some childNum => { it with visitStack := ⟨n, rest, updateMin m childNum⟩ :: st }
  | _ => it

def dfsVisitChildren : SCCIterator → Option SCCIterator :=
  loop hasNextChild (fun it => some (visitNextChild G it)) (sccFuel G)

/-- propagate the minimum to the parent -/
def propagateMin (minVisitNum : Nat) : List StackElement → List StackElement
  | [] => []
  | ⟨n, rest, m⟩ :: st => ⟨n, rest, if m > minVisitNum then minVisitNum else m⟩ :: st

/-- pop the leaf on top of the visit stack, and the scc it is the start of -/
def popLeaf (it : SCCIterator) : SCCIterator :=
  match it.visitStack with
  | [] => it
  | ⟨visitingN, _, minVisitNum⟩ :: st =>
    let it := { it with visitStack := propagateMin minVisitNum st }
    if it.nodeVisitNumbers visitingN = some (.num minVisitNum) then
      { it with
        currentSCC := (popUntil visitingN it.sccNodeStack).1
        sccNodeStack := (popUntil visitingN it.sccNodeStack).2
        nodeVisitNumbers := fun n =>
          if n ∈ (popUntil visitingN it.sccNodeStack).1 then some .done else it.nodeVisitNumbers n }
    else it

/-- The loop of `GetNextSCC` returns as soon as it has filled `CurrentSCC`. -/
def getNextSCC (it : SCCIterator) : Option SCCIterator :=
  loop (fun it => !it.visitStack.isEmpty && it.currentSCC.isEmpty)
    (fun it => (dfsVisitChildren G it).map popLeaf) (sccFuel G) { it with currentSCC := [] }

/-- `lastRoot = visitedNode.find_next_unset(lastRoot)` -/
def nextRoot (it : SCCIterator) : SCCIterator :=
  { it with lastRoot := it.lastRoot.elim it.visitedNode.findFirstUnset it.visitedNode.findNextUnset }

/-- step to the next connected sub graph; nodes that have super nodes are skipped -/
def nextSubGraph (it : SCCIterator) : Option SCCIterator :=
  (loop (fun it => it.lastRoot.any fun r => decide (0 < r) && G.hasSuperNode r)
    (fun it => some (nextRoot it)) (sccFuel G) (nextRoot it)).bind fun it =>
      match it.lastRoot with
      | some r => if 0 < r then getNextSCC G (dfsVisitOne G r it) else some it
      | none => some it

/-- `operator++` -/
def next (it : SCCIterator) : Option SCCIterator :=
  (getNextSCC G it).bind fun it => if it.currentSCC.isEmpty then nextSubGraph G it else some it

/-- `scc_begin(G)` -/
def start : Option SCCIterator :=
  getNextSCC G (dfsVisitOne G 0 { visitedNode := { size := G.nodeNum } })

/-- `scc_begin(G, workList)` -/
def startFrom (workList : BitVector) : Option SCCIterator :=
  match workList.findFirstUnset with
  | none => some { visitedNode := workList }
  | some first => getNextSCC G (dfsVisitOne G first { visitedNode := workList })

/-- equal to the end iterator -/
def isEnd (it : SCCIterator) : Bool := it.visitStack.isEmpty && it.currentSCC.isEmpty

/-- `for (; it != ie; ++it) copySCCStack.push(*it)`: the stack, its top first -/
def sccStack (it : SCCIterator) : Option (List (List NodeID)) :=
  (loop (fun s : SCCIterator × List (List NodeID) => !s.1.isEnd)
    (fun s => (next G s.1).map fun it' => (it', s.1.currentSCC :: s.2)) (sccFuel G) (it, [])).map
      fun s => s.2

end SCCIterator

end AserPTA
