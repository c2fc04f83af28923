import AserPTA.ConsGraph.Node

/-!
# The constraint graph

`ConstraintGraph`: `addConstraints`, `collapseSCCTo` and the graph's part of `addCGNode` (the
points-to sets are the solver's, `Solver/Base.lean`).

`Op` is one call of these three, `Op.Legal` what they assert of their arguments, and `Reachable` the
graphs that sequences of calls build from the empty graph.
-/

namespace AserPTA

variable {Obj Val : Type}

namespace ConsGraph

variable (g : ConsGraph Obj Val)

/-- `addNewNode`: append one node -/
def addNewNode (kind : NodeKind Obj Val) : ConsGraph Obj Val :=
  { g with
    nodeNum := g.nodeNum + 1
    node := fun m => if m = g.nodeNum then { kind := kind } else g.node m }

/-- the graph's part of `addCGNode`: an object node is followed by the anonymous node that holds its
address (convention: object id + 1) -/
def addCGNode (kind : NodeKind Obj Val) : ConsGraph Obj Val :=
  match kind with
  | .ptrNode p => g.addNewNode (.ptrNode p)
  | .objNode o =>
    (((g.addNewNode (.objNode o)).addNewNode (.ptrNode none)).insertConstraint
      g.nodeNum (g.nodeNum + 1) .addrOf).1

/-- true if the constraint is new.  An `addrOf` edge from an object is a copy edge from its
anonymous node, so that it is visited during the solving phase. -/
def addConstraints (src dst : NodeID) (constraint : Constraints) : ConsGraph Obj Val × Bool :=
  -- self-circle copy edges has no effect
  if src = dst ∧ constraint = .copy then (g, false)
  else if constraint = .addrOf then g.insertConstraint (src + 1) dst .copy
  else g.insertConstraint src dst constraint

/-- `pred_edge_begin()` to `pred_edge_end()` -/
def predEdges (w : Walk) (n : NodeID) : List (Constraints × NodeID) :=
  Constraints.all.flatMap fun k => (w.walk (g.pred k n)).map fun v => (k, v)

/-- `succ_edge_begin()` to `succ_edge_end()` -/
def succEdges (w : Walk) (n : NodeID) : List (Constraints × NodeID) :=
  Constraints.all.flatMap fun k => (w.walk (g.succ k n)).map fun v => (k, v)

/-- the body of the loop of `collapseSCCTo`: move the edges of `node` to `superNode`.  The first
loop inserts into `predCons` of `superNode` only and the second into its `succCons` only, so
neither changes the sets of `node` it walks. -/
def mergeInto (w : Walk) (node superNode : NodeID) : ConsGraph Obj Val :=
  let g1 := (g.predEdges w node).foldl (fun g e => (g.insertConstraint e.2 superNode e.1).1) g
  let g2 := (g1.succEdges w node).foldl (fun g e => (g.insertConstraint superNode e.2 e.1).1) g1
  let g3 := g2.modify superNode fun x =>
    { x with
      childNodes := x.childNodes ∪ (g2.node node).childNodes
      indirectNodes := x.indirectNodes ∪ (g2.node node).indirectNodes }
  let g4 := g3.modify node fun x => { x with indirectNodes := ∅, childNodes := ∅ }
  (g4.clearConstraints w node).setSuperNode node superNode

/-- collapse the scc to the given super node; the points-to sets are not taken care of -/
def collapseSCCTo (w : Walk) (scc : List NodeID) (superNode : NodeID) : ConsGraph Obj Val :=
  scc.foldl (fun g node => if node = superNode then g else g.mergeInto w node superNode) g

end ConsGraph

/-- one call of the graph's interface -/
inductive Op (Obj Val : Type) where
  | addCGNode (kind : NodeKind Obj Val)
  | addConstraints (src dst : NodeID) (constraint : Constraints)
  | collapseSCCTo (scc : List NodeID) (superNode : NodeID)

namespace Op

/-- what the called function asserts of its arguments -/
def Legal (g : ConsGraph Obj Val) : Op Obj Val → Prop
  | .addCGNode _ => True
  | .addConstraints src dst c =>
    src < g.nodeNum ∧ dst < g.nodeNum ∧ (c = .addrOf → ∃ o, g.kind src = .objNode o)
  | .collapseSCCTo scc superNode =>
    scc.Nodup ∧ superNode ∈ scc ∧ ∀ n ∈ scc, n < g.nodeNum ∧ g.superOf n = none

def apply (w : Walk) (g : ConsGraph Obj Val) : Op Obj Val → ConsGraph Obj Val
  | .addCGNode kind => g.addCGNode kind
  | .addConstraints src dst c => (g.addConstraints src dst c).1
  | .collapseSCCTo scc superNode => g.collapseSCCTo w scc superNode

end Op

/-- the graphs built from the empty one -/
inductive Reachable (w : Walk) : ConsGraph Obj Val → Prop where
  | empty : Reachable w {}
  | step {g} (op : Op Obj Val) : Reachable w g → op.Legal g → Reachable w (op.apply w g)

end AserPTA
