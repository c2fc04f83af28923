import Mathlib.Data.Finset.Lattice.Fold
import Mathlib.Order.Lattice.Nat
import AserPTA.Forward.Root

/-!
# Nodes of the constraint graph

`CGNodeBase`, with the two node kinds `CGObjNode` and `CGPtrNode`.  A graph is the vector of its
nodes; a pointer to a node is the node's id.  An edge is stored twice, in `succCons` of its source
and in `predCons` of its target.

* `Walk`              the order in which a `DenseSet` of nodes is walked (a parameter);
* `bits`              the elements of a `SparseBitVector`, in the order its iterator gives them;
* `getSuperNode`, `insertConstraint`, `clearConstraints`   the methods of a node;
* `asserts`           the conjunction of the assertions on the two sets of an edge met so far.
-/

namespace AserPTA

abbrev NodeID := Nat

/-- a node of the call graph, by its id -/
abbrev CallNodeID := Nat

inductive Constraints where
  | load
  | store
  | copy
  | addrOf
  | offset
  deriving DecidableEq, Repr

/-- the order of the edge iterators: the set of the last kind is the outermost one -/
def Constraints.all : List Constraints := [.offset, .addrOf, .copy, .store, .load]

@[simp] theorem Constraints.mem_all (k : Constraints) : k ∈ Constraints.all := by
  cases k <;> decide

/-- what a node stands for: the pointer of a `CGPtrNode` (none for an anonymous node), the object of
a `CGObjNode` -/
inductive NodeKind (Obj Val : Type) where
  | ptrNode (ptr : Option Val)
  | objNode (obj : Obj)
  deriving DecidableEq

structure CGNode (Obj Val : Type) where
  kind : NodeKind Obj Val
  superNode : Option NodeID := none
  childNodes : Finset NodeID := ∅
  succCons : Constraints → Finset NodeID := fun _ => ∅
  predCons : Constraints → Finset NodeID := fun _ => ∅
  indirectNodes : Finset CallNodeID := ∅

structure ConsGraph (Obj Val : Type) where
  nodeNum : Nat := 0
  node : NodeID → CGNode Obj Val := fun _ => { kind := .ptrNode none }
  asserts : Bool := true

/-- the order in which a `DenseSet` of nodes is walked is not specified: a parameter -/
structure Walk where
  walk : Finset NodeID → List NodeID
  mem_walk : ∀ s x, x ∈ walk s ↔ x ∈ s
  nodup_walk : ∀ s, (walk s).Nodup

attribute [simp] Walk.mem_walk

/-- the elements of a `SparseBitVector`, in increasing order -/
def bits (s : Finset NodeID) : List NodeID := (List.range (s.sup id + 1)).filter (· ∈ s)

@[simp] theorem mem_bits (s : Finset NodeID) (x : NodeID) : x ∈ bits s ↔ x ∈ s := by
  rw [bits, List.mem_filter, List.mem_range, decide_eq_true_eq, and_iff_right_iff_imp]
  intro h
  exact Nat.lt_succ_of_le (Finset.le_sup (f := id) h)

theorem nodup_bits (s : Finset NodeID) : (bits s).Nodup := List.nodup_range.filter _

/-- walking in increasing order is one of the orders -/
def Walk.ascending : Walk := ⟨bits, mem_bits, nodup_bits⟩

variable {Obj Val : Type}

namespace ConsGraph

variable (g : ConsGraph Obj Val)

def kind (n : NodeID) : NodeKind Obj Val := (g.node n).kind
def superOf (n : NodeID) : Option NodeID := (g.node n).superNode
def succ (k : Constraints) (n : NodeID) : Finset NodeID := (g.node n).succCons k
def pred (k : Constraints) (n : NodeID) : Finset NodeID := (g.node n).predCons k
def indirect (n : NodeID) : Finset CallNodeID := (g.node n).indirectNodes

/-- follow the super node pointers; `Forward.root_of_acyclic` shows that the bound is enough -/
def getSuperNode (n : NodeID) : NodeID := Forward.root g.superOf g.nodeNum n

def hasSuperNode (n : NodeID) : Bool := (g.superOf n).isSome
def isFunctionPtr (n : NodeID) : Bool := decide (g.indirect n ≠ ∅)

/-- write to the fields of one node -/
def modify (n : NodeID) (f : CGNode Obj Val → CGNode Obj Val) : ConsGraph Obj Val :=
  { g with node := fun m => if m = n then f (g.node m) else g.node m }

def setIndirectCallNode (n : NodeID) (c : CallNodeID) : ConsGraph Obj Val :=
  g.modify n fun x => { x with indirectNodes := insert c x.indirectNodes }

def setSuperNode (n s : NodeID) : ConsGraph Obj Val :=
  g.modify n fun x => { x with superNode := some s }

/-- `succCons[k].insert(v)` of the node `n` -/
def insertSucc (n : NodeID) (k : Constraints) (v : NodeID) : ConsGraph Obj Val :=
  g.modify n fun x =>
    { x with succCons := fun k' => if k' = k then insert v (x.succCons k') else x.succCons k' }

def insertPred (n : NodeID) (k : Constraints) (v : NodeID) : ConsGraph Obj Val :=
  g.modify n fun x =>
    { x with predCons := fun k' => if k' = k then insert v (x.predCons k') else x.predCons k' }

/-- `succCons[k].erase(v)` of the node `n`, with the assertion that `v` is there -/
def eraseSucc (n : NodeID) (k : Constraints) (v : NodeID) : ConsGraph Obj Val :=
  { g.modify n fun x =>
      { x with succCons := fun k' => if k' = k then (x.succCons k').erase v else x.succCons k' } with
    asserts := g.asserts && decide (v ∈ g.succ k n) }

def erasePred (n : NodeID) (k : Constraints) (v : NodeID) : ConsGraph Obj Val :=
  { g.modify n fun x =>
      { x with predCons := fun k' => if k' = k then (x.predCons k').erase v else x.predCons k' } with
    asserts := g.asserts && decide (v ∈ g.pred k n) }

/-- insert the edge between the super nodes of the two nodes; true if it is new -/
def insertConstraint (this node : NodeID) (edgeKind : Constraints) : ConsGraph Obj Val × Bool :=
  let src := g.getSuperNode this
  let dst := g.getSuperNode node
  -- self-copy does not have any effect
  if src = dst ∧ edgeKind = .copy then (g, false)
  else
    let r1 := decide (dst ∉ g.succ edgeKind src)
    let g1 := g.insertSucc src edgeKind dst
    let r2 := decide (src ∉ g1.pred edgeKind dst)
    let g2 := g1.insertPred dst edgeKind src
    ({ g2 with asserts := g2.asserts && (r1 == r2) }, r1)

/-- `CLEAR_CONSTRAINT(k)`.  Neither loop erases from the set it walks: a self edge is erased from
`predCons` by the first loop, so the second one does not meet it. -/
def clearKind (w : Walk) (this : NodeID) (k : Constraints) : ConsGraph Obj Val :=
  let g1 := (w.walk (g.succ k this)).foldl (fun g target => g.erasePred target k this) g
  let g2 := (w.walk (g1.pred k this)).foldl (fun g target => g.eraseSucc target k this) g1
  g2.modify this fun x =>
    { x with
      succCons := fun k' => if k' = k then ∅ else x.succCons k'
      predCons := fun k' => if k' = k then ∅ else x.predCons k' }

/-- remove all the edges of a node -/
def clearConstraints (w : Walk) (this : NodeID) : ConsGraph Obj Val :=
  [.load, .store, .copy, .addrOf, .offset].foldl (fun g k => g.clearKind w this k) g

end ConsGraph

end AserPTA
