import AserPTA.Inclusion.System
import AserPTA.Solver.Base

/-!
# The inclusion system of a constraint graph

The solvers merge nodes and make nodes while they run, so the inclusion constraints are over names
that do not depend on the run: a pointer node is named by its id, an object node by its object, and
the anonymous node that follows an object node by that object.

* `ConsGraph.name`      the name of a node;
* `andersen`            the inclusion system of a set of named constraints;
* `Meets`               an assignment satisfies one of them;
* `ofGraph`             the named constraints that the edges of a graph stand for;
* `WellFormedOn`        offset edges target `getelementptr` nodes, which are fed by address nodes
                        only, and address nodes are not fed by anything;
* `Core.PointsTo`       an object is in the points-to set of the representative of a node.
-/

namespace AserPTA

variable {Obj Val : Type}

/-- what a node is called -/
inductive Name (Obj Val : Type) where
  | ptr (id : NodeID) (value : Option Val)
  | obj (o : Obj)
  | addr (o : Obj)
  deriving DecidableEq

/-- named constraints; those of kind `addrOf` are not used -/
abbrev Cons (Obj Val : Type) := Constraints → Name Obj Val → Name Obj Val → Prop

/-- the object that a `getelementptr` node takes of an object -/
def Name.index (M : MemModel Obj Val) : Name Obj Val → Obj → Option Obj
  | .ptr _ (some gep), o => M.indexObject o gep
  | _, _ => none

/-- the Andersen inclusion system of the constraints -/
def andersen (M : MemModel Obj Val) (C : Cons Obj Val) : Inclusion.System (Name Obj Val) Obj where
  cell := .obj
  index := Name.index M
  base v o := v = .addr o
  copy := C .copy
  load := C .load
  store := C .store
  offset := C .offset

/-- `P` satisfies the constraint of kind `k` from `a` to `b` -/
def Meets (M : MemModel Obj Val) (P : Name Obj Val → Obj → Prop) (a b : Name Obj Val) :
    Constraints → Prop
  | .copy => ∀ o, P a o → P b o
  | .load => ∀ p o, P a p → P (.obj p) o → P b o
  | .store => ∀ p o, P b p → P a o → P (.obj p) o
  | .offset => ∀ o f, P a o → b.index M o = some f → P b f
  | .addrOf => True

theorem meets_of_solution {M : MemModel Obj Val} {C : Cons Obj Val}
    {P : Name Obj Val → Obj → Prop} (hP : (andersen M C).Solution P) {k : Constraints}
    {a b : Name Obj Val} (h : C k a b) : Meets M P a b k := by
  cases k with
  | copy => exact hP.copy a b h
  | load => exact fun p o hp => hP.load a b h p hp o
  | store => exact fun p o hp => hP.store a b h p hp o
  | offset => exact fun o f ho => hP.offset a b h o ho f
  | addrOf => trivial

namespace ConsGraph

variable (g : ConsGraph Obj Val)

/-- the object whose address is held by the node -/
def addrOfObj : NodeID → Option Obj
  | 0 => none
  | n + 1 => match g.kind n with
    | .objNode o => some o
    | .ptrNode _ => none

/-- `n` is the anonymous node of an object -/
def IsAddr (n : NodeID) : Prop := ∃ m o, n = m + 1 ∧ m < g.nodeNum ∧ g.kind m = .objNode o

def name (n : NodeID) : Name Obj Val :=
  match g.kind n with
  | .objNode o => .obj o
  | .ptrNode p => match g.addrOfObj n with
    | some o => .addr o
    | none => .ptr n p

/-- the constraints that the edges of the graph stand for -/
def ofGraph : Cons Obj Val := fun k a b => ∃ u v, v ∈ g.succ k u ∧ g.name u = a ∧ g.name v = b

/-- `n` is the target of an offset edge -/
def IsGep (n : NodeID) : Prop := ∃ u, n ∈ g.succ .offset u

/-- What the builder of the graph emits, where `G` are the nodes that offset edges may target.  A load
edge stands for copy edges into its target. -/
structure WellFormedOn (g : ConsGraph Obj Val) (G : NodeID → Prop) : Prop where
  gep_target : ∀ u v, v ∈ g.succ .offset u → G v
  gep_kind : ∀ v, G v → v < g.nodeNum ∧ ∃ gep, g.kind v = .ptrNode (some gep)
  gep_copy : ∀ v, G v → ∀ x, v ∈ g.succ .copy x → g.IsAddr x
  gep_load : ∀ v, G v → ∀ x, v ∉ g.succ .load x
  addr_copy : ∀ v, g.IsAddr v → ∀ x, v ∉ g.succ .copy x
  addr_load : ∀ v, g.IsAddr v → ∀ x, v ∉ g.succ .load x

/-- every object has at most one node -/
def ObjUnique (g : ConsGraph Obj Val) : Prop :=
  ∀ m n o, m < g.nodeNum → n < g.nodeNum → g.kind m = .objNode o → g.kind n = .objNode o → m = n

variable {g}

theorem name_obj {n : NodeID} {o : Obj} (h : g.kind n = .objNode o) : g.name n = .obj o := by
  rw [name, h]

theorem name_addr (ha : g.AddrNodes) {n : NodeID} {o : Obj} (hn : n < g.nodeNum)
    (h : g.kind n = .objNode o) : g.name (n + 1) = .addr o := by
  rw [name, (ha n o h hn).2]
  simp only [addrOfObj, h]

theorem name_ptr {n : NodeID} {gep : Val} (ha : g.AddrNodes) (hn : n < g.nodeNum)
    (h : g.kind n = .ptrNode (some gep)) : g.name n = .ptr n (some gep) := by
  cases n with
  | zero => rw [name, h]; rfl
  | succ n =>
    cases hk : g.kind n with
    | ptrNode p => rw [name, h]; simp only [addrOfObj, hk]
    | objNode o =>
      have := (ha n o hk (Nat.lt_of_succ_lt hn)).2
      rw [h] at this
      cases this

theorem index_name (M : MemModel Obj Val) (ha : g.AddrNodes) {n : NodeID} {gep : Val}
    (hn : n < g.nodeNum) (h : g.kind n = .ptrNode (some gep)) (o : Obj) :
    (g.name n).index M o = M.indexObject o gep := by
  rw [name_ptr ha hn h]
  rfl

theorem name_eq_obj {n : NodeID} {o : Obj} (h : g.name n = .obj o) : g.kind n = .objNode o := by
  cases hk : g.kind n with
  | objNode o' =>
    rw [name_obj hk] at h
    cases h
    rfl
  | ptrNode p =>
    rw [name, hk] at h
    cases ha : g.addrOfObj n <;> rw [ha] at h <;> cases h

theorem name_eq_addr {n : NodeID} {o : Obj} (h : g.name n = .addr o) :
    ∃ m, n = m + 1 ∧ g.kind m = .objNode o := by
  cases hk : g.kind n with
  | objNode o' => rw [name_obj hk] at h; cases h
  | ptrNode p =>
    cases n with
    | zero => rw [name, hk] at h; cases h
    | succ m =>
      refine ⟨m, rfl, ?_⟩
      rw [name, hk] at h
      simp only [addrOfObj] at h
      cases hm : g.kind m with
      | objNode o' => rw [hm] at h; cases h; rfl
      | ptrNode q => rw [hm] at h; cases h

/-- nodes have different names -/
theorem ObjUnique.name_inj (h : g.ObjUnique) {m n : NodeID} (hm : m < g.nodeNum)
    (hn : n < g.nodeNum) (he : g.name m = g.name n) : m = n := by
  cases hk : g.name m with
  | obj o => exact h m n o hm hn (name_eq_obj hk) (name_eq_obj (he ▸ hk))
  | addr o =>
    obtain ⟨m', rfl, hm'⟩ := name_eq_addr hk
    obtain ⟨n', rfl, hn'⟩ := name_eq_addr (he ▸ hk)
    rw [h m' n' o (Nat.lt_of_succ_lt hm) (Nat.lt_of_succ_lt hn) hm' hn']
  | ptr i p =>
    have hid : ∀ x, g.name x = .ptr i p → x = i := by
      intro x hx
      rw [name] at hx
      cases hkx : g.kind x with
      | objNode o => rw [hkx] at hx; cases hx
      | ptrNode q =>
        rw [hkx] at hx
        cases ha : g.addrOfObj x <;> rw [ha] at hx <;> cases hx
        rfl
    rw [hid m hk, hid n (he ▸ hk)]

/-- an object node of the larger graph is old or new -/
theorem NodeAdded.obj_cases {g' : ConsGraph Obj Val} {kind : NodeKind Obj Val}
    (hadd : NodeAdded g g' kind) {n : NodeID} {o : Obj} (hn : n < g'.nodeNum)
    (ho : g'.kind n = .objNode o) :
    (n < g.nodeNum ∧ g.kind n = .objNode o) ∨ (n = g.nodeNum ∧ kind = .objNode o) := by
  rcases lt_trichotomy n g.nodeNum with hlt | rfl | hlt
  · exact .inl ⟨hlt, (hadd.kind_old n hlt).symm.trans ho⟩
  · exact .inr ⟨rfl, hadd.kind_new.symm.trans ho⟩
  · rw [hadd.kind_addr n hlt hn] at ho
    cases ho

theorem ObjUnique.nodeAdded {g' : ConsGraph Obj Val} {kind : NodeKind Obj Val} (h : g.ObjUnique)
    (hadd : NodeAdded g g' kind)
    (hnew : ∀ o, kind = .objNode o → ∀ n < g.nodeNum, g.kind n ≠ .objNode o) : g'.ObjUnique := by
  intro m n o hm hn hmo hno
  rcases hadd.obj_cases hm hmo with ⟨hm1, hm2⟩ | ⟨rfl, hk⟩ <;>
    rcases hadd.obj_cases hn hno with ⟨hn1, hn2⟩ | ⟨rfl, hk'⟩
  · exact h m n o hm1 hn1 hm2 hn2
  · exact absurd hm2 (hnew o hk' m hm1)
  · exact absurd hn2 (hnew o hk n hn1)
  · rfl

theorem findObj_eq_some [DecidableEq Obj] {f : Obj} {i : NodeID} (h : g.findObj f = some i) :
    i < g.nodeNum ∧ g.kind i = .objNode f := by
  have h1 := List.find?_some h
  have h2 := List.mem_of_find?_eq_some h
  refine ⟨List.mem_range.mp h2, ?_⟩
  cases hk : g.kind i with
  | objNode o => simp only [hk, decide_eq_true_eq] at h1; rw [h1]
  | ptrNode p => simp [hk] at h1

theorem findObj_eq_none [DecidableEq Obj] {f : Obj} (h : g.findObj f = none) {i : NodeID}
    (hi : i < g.nodeNum) : g.kind i ≠ .objNode f := by
  intro hk
  have := List.find?_eq_none.mp h i (List.mem_range.mpr hi)
  simp [hk] at this

end ConsGraph

/-- the object is in the points-to set of the node's representative -/
def Core.PointsTo (c : Core Obj Val) (n : NodeID) (o : Obj) : Prop :=
  ∃ x ∈ c.pts (c.graph.getSuperNode n), c.graph.kind x = .objNode o

end AserPTA
