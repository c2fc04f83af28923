import AserPTA.Solver.Edges

/-!
# The constraints that a state was given

* `Tracks`                the state covers the constraints `C` it was given and holds nothing beyond
                          their solutions;
* `Shape.addTarget`       a node may be added that offset edges may target;
* `Tracks.addCGNode`, `Tracks.insertEdge`
                          nodes and constraints may be added;
* `Tracks.run`            a solver may run;
* `Tracks.exact`          in a closed state the points-to sets are the least solution of `C`;
* `Built`                 the states that the builder of the graph leaves.
-/

namespace AserPTA

open Relation

variable {Obj Val : Type}

/-- one more constraint -/
def addCons (C : Cons Obj Val) (k : Constraints) (a b : Name Obj Val) : Cons Obj Val :=
  fun k' a' b' => C k' a' b' ∨ (k' = k ∧ a' = a ∧ b' = b)

theorem andersen_mono (M : MemModel Obj Val) {C C' : Cons Obj Val}
    (h : ∀ k a b, C k a b → C' k a b) : (andersen M C).Le (andersen M C') :=
  ⟨rfl, rfl, fun _ _ h => h, h .copy, h .load, h .store, h .offset⟩

namespace Core

open ConsGraph

variable {c : Core Obj Val} {M : MemModel Obj Val} {C : Cons Obj Val} {G : NodeID → Prop}

structure Tracks (M : MemModel Obj Val) (G : NodeID → Prop) (C : Cons Obj Val) (c : Core Obj Val) :
    Prop where
  shape : c.Shape G
  covered : c.graph.Covered C
  below : ∀ P, (andersen M C).Solution P → (∀ o o', P (.addr o) o' ↔ o' = o) → c.Below M P
  indexed : c.AllIndexed M

namespace Tracks

theorem run [DecidableEq Obj] {w : Walk} {c' : Core Obj Val} (h : c.Tracks M G C)
    (hs : Steps M w c c') (hi : c'.AllIndexed M) : c'.Tracks M G C where
  shape := h.shape.run hs
  covered := h.shape.covered_run h.covered hs
  below P hP ha := (h.below P hP ha).run h.shape ha hs
  indexed := hi

/-- a closed state holds the least solution -/
theorem exact (h : c.Tracks M G C) (hcl : c.Closed M) (n : NodeID) (hn : n < c.graph.nodeNum)
    (o : Obj) : c.PointsTo n o ↔ Inclusion.Least (andersen M C) (c.graph.name n) o :=
  h.shape.exact h.covered hcl
    (h.below _ (Inclusion.Least.solution _) (h.shape.least_addr h.covered)) n hn o

end Tracks

/-! ## a constraint is added -/

theorem Shape.isAddr_of_rep (h : c.Shape G) {b : NodeID} (hb : c.graph.IsAddr (c.graph.getSuperNode b)) :
    c.graph.IsAddr b := by
  have he := h.rep_eq_fixed (h.addr_fixed _ hb).2 rfl
  rwa [← he] at hb

theorem Shape.gep_of_rep (h : c.Shape G) {b : NodeID} (hb : G (c.graph.getSuperNode b)) : G b := by
  have he := h.rep_eq_fixed (h.gep_fixed _ hb).2 rfl
  rwa [← he] at hb

/-- what holds of the two nodes holds of their representatives -/
theorem Shape.edgeOk_rep (h : c.Shape G) {a b : NodeID} {k : Constraints} (hok : c.EdgeOk G a b k) :
    c.EdgeOk G (c.graph.getSuperNode a) (c.graph.getSuperNode b) k where
  copy hk := by
    refine ⟨fun hb => (hok.copy hk).1 (h.isAddr_of_rep hb), fun hb => ?_⟩
    have ha := (hok.copy hk).2 (h.gep_of_rep hb)
    rwa [getSuperNode_of_none (h.addr_fixed _ ha).1]
  load hk := ⟨fun hb => (hok.load hk).1 (h.isAddr_of_rep hb),
    fun hb => (hok.load hk).2 (h.gep_of_rep hb)⟩
  offset hk := by
    have hb := hok.offset hk
    rwa [getSuperNode_of_none (h.gep_fixed _ hb).1]

theorem Below.meets_rep {P : Name Obj Val → Obj → Prop} (h : c.Below M P) (hc : c.Shape G)
    {a b : NodeID} {k : Constraints} (hok : c.EdgeOk G a b k)
    (hm : Meets M P (c.graph.name a) (c.graph.name b) k) :
    Meets M P (c.graph.name (c.graph.getSuperNode a)) (c.graph.name (c.graph.getSuperNode b)) k := by
  have ha := h.rep hc a
  have hb := h.rep hc b
  cases k with
  | copy => exact fun o ho => (hb o).mpr (hm o ((ha o).mp ho))
  | load => exact fun p o hp ho => (hb o).mpr (hm p o ((ha p).mp hp) ho)
  | store => exact fun p o hp ho => hm p o ((hb p).mp hp) ((ha o).mp ho)
  | offset =>
    rw [getSuperNode_of_none (hc.gep_fixed b (hok.offset rfl)).1]
    exact fun o f ho hf => hm o f ((ha o).mp ho) hf
  | addrOf => trivial

theorem Tracks.insertEdge (h : c.Tracks M G C) {a b : NodeID} {k : Constraints}
    (ha : a < c.graph.nodeNum) (hb : b < c.graph.nodeNum) (hok : c.EdgeOk G a b k) :
    ({ c with graph := (c.graph.insertConstraint a b k).1 } : Core Obj Val).Tracks M G
      (addCons C k (c.graph.name a) (c.graph.name b)) := by
  have hs := insertConstraint_sameNodes (g := c.graph) a b k
  have hname := name_congr (g := c.graph) hs.kind
  have hsucc := mem_succ_insertConstraint (g := c.graph) a b k
  refine ⟨h.shape.insertEdge ha hb (h.shape.edgeOk_rep hok), ?_, fun P hP haddr => ?_,
    fun d x hx => ?_⟩
  · have hold : (c.graph.insertConstraint a b k).1.Covered C := by
      refine Covered.of_covers h.covered hs.nodeNum.ge (fun n _ => hname n) fun k' u v _ huv => ?_
      exact covers_insertConstraint huv
    rintro k' a' b' hk (hC | ⟨rfl, rfl, rfl⟩)
    · exact hold k' a' b' hk hC
    · exact ⟨a, b, hs.nodeNum.symm ▸ ha, hs.nodeNum.symm ▸ hb, hname a, hname b,
        covers_insertConstraint_self a b k'⟩
  · have hbelow := h.below P (hP.of_le (andersen_mono M fun _ _ _ => .inl)) haddr
    refine hbelow.insertEdge (hbelow.meets_rep h.shape hok ?_)
    exact meets_of_solution hP (.inr ⟨rfl, rfl, rfl⟩)
  · intro o gep f ho hg hf
    obtain ⟨i, hi, hif, h1⟩ := h.indexed d x hx o gep f ((hs.kind x).symm.trans ho)
      ((hs.kind d).symm.trans hg) hf
    refine ⟨i, hs.nodeNum.symm ▸ hi, (hs.kind i).trans hif, h1.imp_right fun h2 => ?_⟩
    exact (hsucc .copy (i + 1) d).mpr (.inl h2)

/-! ## a node is added -/

/-- a node that no edge touches may become a target of offset edges -/
theorem Shape.widen (h : c.Shape G) {d : NodeID} {gep : Val} (hd : d < c.graph.nodeNum)
    (hk : c.graph.kind d = .ptrNode (some gep)) (hin : ∀ k x, d ∉ c.graph.succ k x)
    (hroot : c.graph.superOf d = none ∧ ∀ m, c.graph.superOf m ≠ some d) (p : Prop) :
    c.Shape fun n => G n ∨ (n = d ∧ p) := by
  refine ⟨h.inv, h.addrNodes, ⟨fun u v huv => .inl (h.wf.gep_target u v huv), ?_, ?_, ?_,
    h.wf.addr_copy, h.wf.addr_load⟩, h.uniq, h.addr_fixed, ?_, h.pts_lt, h.pts_obj, h.pts_addr,
    fun e x hx => .inl (h.handled_gep e x hx), h.handled_lt⟩
  · rintro v (hv | ⟨rfl, -⟩)
    · exact h.wf.gep_kind v hv
    · exact ⟨hd, gep, hk⟩
  · rintro v (hv | ⟨rfl, -⟩) x hx
    · exact h.wf.gep_copy v hv x hx
    · exact absurd hx (hin _ x)
  · rintro v (hv | ⟨rfl, -⟩) x hx
    · exact h.wf.gep_load v hv x hx
    · exact hin _ x hx
  · rintro n (hn | ⟨rfl, -⟩)
    · exact h.gep_fixed n hn
    · exact hroot

/-- A new node; an object must not have one yet.  It may be a target of offset edges, if it is the node
of a `getelementptr`. -/
theorem Shape.addTarget (h : c.Shape G) (kind : NodeKind Obj Val)
    (hnew : ∀ o, kind = .objNode o → ∀ n < c.graph.nodeNum, c.graph.kind n ≠ .objNode o)
    (target : Prop) (htarget : target → ∃ gep, kind = .ptrNode (some gep)) :
    (c.addCGNode kind).Shape fun n => G n ∨ (n = c.graph.nodeNum ∧ target) := by
  have hadd := h.nodeAdded kind
  have hsh := h.addCGNode kind hnew
  by_cases ht : target
  · obtain ⟨gep, rfl⟩ := htarget ht
    refine hsh.widen hadd.lt hadd.kind_new (fun k x hx => ?_) ⟨?_, fun m hm => ?_⟩ _
    · have hsucc : c.graph.nodeNum ∈ c.graph.succ k x := by
        have := (h.inv.maps_addNewNode (.ptrNode (some gep))).2.1
        exact (congrFun (congrFun this k) x) ▸ hx
      exact absurd (h.inv.edge_lt k x _ hsucc).2 (lt_irrefl _)
    · rw [hadd.superOf]
      exact h.inv.fresh.1
    · rw [hadd.superOf] at hm
      exact absurd (h.inv.sup_lt _ _ hm).2 (lt_irrefl _)
  · have hG : (fun n => G n ∨ (n = c.graph.nodeNum ∧ target)) = G := by
      funext n
      simp [ht]
    rw [hG]
    exact hsh

theorem Tracks.addCGNode (h : c.Tracks M G C) (kind : NodeKind Obj Val)
    (hnew : ∀ o, kind = .objNode o → ∀ n < c.graph.nodeNum, c.graph.kind n ≠ .objNode o)
    (target : Prop) (htarget : target → ∃ gep, kind = .ptrNode (some gep)) :
    (c.addCGNode kind).Tracks M (fun n => G n ∨ (n = c.graph.nodeNum ∧ target)) C := by
  have hadd := h.shape.nodeAdded kind
  refine ⟨h.shape.addTarget kind hnew target htarget, ?_,
    fun P hP haddr => (h.below P hP haddr).addCGNode h.shape haddr kind, fun d x hx => ?_⟩
  · refine Covered.of_covers h.covered hadd.lt.le (fun n hn => h.shape.name_addCGNode kind hn)
      fun k u v hk huv => covers_nodeAdded hadd hk huv
  · have hx' : x ∈ c.handledGEPMap d := hx
    have hd := (h.shape.wf.gep_kind d (h.shape.handled_gep d x hx')).1
    have hxlt := h.shape.handled_lt d x hx'
    intro o gep f ho hg hf
    rw [hadd.kind_old x hxlt] at ho
    rw [hadd.kind_old d hd] at hg
    obtain ⟨i, hi, hif, h1⟩ := h.indexed d x hx' o gep f ho hg hf
    refine ⟨i, hi.trans hadd.lt, (hadd.kind_old i hi).trans hif, h1.imp (fun h2 => ?_) fun h2 => ?_⟩
    · rwa [Shape.pts_addCGNode_of_lt hd]
    · rwa [hadd.succ .copy (by decide)]

/-! ## the graph that the builder leaves -/

end Core

/-- what the builder does to the graph -/
inductive Edit (Obj Val : Type) where
  | addCGNode (kind : NodeKind Obj Val)
  | addConstraints (src dst : NodeID) (k : Constraints)

namespace Edit

def apply (c : Core Obj Val) : Edit Obj Val → Core Obj Val
  | .addCGNode kind => c.addCGNode kind
  | .addConstraints src dst k => { c with graph := (c.graph.addConstraints src dst k).1 }

def isObj : NodeKind Obj Val → Bool
  | .objNode _ => true
  | .ptrNode _ => false

/-- an object gets one node, and constraints are between nodes -/
def Legal (c : Core Obj Val) : Edit Obj Val → Prop
  | .addCGNode (.objNode o) => ∀ n < c.graph.nodeNum, c.graph.kind n ≠ .objNode o
  | .addCGNode (.ptrNode _) => True
  | .addConstraints src dst k => src < c.graph.nodeNum ∧ dst < c.graph.nodeNum ∧
      (k = .addrOf → isObj (c.graph.kind src) = true)

instance [DecidableEq Obj] [DecidableEq Val] (c : Core Obj Val) (e : Edit Obj Val) :
    Decidable (e.Legal c) := by
  cases e with
  | addCGNode kind =>
    cases kind with
    | objNode o => exact inferInstanceAs (Decidable (∀ n < c.graph.nodeNum, _))
    | ptrNode p => exact isTrue trivial
  | addConstraints src dst k => exact inferInstanceAs (Decidable (_ ∧ _ ∧ (_ → _)))

theorem obj_of_isObj {kind : NodeKind Obj Val} (h : isObj kind = true) : ∃ o, kind = .objNode o := by
  cases kind with
  | objNode o => exact ⟨o, rfl⟩
  | ptrNode p => cases h

theorem Legal.not_mem {c : Core Obj Val} {kind : NodeKind Obj Val}
    (h : (Edit.addCGNode kind).Legal c) (o : Obj) (ho : kind = .objNode o) :
    ∀ n < c.graph.nodeNum, c.graph.kind n ≠ .objNode o := by
  subst ho
  exact h

/-- every edit of the list is legal when it is made -/
def AllLegal : List (Edit Obj Val) → Core Obj Val → Prop
  | [], _ => True
  | e :: l, c => e.Legal c ∧ AllLegal l (e.apply c)

instance decidableAllLegal [DecidableEq Obj] [DecidableEq Val] :
    (l : List (Edit Obj Val)) → (c : Core Obj Val) → Decidable (AllLegal l c)
  | [], _ => isTrue trivial
  | e :: l, c => @instDecidableAnd _ _ _ (decidableAllLegal l (e.apply c))

end Edit

namespace Core

open ConsGraph

variable {c : Core Obj Val} {M : MemModel Obj Val} {C : Cons Obj Val} {G : NodeID → Prop}

/-- the states that the builder makes -/
inductive Built : Core Obj Val → Prop where
  | empty : Built {}
  | step {c : Core Obj Val} (e : Edit Obj Val) : Built c → e.Legal c → Built (e.apply c)

theorem Built.foldl {l : List (Edit Obj Val)} (h : c.Built) (hl : Edit.AllLegal l c) :
    (l.foldl Edit.apply c).Built := by
  induction l generalizing c with
  | nil => exact h
  | cons e l ih => exact ih (h.step e hl.1) hl.2

/-! ## a history of edits -/

end Core

/-- what the solver was given: the constraints, and the nodes that offset edges may target -/
structure Given (Obj Val : Type) where
  cons : Cons Obj Val := fun _ _ _ => False
  gep : NodeID → Prop := fun _ => False

/-- the edge that a constraint is stored as: an address edge is a copy edge from the address node -/
def Constraints.stored (k : Constraints) : Constraints := if k = .addrOf then .copy else k

def Constraints.source (k : Constraints) (src : NodeID) : NodeID :=
  if k = .addrOf then src + 1 else src

/-- An edit that keeps the graph well formed, and what is given after it.  A node is declared as a
target of offset edges when it is made. -/
inductive Given.Step (c : Core Obj Val) : Edit Obj Val → Given Obj Val → Given Obj Val → Prop where
  | node {g : Given Obj Val} (kind : NodeKind Obj Val) (target : Prop) :
      (Edit.addCGNode kind).Legal c → (target → ∃ gep, kind = .ptrNode (some gep)) →
      Step c (.addCGNode kind) g
        { g with gep := fun n => g.gep n ∨ (n = c.graph.nodeNum ∧ target) }
  | constraint {g : Given Obj Val} (src dst : NodeID) (k : Constraints) :
      (Edit.addConstraints src dst k).Legal c →
      c.EdgeOk g.gep (k.source src) dst k.stored →
      Step c (.addConstraints src dst k) g
        { g with cons := addCons g.cons k.stored (c.graph.name (k.source src)) (c.graph.name dst) }

namespace Core

open ConsGraph

variable {c : Core Obj Val} {M : MemModel Obj Val} {C : Cons Obj Val} {G : NodeID → Prop}

theorem Tracks.empty (M : MemModel Obj Val) :
    ({} : Core Obj Val).Tracks M ({} : Given Obj Val).gep ({} : Given Obj Val).cons := by
  have hlt : ∀ n, ¬ n < ({} : ConsGraph Obj Val).nodeNum := Nat.not_lt_zero
  have haddr : ∀ n, ¬ ({} : ConsGraph Obj Val).IsAddr n := fun n ⟨m, _, _, hm, _⟩ => hlt m hm
  refine ⟨⟨.empty, fun n o _ hn => absurd hn (hlt n), ⟨?_, fun _ h => h.elim, fun _ h => h.elim,
    fun _ h => h.elim, fun v h => absurd h (haddr v), fun v h => absurd h (haddr v)⟩,
    fun m n o hm => absurd hm (hlt m), fun n h => absurd h (haddr n), fun _ h => h.elim,
    fun _ x hx => (by cases hx), fun _ x hx => (by cases hx), fun m o hm => absurd hm (hlt m),
    fun _ x hx => (by cases hx), fun _ x hx => (by cases hx)⟩, fun _ _ _ _ h => h.elim,
    fun P _ _ => ⟨fun _ x hx => (by cases hx), fun n m hm => (by cases hm), ?_, ?_, ?_, ?_,
    fun _ x hx => (by cases hx)⟩, fun _ x hx => (by cases hx)⟩
  all_goals exact fun u v huv => absurd (Inv.empty.edge_lt _ _ _ huv).1 (hlt u)

theorem Tracks.source_lt (h : c.Tracks M G C) {src dst : NodeID} {k : Constraints}
    (hl : (Edit.addConstraints src dst k).Legal c) : k.source src < c.graph.nodeNum := by
  rw [Constraints.source]
  split
  · obtain ⟨o, ho⟩ := Edit.obj_of_isObj (hl.2.2 ‹_›)
    exact (h.shape.addrNodes src o ho hl.1).1
  · exact hl.1

/-- an edit keeps what the state tracks -/
theorem Tracks.edit {g g' : Given Obj Val} (h : c.Tracks M g.gep g.cons) {e : Edit Obj Val}
    (hs : Given.Step c e g g') : (e.apply c).Tracks M g'.gep g'.cons := by
  cases hs with
  | node kind target hl ht => exact h.addCGNode kind hl.not_mem target ht
  | constraint src dst k hl hok =>
    have := h.insertEdge (h.source_lt hl) hl.2.1 hok
    rwa [Edit.apply, addConstraints_fst]

/-- in a built state nothing is merged, and only the address nodes point to anything -/
structure Fresh (c : Core Obj Val) : Prop where
  inv : c.graph.Inv
  addrNodes : c.graph.AddrNodes
  uniq : c.graph.ObjUnique
  superOf : ∀ n, c.graph.superOf n = none
  pts : ∀ n x, x ∈ c.pts n ↔ n = x + 1 ∧ x < c.graph.nodeNum ∧ ∃ o, c.graph.kind x = .objNode o
  handled : ∀ d, c.handledGEPMap d = ∅

theorem Fresh.addCGNode (h : c.Fresh) (kind : NodeKind Obj Val)
    (hnew : ∀ o, kind = .objNode o → ∀ n < c.graph.nodeNum, c.graph.kind n ≠ .objNode o) :
    (c.addCGNode kind).Fresh := by
  have hinv := (h.inv.addCGNode kind).1
  have hadd : NodeAdded c.graph (c.addCGNode kind).graph kind := (h.inv.addCGNode kind).2
  refine ⟨hinv, h.addrNodes.addCGNode h.inv kind, h.uniq.nodeAdded hadd hnew, fun n => ?_,
    fun n x => ⟨fun hx => ?_, ?_⟩, h.handled⟩
  · rw [hadd.superOf]
    exact h.superOf n
  · rcases Shape.mem_pts_addCGNode hx with hx | ⟨rfl, rfl, o, rfl⟩
    · obtain ⟨h1, h2, o, h3⟩ := (h.pts n x).mp hx
      exact ⟨h1, h2.trans hadd.lt, o, (hadd.kind_old x h2).trans h3⟩
    · exact ⟨rfl, hadd.lt, o, hadd.kind_new⟩
  · rintro ⟨rfl, hx, o, ho⟩
    rcases hadd.obj_cases hx ho with ⟨h1, h2⟩ | ⟨rfl, rfl⟩
    · rw [Shape.pts_addCGNode_of_lt (h.addrNodes x o h2 h1).1]
      exact (h.pts (x + 1) x).mpr ⟨rfl, h1, o, h2⟩
    · have hpts : (c.addCGNode (.objNode o)).pts (c.graph.nodeNum + 1) = {c.graph.nodeNum} :=
        if_pos rfl
      rw [hpts]
      exact Finset.mem_singleton_self _

theorem Fresh.addConstraints (h : c.Fresh) {src dst : NodeID} {k : Constraints}
    (hlegal : (Edit.addConstraints src dst k).Legal c) :
    ((Edit.addConstraints src dst k).apply c).Fresh := by
  have hs : SameNodes c.graph (c.graph.addConstraints src dst k).1 := by
    rw [addConstraints_fst]
    exact insertConstraint_sameNodes ..
  refine ⟨h.inv.addConstraints h.addrNodes hlegal.1 hlegal.2.1 fun hk =>
    Edit.obj_of_isObj (hlegal.2.2 hk), h.addrNodes.of_eq hs.nodeNum hs.kind, fun m n o => ?_,
    fun n => (hs.superOf n).trans (h.superOf n), fun n x => ?_, h.handled⟩
  · show m < (c.graph.addConstraints src dst k).1.nodeNum → _
    rw [hs.nodeNum]
    intro hm hn hmo hno
    exact h.uniq m n o hm (hs.nodeNum ▸ hn) ((hs.kind m).symm.trans hmo) ((hs.kind n).symm.trans hno)
  · show _ ↔ _ ∧ x < (c.graph.addConstraints src dst k).1.nodeNum ∧
      ∃ o, (c.graph.addConstraints src dst k).1.kind x = .objNode o
    rw [hs.nodeNum, hs.kind]
    exact h.pts n x

theorem Built.fresh (h : c.Built) : c.Fresh := by
  induction h with
  | empty =>
    refine ⟨.empty, fun n o _ hn => (by cases hn), fun m n o hm => (by cases hm), fun _ => rfl,
      fun n x => ⟨fun hx => (by cases hx), fun hx => ?_⟩, fun _ => rfl⟩
    exact absurd hx.2.1 (Nat.not_lt_zero x)
  | @step c e _ hlegal ih =>
    cases e with
    | addCGNode kind => exact ih.addCGNode kind hlegal.not_mem
    | addConstraints src dst k => exact ih.addConstraints hlegal

/-- a built state was given the constraints that its edges stand for -/
theorem Built.tracks (h : c.Built) (M : MemModel Obj Val) (hwf : c.graph.WellFormedOn G) :
    c.Tracks M G c.graph.ofGraph := by
  have hf := h.fresh
  have hrep : ∀ m n, c.graph.superOf m ≠ some n := fun m n hm => by
    rw [hf.superOf m] at hm
    cases hm
  have hempty : ∀ d x, x ∉ c.handledGEPMap d := fun d x hx => by
    rw [hf.handled] at hx
    cases hx
  refine ⟨⟨hf.inv, hf.addrNodes, hwf, hf.uniq, fun n _ => ⟨hf.superOf n, fun m => hrep m n⟩,
    fun n _ => ⟨hf.superOf n, fun m => hrep m n⟩, fun n x hx => ?_, fun n x hx => ?_,
    fun m o hm ho => ?_, fun d x hx => absurd hx (hempty d x), fun d x hx => absurd hx (hempty d x)⟩,
    fun k a b hk hC => ?_, fun P hP haddr => ?_, fun d x hx => absurd hx (hempty d x)⟩
  · obtain ⟨rfl, h2, o, h3⟩ := (hf.pts n x).mp hx
    exact (hf.addrNodes x o h3 h2).1
  · exact ((hf.pts n x).mp hx).2
  · ext x
    rw [hf.pts, Finset.mem_singleton]
    constructor
    · rintro ⟨he, -⟩
      exact (Nat.succ.inj he).symm
    · rintro rfl
      exact ⟨rfl, hm, o, ho⟩
  · obtain ⟨u, v, huv, rfl, rfl⟩ := hC
    obtain ⟨hu, hv⟩ := hf.inv.edge_lt _ _ _ huv
    exact ⟨u, v, hu, hv, rfl, rfl, covers_of_mem hf.inv huv⟩
  · have hmeets : ∀ k u v, v ∈ c.graph.succ k u →
        Meets M P (c.graph.name u) (c.graph.name v) k := fun k u v huv =>
      meets_of_solution hP ⟨u, v, huv, rfl, rfl⟩
    refine ⟨fun n x hx o ho => ?_, fun n m hm => absurd hm (hrep n m), fun u v => hmeets .copy u v,
      fun u v => hmeets .load u v, fun u v => hmeets .store u v, fun u v => hmeets .offset u v,
      fun d x hx => absurd hx (hempty d x)⟩
    obtain ⟨rfl, h2, o', h3⟩ := (hf.pts n x).mp hx
    rw [name_addr hf.addrNodes h2 h3]
    rw [h3] at ho
    cases ho
    exact (haddr o o).mpr rfl

end Core

/-! ## checking a graph -/

namespace ConsGraph

variable (g : ConsGraph Obj Val)

instance (n : NodeID) : Decidable (g.IsAddr n) :=
  match n with
  | 0 => isFalse fun ⟨_, _, h, _⟩ => by cases h
  | m + 1 =>
    if hm : m < g.nodeNum then
      match hk : g.kind m with
      | .objNode o => isTrue ⟨m, o, rfl, hm, hk⟩
      | .ptrNode p => isFalse fun ⟨m', o, he, _, ho⟩ => by
        cases he
        rw [hk] at ho
        cases ho
    else isFalse fun ⟨m', o, he, hm', _⟩ => by
      cases he
      exact hm hm'

/-- the graph is well formed: the targets of its offset edges are all that they may target -/
def WellFormed : Prop := g.WellFormedOn g.IsGep

def NodeKind.isGep : NodeKind Obj Val → Bool
  | .ptrNode (some _) => true
  | _ => false

/-- a `getelementptr` node that is fed by address nodes only -/
def GepOk (v : NodeID) : Prop := NodeKind.isGep (g.kind v) = true ∧
  ∀ x < g.nodeNum, (v ∈ g.succ .copy x → g.IsAddr x) ∧ v ∉ g.succ .load x

instance (v : NodeID) : Decidable (g.GepOk v) := by
  unfold GepOk
  infer_instance

/-- what is to be checked of a graph whose edges are between its nodes -/
def Checks : Prop :=
  (∀ u < g.nodeNum, ∀ v < g.nodeNum, v ∈ g.succ .offset u → g.GepOk v) ∧
  ∀ v < g.nodeNum, g.IsAddr v → ∀ x < g.nodeNum, v ∉ g.succ .copy x ∧ v ∉ g.succ .load x

instance : Decidable g.Checks := by
  unfold Checks
  infer_instance

variable {g}

theorem wellFormed_of_checks (h : g.Inv) (hc : g.Checks) : g.WellFormed := by
  have hgep : ∀ v, g.IsGep v → v < g.nodeNum ∧ g.GepOk v := by
    rintro v ⟨u, hu⟩
    obtain ⟨h1, h2⟩ := h.edge_lt _ _ _ hu
    exact ⟨h2, hc.1 u h1 v h2 hu⟩
  refine ⟨fun u v hu => ⟨u, hu⟩, fun v hv => ?_, fun v hv x hx => ?_, fun v hv x hx => ?_,
    fun v hv x hx => ?_, fun v hv x hx => ?_⟩
  · obtain ⟨h1, h2, -⟩ := hgep v hv
    refine ⟨h1, ?_⟩
    cases hk : g.kind v with
    | objNode o => rw [hk] at h2; cases h2
    | ptrNode p =>
      cases p with
      | none => rw [hk] at h2; cases h2
      | some gep => exact ⟨gep, rfl⟩
  · exact ((hgep v hv).2.2 x (h.edge_lt _ _ _ hx).1).1 hx
  · exact ((hgep v hv).2.2 x (h.edge_lt _ _ _ hx).1).2 hx
  · obtain ⟨h1, h2⟩ := h.edge_lt _ _ _ hx
    exact (hc.2 v h2 hv x h1).1 hx
  · obtain ⟨h1, h2⟩ := h.edge_lt _ _ _ hx
    exact (hc.2 v h2 hv x h1).2 hx

end ConsGraph

/-! ## a sample -/

/-- an object and its only field -/
def sampleMem : MemModel Bool Unit where
  indexObject o _ := if o then none else some true
  fields := {true}
  mem_fields o gep f h := by
    cases o <;> simp_all

/-- two pointers on a cycle, the first one points to the object, and a `getelementptr` of the second -/
def sampleEdits : List (Edit Bool Unit) :=
  [.addCGNode (.objNode false), .addCGNode (.ptrNode none), .addCGNode (.ptrNode none),
    .addCGNode (.ptrNode (some ())), .addConstraints 0 2 .addrOf, .addConstraints 2 3 .copy,
    .addConstraints 3 2 .copy, .addConstraints 3 4 .offset]

def sampleCore : Core Bool Unit := sampleEdits.foldl Edit.apply {}

theorem sampleCore_built : sampleCore.Built := Core.Built.empty.foldl (by decide)

theorem sampleCore_wellFormed : sampleCore.graph.WellFormed :=
  ConsGraph.wellFormed_of_checks sampleCore_built.fresh.inv (by decide)

end AserPTA
