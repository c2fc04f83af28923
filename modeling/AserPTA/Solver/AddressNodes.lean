import AserPTA.Solver.Tracks

/-!
# Address nodes

`addCGNode` makes two nodes for an object, and returns the first.  The second holds the address of
the object and is only found by its id, which is one more.

* `Typed`                 the convention, and the type of what points-to sets hold;
* `Typed.addCGNode`, `Typed.insertEdge`, `Typed.step`
                          nodes and edges may be added, and a solver may take a step;
* `Reached`               what builder, memory models and solvers make, in any order;
* `Reached.addressNodes`  there the convention holds.
-/

namespace AserPTA

open Relation

variable {Obj Val : Type}

namespace Core

open ConsGraph

/-- An address node is fed by nothing, is not merged and holds its object; what is pointed to are
objects. -/
structure Typed (c : Core Obj Val) : Prop where
  inv : c.graph.Inv
  addrNodes : c.graph.AddrNodes
  addr_copy : ∀ v, c.graph.IsAddr v → ∀ u, v ∉ c.graph.succ .copy u
  addr_load : ∀ v, c.graph.IsAddr v → ∀ u, v ∉ c.graph.succ .load u
  addr_fixed : ∀ n, c.graph.IsAddr n → c.graph.superOf n = none ∧ ∀ m, c.graph.superOf m ≠ some n
  pts_lt : ∀ n, ∀ x ∈ c.pts n, n < c.graph.nodeNum
  pts_obj : ∀ n, ∀ x ∈ c.pts n, x < c.graph.nodeNum ∧ ∃ o, c.graph.kind x = .objNode o
  pts_addr : ∀ m o, m < c.graph.nodeNum → c.graph.kind m = .objNode o → c.pts (m + 1) = {m}
  handled_lt : ∀ d, ∀ x ∈ c.handledGEPMap d, d < c.graph.nodeNum ∧ x < c.graph.nodeNum

variable {c c' : Core Obj Val}

namespace Typed

theorem empty : ({} : Core Obj Val).Typed := by
  have hlt : ∀ n, ¬ n < ({} : ConsGraph Obj Val).nodeNum := Nat.not_lt_zero
  have haddr : ∀ n, ¬ ({} : ConsGraph Obj Val).IsAddr n := fun n ⟨m, _, _, hm, _⟩ => hlt m hm
  exact ⟨.empty, fun n o _ hn => absurd hn (hlt n), fun v h => absurd h (haddr v),
    fun v h => absurd h (haddr v), fun v h => absurd h (haddr v), fun _ x hx => (by cases hx),
    fun _ x hx => (by cases hx), fun m o hm => absurd hm (hlt m), fun _ x hx => (by cases hx)⟩

theorem sane (h : c.Typed) : c.Sane :=
  ⟨h.inv, h.addrNodes, fun n x hx => (h.pts_obj n x hx).1, h.handled_lt⟩

theorem kind_of_isAddr (h : c.Typed) {n : NodeID} (hn : c.graph.IsAddr n) :
    c.graph.kind n = .ptrNode none ∧ n < c.graph.nodeNum := by
  obtain ⟨m, o, rfl, hm, ho⟩ := hn
  have := h.addrNodes m o ho hm
  exact ⟨this.2, this.1⟩

/-- the node of an object or of a pointer is no address node -/
theorem not_addr_of_kind (h : c.Typed) {n : NodeID} (hk : c.graph.kind n ≠ .ptrNode none) :
    ¬ c.graph.IsAddr n := fun ha => hk (h.kind_of_isAddr ha).1

/-- no node is merged into an address node -/
theorem isAddr_of_rep (h : c.Typed) {n : NodeID} (hn : c.graph.IsAddr (c.graph.getSuperNode n)) :
    c.graph.IsAddr n := by
  rcases ReflTransGen.cases_tail (h.inv.root n).1 with he | ⟨m, -, hm⟩
  · rwa [he] at hn
  · exact absurd hm ((h.addr_fixed _ hn).2 m)

theorem not_addr_of_reach (h : c.Typed) {u v : NodeID} (hr : c.graph.CopyReach u v) (hne : u ≠ v) :
    ¬ c.graph.IsAddr v := by
  obtain ⟨x, hx, -⟩ := hr.last hne
  exact fun ha => h.addr_copy v ha x hx

/-- only the points-to sets change -/
theorem of_pts (h : c.Typed) (hg : c'.graph = c.graph) (hh : c'.handledGEPMap = c.handledGEPMap)
    (hobj : ∀ n, ∀ x ∈ c'.pts n, n < c.graph.nodeNum ∧ x < c.graph.nodeNum ∧
      ∃ o, c.graph.kind x = .objNode o)
    (haddr : ∀ n, c.graph.IsAddr n → c'.pts n = c.pts n) : c'.Typed := by
  refine ⟨hg ▸ h.inv, hg ▸ h.addrNodes, hg ▸ h.addr_copy, hg ▸ h.addr_load, hg ▸ h.addr_fixed,
    ?_, ?_, ?_, ?_⟩
  · rw [hg]
    exact fun n x hx => (hobj n x hx).1
  · rw [hg]
    exact fun n x hx => (hobj n x hx).2
  · rw [hg]
    intro m o hm ho
    rw [haddr _ (Shape.isAddr_succ hm ho)]
    exact h.pts_addr m o hm ho
  · rw [hg, hh]
    exact h.handled_lt

theorem union (h : c.Typed) {v : NodeID} {new : Finset NodeID}
    (hnew : ∀ x ∈ new, ∃ u, x ∈ c.pts u ∧ c.graph.CopyReach u v) : (c.unionPts v new).1.Typed := by
  by_cases hsub : new ⊆ c.pts v
  · rw [unionPts_of_subset hsub]
    exact h
  · obtain ⟨y, hy, hyv⟩ := Finset.not_subset.mp hsub
    obtain ⟨u, hyu, hr⟩ := hnew y hy
    have huv : u ≠ v := fun e => hyv (e ▸ hyu)
    obtain ⟨x, hx, -⟩ := hr.last huv
    refine h.of_pts (graph_unionPts ..) (handledGEPMap_unionPts ..) (fun n y hy => ?_) fun n hn => ?_
    · rw [pts_unionPts] at hy
      split at hy
      · rename_i hnv
        rcases Finset.mem_union.mp hy with hy | hy
        · exact ⟨h.pts_lt n y hy, h.pts_obj n y hy⟩
        · obtain ⟨u, hyu, -⟩ := hnew y hy
          exact ⟨hnv ▸ (h.inv.edge_lt _ _ _ hx).2, h.pts_obj u y hyu⟩
      · exact ⟨h.pts_lt n y hy, h.pts_obj n y hy⟩
    · rw [pts_unionPts, if_neg]
      rintro rfl
      exact h.not_addr_of_reach hr huv hn

/-- the points-to set of one node that is no address node is written -/
theorem setPts (h : c.Typed) {n : NodeID} {new : Finset NodeID} (hn : ¬ c.graph.IsAddr n)
    (hnew : ∀ x ∈ new, n < c.graph.nodeNum ∧ x < c.graph.nodeNum ∧
      ∃ o, c.graph.kind x = .objNode o) : (c.setPts n new).Typed := by
  refine h.of_pts rfl rfl (fun m y hy => ?_) fun m hm => ?_
  · rw [pts_setPts] at hy
    split at hy
    · rename_i hmn
      exact hmn ▸ hnew y hy
    · exact ⟨h.pts_lt m y hy, h.pts_obj m y hy⟩
  · rw [pts_setPts, if_neg]
    rintro rfl
    exact hn hm

/-- a new edge; one that feeds its target does not go to an address node -/
theorem insertEdge (h : c.Typed) {a b : NodeID} {k : Constraints} (ha : a < c.graph.nodeNum)
    (hb : b < c.graph.nodeNum) (hok : k = .copy ∨ k = .load → ¬ c.graph.IsAddr b) :
    ({ c with graph := (c.graph.insertConstraint a b k).1 } : Core Obj Val).Typed := by
  have hs := insertConstraint_sameNodes (g := c.graph) a b k
  have hsucc := mem_succ_insertConstraint (g := c.graph) a b k
  have haddr := isAddr_iff hs.nodeNum hs.kind
  refine ⟨h.inv.insertConstraint ha hb k, h.addrNodes.of_eq hs.nodeNum hs.kind, ?_, ?_, ?_,
    ?_, ?_, ?_, ?_⟩
  · intro v hv u hu
    rw [haddr] at hv
    rcases (hsucc .copy u v).mp hu with hu | ⟨hk, -, rfl, -⟩
    · exact h.addr_copy v hv u hu
    · exact hok (.inl hk.symm) (h.isAddr_of_rep hv)
  · intro v hv u hu
    rw [haddr] at hv
    rcases (hsucc .load u v).mp hu with hu | ⟨hk, -, rfl, -⟩
    · exact h.addr_load v hv u hu
    · exact hok (.inr hk.symm) (h.isAddr_of_rep hv)
  · intro n hn
    simp only [hs.superOf]
    exact h.addr_fixed n ((haddr n).mp hn)
  · intro n x hx
    rw [hs.nodeNum]
    exact h.pts_lt n x hx
  · intro n x hx
    rw [hs.nodeNum]
    simp only [hs.kind]
    exact h.pts_obj n x hx
  · intro m o
    rw [hs.nodeNum, hs.kind]
    exact h.pts_addr m o
  · intro d x hx
    rw [hs.nodeNum]
    exact h.handled_lt d x hx

/-- nodes that reach each other are no address nodes, so collapsing them concerns none -/
theorem collapse (h : c.Typed) (w : Walk) {scc : List NodeID} {s : NodeID} (hnd : scc.Nodup)
    (hs : s ∈ scc) (hlen : 1 < scc.length)
    (hr : ∀ u ∈ scc, ∀ v ∈ scc, c.graph.CopyReach u v) : (c.collapse w scc s).Typed := by
  have hfix : ∀ u ∈ scc, ¬ c.graph.IsAddr u := by
    intro u hu
    obtain ⟨v, hv, hne⟩ := exists_other hnd hlen u
    exact h.not_addr_of_reach (hr v hv u hu) hne.symm
  obtain ⟨hinv, hcol⟩ := h.inv.collapse_scc w hnd hs hlen hr
  have haddr := isAddr_iff hcol.nodeNum hcol.kind
  -- an edge into an address node was there before
  have hto : ∀ k u v, c.graph.IsAddr v → v ∈ (c.graph.collapseSCCTo w scc s).succ k u →
      ∃ a, v ∈ c.graph.succ k a := by
    intro k u v hv huv
    obtain ⟨a, b, hab, -, hb⟩ := ((hcol.succ k u v).mp huv).1
    by_cases hbs : b ∈ scc
    · rw [target_of_mem s hbs] at hb
      exact absurd hv (hfix v (hb ▸ hs))
    · rw [target_of_notMem s hbs] at hb
      exact ⟨a, hb ▸ hab⟩
  refine ⟨by simpa using hinv, by simpa using h.addrNodes.of_eq hcol.nodeNum hcol.kind, ?_, ?_, ?_,
    ?_, ?_, ?_, ?_⟩ <;> simp only [graph_collapse, pts_collapse, handledGEPMap_collapse]
  · intro v hv u hu
    rw [haddr] at hv
    obtain ⟨a, ha⟩ := hto .copy u v hv hu
    exact h.addr_copy v hv a ha
  · intro v hv u hu
    rw [haddr] at hv
    obtain ⟨a, ha⟩ := hto .load u v hv hu
    exact h.addr_load v hv a ha
  · intro n hn
    rw [haddr] at hn
    obtain ⟨h1, h2⟩ := h.addr_fixed n hn
    refine ⟨?_, fun m => ?_⟩
    · rw [hcol.superOf, if_neg fun h3 => hfix n h3.1 hn]
      exact h1
    · rw [hcol.superOf]
      split
      · intro hm
        exact hfix n (Option.some.inj hm ▸ hs) hn
      · exact h2 m
  · intro n x hx
    rw [hcol.nodeNum]
    exact h.pts_lt n x hx
  · intro n x hx
    rw [hcol.nodeNum]
    simp only [hcol.kind]
    exact h.pts_obj n x hx
  · intro m o
    rw [hcol.nodeNum, hcol.kind]
    exact h.pts_addr m o
  · intro d x hx
    rw [hcol.nodeNum]
    exact h.handled_lt d x hx

theorem nodeAdded (h : c.Typed) (kind : NodeKind Obj Val) :
    NodeAdded c.graph (c.addCGNode kind).graph kind := (h.inv.addCGNode kind).2

theorem isAddr_addCGNode (h : c.Typed) (kind : NodeKind Obj Val) {n : NodeID}
    (hn : (c.addCGNode kind).graph.IsAddr n) :
    c.graph.IsAddr n ∨ n = c.graph.nodeNum + 1 := by
  have hadd := h.nodeAdded kind
  obtain ⟨m, o, rfl, hm, ho⟩ := hn
  rcases lt_trichotomy m c.graph.nodeNum with hlt | rfl | hlt
  · exact .inl ⟨m, o, rfl, hlt, (hadd.kind_old m hlt).symm.trans ho⟩
  · exact .inr rfl
  · rw [hadd.kind_addr m hlt hm] at ho
    cases ho

theorem addCGNode (h : c.Typed) (kind : NodeKind Obj Val) : (c.addCGNode kind).Typed := by
  have hadd := h.nodeAdded kind
  have hfresh : ∀ k u, c.graph.nodeNum + 1 ∉ c.graph.succ k u := fun k u hu =>
    absurd (h.inv.edge_lt k u _ hu).2 (Nat.not_lt_of_le (Nat.le_succ _))
  refine ⟨(h.inv.addCGNode kind).1, h.addrNodes.addCGNode h.inv kind, ?_, ?_, ?_, ?_, ?_, ?_, ?_⟩
  · intro v hv u hu
    rw [hadd.succ .copy (by decide)] at hu
    rcases h.isAddr_addCGNode kind hv with hv | rfl
    · exact h.addr_copy v hv u hu
    · exact hfresh _ u hu
  · intro v hv u hu
    rw [hadd.succ .load (by decide)] at hu
    rcases h.isAddr_addCGNode kind hv with hv | rfl
    · exact h.addr_load v hv u hu
    · exact hfresh _ u hu
  · intro n hn
    rw [hadd.superOf]
    rcases h.isAddr_addCGNode kind hn with hn | rfl
    · exact h.addr_fixed n hn
    · refine ⟨?_, fun m hm => ?_⟩
      · cases hs : c.graph.superOf (c.graph.nodeNum + 1) with
        | none => rfl
        | some s => exact absurd (h.inv.sup_lt _ _ hs).1 (Nat.not_lt_of_le (Nat.le_succ _))
      · exact absurd (h.inv.sup_lt _ _ hm).2 (Nat.not_lt_of_le (Nat.le_succ _))
  · intro n x hx
    rcases Shape.mem_pts_addCGNode hx with hx | ⟨rfl, -, o, rfl⟩
    · exact (h.pts_lt n x hx).trans hadd.lt
    · exact lt_of_lt_of_eq (Nat.lt_succ_self _) hadd.nodeNum.symm
  · intro n x hx
    rcases Shape.mem_pts_addCGNode hx with hx | ⟨-, rfl, o, rfl⟩
    · obtain ⟨h1, o, h2⟩ := h.pts_obj n x hx
      exact ⟨h1.trans hadd.lt, o, (hadd.kind_old x h1).trans h2⟩
    · exact ⟨hadd.lt, o, hadd.kind_new⟩
  · intro m o hm ho
    rcases hadd.obj_cases hm ho with ⟨h1, h2⟩ | ⟨rfl, rfl⟩
    · rw [Shape.pts_addCGNode_of_lt (h.addrNodes m o h2 h1).1]
      exact h.pts_addr m o h1 h2
    · exact if_pos rfl
  · intro d x hx
    obtain ⟨h1, h2⟩ := h.handled_lt d x hx
    exact ⟨h1.trans hadd.lt, h2.trans hadd.lt⟩

/-- every step of a solver keeps the convention -/
theorem step [DecidableEq Obj] {M : MemModel Obj Val} {w : Walk} (h : c.Typed)
    (hs : Step M w c c') : c'.Typed := by
  have hgep : ∀ d gep, c.graph.kind d = .ptrNode (some gep) → ¬ c.graph.IsAddr d := fun d gep hd =>
    h.not_addr_of_kind (by rw [hd]; simp)
  cases hs with
  | unionAll v new hnew => exact h.union hnew
  | clear n m hne hnm hmn => exact h.setPts (h.not_addr_of_reach hmn hne.symm) (by simp)
  | collapse scc s hnd hs hlen hr => exact h.collapse w hnd hs hlen hr
  | load x u v hx huv =>
    refine h.insertEdge (h.inv.getSuperNode_lt (h.pts_obj u x hx).1) (h.inv.edge_lt _ _ _ huv).2
      fun _ ha => h.addr_load v ha u huv
  | store x u v hx huv =>
    obtain ⟨hlt, o, ho⟩ := h.pts_obj v x hx
    refine h.insertEdge (h.inv.edge_lt _ _ _ huv).1 (h.inv.getSuperNode_lt hlt) fun _ ha => ?_
    exact h.not_addr_of_kind (by rw [ho]; simp) (h.isAddr_of_rep ha)
  | handled u d new hd hnew =>
    refine { h with handled_lt := fun e x hx => ?_ }
    dsimp only at hx
    split at hx
    · rename_i he
      refine (Finset.mem_union.mp hx).elim (h.handled_lt e x) fun hx => ?_
      exact ⟨he ▸ (h.inv.edge_lt _ _ _ hd).2, (h.pts_obj u x (hnew hx)).1⟩
    · exact h.handled_lt e x hx
  | field d x o f gep hx ho hd hf hnone => exact h.addCGNode _
  | addrOf d x i o f gep hx ho hd hf hi hif =>
    exact h.insertEdge (h.kind_of_isAddr (Shape.isAddr_succ hi hif)).2 (h.handled_lt d x hx).1
      fun _ => hgep d gep hd
  | insert d x i o f gep hx ho hd hf hi hif =>
    refine h.setPts (hgep d gep hd) fun y hy => ?_
    rcases Finset.mem_insert.mp hy with rfl | hy
    · exact ⟨(h.handled_lt d x hx).1, hi, f, hif⟩
    · exact ⟨h.pts_lt d y hy, h.pts_obj d y hy⟩

theorem run [DecidableEq Obj] {M : MemModel Obj Val} {w : Walk} (h : c.Typed)
    (hs : Steps M w c c') : c'.Typed := by
  induction hs with
  | refl => exact h
  | tail _ hs ih => exact ih.step hs

/-- the edge that an `addr_of` constraint of a `getelementptr` node stands for -/
theorem succ_of_covers (h : c.Typed) {i d : NodeID} {f : Obj} {gep : Val}
    (hi : i < c.graph.nodeNum) (hif : c.graph.kind i = .objNode f)
    (hd : c.graph.superOf d = none) (hk : c.graph.kind d = .ptrNode (some gep))
    (hcov : c.graph.Covers .copy (i + 1) d) : d ∈ c.graph.succ .copy (i + 1) := by
  have ha := Shape.isAddr_succ hi hif
  rw [Covers, getSuperNode_of_none (h.addr_fixed _ ha).1, getSuperNode_of_none hd] at hcov
  refine hcov.resolve_right fun he => ?_
  rw [← he.2, (h.kind_of_isAddr ha).1] at hk
  cases hk

/-- a step makes no node that was there an address node -/
theorem old_step [DecidableEq Obj] {M : MemModel Obj Val} {w : Walk} (h : c.Typed)
    (hs : Step M w c c') : c.graph.nodeNum ≤ c'.graph.nodeNum ∧
      ∀ n < c.graph.nodeNum, c'.graph.IsAddr n → c.graph.IsAddr n := by
  have hsame : ∀ a b k, c.graph.nodeNum ≤ (c.graph.insertConstraint a b k).1.nodeNum ∧
      ∀ n < c.graph.nodeNum, (c.graph.insertConstraint a b k).1.IsAddr n → c.graph.IsAddr n := by
    intro a b k
    have hs := insertConstraint_sameNodes (g := c.graph) a b k
    exact ⟨hs.nodeNum.ge, fun n _ => (isAddr_iff hs.nodeNum hs.kind n).mp⟩
  cases hs with
  | unionAll v new hnew =>
    rw [graph_unionPts]
    exact ⟨le_rfl, fun _ _ hn => hn⟩
  | collapse scc s hnd hs hlen hr =>
    have hcol := (h.inv.collapse_scc w hnd hs hlen hr).2
    rw [graph_collapse]
    exact ⟨hcol.nodeNum.ge, fun n _ => (isAddr_iff hcol.nodeNum hcol.kind n).mp⟩
  | load x u v _ _ => exact hsame _ _ _
  | store x u v _ _ => exact hsame _ _ _
  | addrOf d x i o f gep _ _ _ _ _ _ => exact hsame _ _ _
  | field d x o f gep _ _ _ _ _ =>
    refine ⟨(h.nodeAdded _).lt.le, fun n hn ha => ?_⟩
    rcases h.isAddr_addCGNode _ ha with ha | rfl
    · exact ha
    · exact absurd hn (Nat.not_lt_of_le (Nat.le_succ _))
  | clear n m _ _ _ => exact ⟨le_rfl, fun _ _ hn => hn⟩
  | handled u d new _ _ => exact ⟨le_rfl, fun _ _ hn => hn⟩
  | insert d x i o f gep _ _ _ _ _ _ => exact ⟨le_rfl, fun _ _ hn => hn⟩

end Typed

/-- The states that builder, memory models and solvers make in any order.  Constraints are added
between nodes of `returned`, which were returned by a call of `addCGNode`, their own or the one of a
solver that makes the node of a field. -/
inductive Reached [DecidableEq Obj] (M : MemModel Obj Val) (w : Walk) :
    Finset NodeID → Core Obj Val → Prop where
  | empty : Reached M w ∅ {}
  | addCGNode {returned c} (kind : NodeKind Obj Val) : Reached M w returned c →
      Reached M w (insert c.graph.nodeNum returned) (c.addCGNode kind)
  | addConstraints {returned c} (src dst : NodeID) (k : Constraints) : Reached M w returned c →
      src ∈ returned → dst ∈ returned → (k = .addrOf → ∃ o, c.graph.kind src = .objNode o) →
      Reached M w returned { c with graph := (c.graph.addConstraints src dst k).1 }
  | step {returned c c'} : Reached M w returned c → Step M w c c' → Reached M w returned c'
  | field {returned c} (f : Obj) : Reached M w returned c →
      Step M w c (c.addCGNode (.objNode f)) →
      Reached M w (insert c.graph.nodeNum returned) (c.addCGNode (.objNode f))

namespace Reached

variable [DecidableEq Obj] {M : MemModel Obj Val} {w : Walk} {returned : Finset NodeID}

omit [DecidableEq Obj] in
/-- the new node of `addCGNode` is returned, and is no address node -/
theorem returned_addCGNode (h : c.Typed)
    (hr : ∀ n ∈ returned, n < c.graph.nodeNum ∧ ¬ c.graph.IsAddr n) (kind : NodeKind Obj Val) :
    ∀ n ∈ insert c.graph.nodeNum returned,
      n < (c.addCGNode kind).graph.nodeNum ∧ ¬ (c.addCGNode kind).graph.IsAddr n := by
  have hadd := h.nodeAdded kind
  intro n hn
  rcases Finset.mem_insert.mp hn with rfl | hn
  · refine ⟨hadd.lt, fun ha => ?_⟩
    rcases h.isAddr_addCGNode kind ha with ⟨m, o, he, hm, ho⟩ | he
    · have := (h.addrNodes m o ho hm).1
      exact absurd he.symm (Nat.ne_of_lt this)
    · exact absurd he (Nat.ne_of_lt (Nat.lt_succ_self _))
  · obtain ⟨h1, h2⟩ := hr n hn
    refine ⟨h1.trans hadd.lt, fun ha => ?_⟩
    rcases h.isAddr_addCGNode kind ha with ha | rfl
    · exact h2 ha
    · exact absurd h1 (Nat.not_lt_of_le (Nat.le_succ _))

theorem typed (h : Reached M w returned c) :
    c.Typed ∧ ∀ n ∈ returned, n < c.graph.nodeNum ∧ ¬ c.graph.IsAddr n := by
  induction h with
  | empty => exact ⟨.empty, fun n hn => (by cases hn)⟩
  | addCGNode kind _ ih => exact ⟨ih.1.addCGNode kind, returned_addCGNode ih.1 ih.2 kind⟩
  | @addConstraints returned c src dst k _ hsrc hdst ho ih =>
    obtain ⟨ht, hr⟩ := ih
    have hs := insertConstraint_sameNodes (g := c.graph) (k.source src) dst k.stored
    have he : (c.graph.addConstraints src dst k).1 =
        (c.graph.insertConstraint (k.source src) dst k.stored).1 := addConstraints_fst ..
    rw [he]
    refine ⟨ht.insertEdge ?_ (hr dst hdst).1 fun _ => (hr dst hdst).2, fun n hn => ?_⟩
    · rw [Constraints.source]
      split
      · obtain ⟨o, ho⟩ := ho ‹_›
        exact (ht.addrNodes src o ho (hr src hsrc).1).1
      · exact (hr src hsrc).1
    · rw [isAddr_iff hs.nodeNum hs.kind, hs.nodeNum]
      exact hr n hn
  | step _ hs ih =>
    obtain ⟨h1, h2⟩ := ih.1.old_step hs
    exact ⟨ih.1.step hs, fun n hn =>
      ⟨(ih.2 n hn).1.trans_le h1, fun ha => (ih.2 n hn).2 (h2 n (ih.2 n hn).1 ha)⟩⟩
  | field f _ hs ih => exact ⟨ih.1.addCGNode _, returned_addCGNode ih.1 ih.2 _⟩

theorem run (h : Reached M w returned c) (hs : Steps M w c c') : Reached M w returned c' := by
  induction hs with
  | refl => exact h
  | tail _ hs ih => exact ih.step hs

/-- The node after an object node is an anonymous pointer node that no copy edge leads to, that is not
merged with any node, and that points to the object only; and everything pointed to is an object
node. -/
theorem addressNodes (h : Reached M w returned c) :
    (∀ i o, i < c.graph.nodeNum → c.graph.kind i = .objNode o →
      i + 1 < c.graph.nodeNum ∧ c.graph.kind (i + 1) = .ptrNode none ∧
      (∀ u, i + 1 ∉ c.graph.succ .copy u) ∧ c.graph.pred .copy (i + 1) = ∅ ∧
      c.graph.superOf (i + 1) = none ∧ (∀ m, c.graph.superOf m ≠ some (i + 1)) ∧
      c.pts (i + 1) = {i}) ∧
    ∀ n, ∀ x ∈ c.pts n, x < c.graph.nodeNum ∧ ∃ o, c.graph.kind x = .objNode o := by
  obtain ⟨ht, -⟩ := h.typed
  refine ⟨fun i o hi ho => ?_, ht.pts_obj⟩
  have ha := Shape.isAddr_succ hi ho
  obtain ⟨h1, h2⟩ := ht.addr_fixed _ ha
  refine ⟨(ht.kind_of_isAddr ha).2, (ht.kind_of_isAddr ha).1, ht.addr_copy _ ha, ?_, h1, h2,
    ht.pts_addr i o hi ho⟩
  exact Finset.eq_empty_of_forall_notMem fun u hu =>
    ht.addr_copy _ ha u ((ht.inv.agree ..).mpr hu)

end Reached

/-- an object and a pointer that gets its address -/
def sampleAddr : Core Bool Unit :=
  [Edit.addCGNode (.objNode false), .addCGNode (.ptrNode none), .addConstraints 0 2 .addrOf].foldl
    Edit.apply {}

theorem reached_sampleAddr : Reached sampleMem .ascending {2, 0} (sampleAddr.unionPts 2 {0}).1 := by
  have h1 : Reached sampleMem .ascending {2, 0} sampleAddr :=
    .addConstraints 0 2 .addrOf (.addCGNode (.ptrNode none) (.addCGNode (.objNode false) .empty))
      (by decide) (by decide) fun _ => ⟨false, rfl⟩
  refine .step h1 (.unionAll 2 {0} fun x hx => ⟨1, ?_, .single ?_⟩)
  · rw [Finset.mem_singleton.mp hx]
    decide
  · decide

theorem addressNodes_sampleAddr :
    (sampleAddr.unionPts 2 {0}).1.pts 2 = {0} ∧ (sampleAddr.unionPts 2 {0}).1.pts 1 = {0} := by
  have h := (Reached.addressNodes reached_sampleAddr).1 0 false (by decide) (by decide)
  exact ⟨by decide, h.2.2.2.2.2.2⟩

end Core

end AserPTA
