import AserPTA.Solver.Step

/-!
# The steps are sound, and lose no constraint

* `Below.step`     a step adds nothing that is not in the solution;
* `Covered.step`   a step keeps every constraint between the representatives of its ends;
* `Closed`         every edge of the graph is satisfied;
* `Shape.exact`    in a closed state that is below the least solution and covers the constraints,
                   the points-to sets are the least solution.
-/

namespace AserPTA

open Relation

variable {Obj Val : Type}

namespace Core

open ConsGraph

variable {c : Core Obj Val} {M : MemModel Obj Val} {P : Name Obj Val → Obj → Prop}
  {G : NodeID → Prop}

theorem name_congr {g g' : ConsGraph Obj Val} (hk : ∀ n, g'.kind n = g.kind n) (n : NodeID) :
    g'.name n = g.name n := by
  have haddr : g'.addrOfObj n = g.addrOfObj n := by
    cases n with
    | zero => rfl
    | succ n => simp only [addrOfObj, hk]
  simp only [name, hk, haddr]

theorem Shape.name_addCGNode (h : c.Shape G) (kind : NodeKind Obj Val) {n : NodeID}
    (hn : n < c.graph.nodeNum) : (c.addCGNode kind).graph.name n = c.graph.name n := by
  have hadd := h.nodeAdded kind
  have haddr : (c.addCGNode kind).graph.addrOfObj n = c.graph.addrOfObj n := by
    cases n with
    | zero => rfl
    | succ n => simp only [addrOfObj, hadd.kind_old n (Nat.lt_of_succ_lt hn)]
  simp only [name, hadd.kind_old n hn, haddr]

namespace Below

/-- along a path of copy edges the solution grows -/
theorem reach (h : c.Below M P) {u v : NodeID} (hr : c.graph.CopyReach u v) (o : Obj)
    (hu : P (c.graph.name u) o) : P (c.graph.name v) o := by
  induction hr with
  | refl => exact hu
  | tail _ hab ih => exact h.copy _ _ hab o ih

/-- a node and its representative have the same solution -/
theorem rep (h : c.Below M P) (hc : c.Shape G) (n : NodeID) (o : Obj) :
    P (c.graph.name (c.graph.getSuperNode n)) o ↔ P (c.graph.name n) o := by
  have hreach : ∀ r, ReflTransGen (Forward.Fwd c.graph.superOf) n r →
      (P (c.graph.name r) o ↔ P (c.graph.name n) o) := by
    intro r hr
    induction hr with
    | refl => exact Iff.rfl
    | tail _ hab ih => exact (h.merged _ _ hab o).symm.trans ih
  exact hreach _ (hc.inv.root n).1

/-- only the points-to sets change -/
theorem of_pts (h : c.Below M P) {c' : Core Obj Val} (hg : c'.graph = c.graph)
    (hh : c'.handledGEPMap = c.handledGEPMap)
    (hpts : ∀ n, ∀ x ∈ c'.pts n, ∀ o, c.graph.kind x = .objNode o → P (c.graph.name n) o) :
    c'.Below M P := by
  refine ⟨hg ▸ hpts, hg ▸ h.merged, hg ▸ h.copy, hg ▸ h.load, hg ▸ h.store, hg ▸ h.offset, ?_⟩
  rw [hg, hh]
  exact h.handled

theorem unionPts (h : c.Below M P) {v : NodeID} {new : Finset NodeID}
    (hnew : ∀ x ∈ new, ∀ o, c.graph.kind x = .objNode o → P (c.graph.name v) o) :
    (c.unionPts v new).1.Below M P := by
  refine h.of_pts (graph_unionPts ..) (handledGEPMap_unionPts ..) fun n x hx o ho => ?_
  rw [pts_unionPts] at hx
  split at hx
  · rename_i hnv
    rcases Finset.mem_union.mp hx with hx | hx
    · exact h.pts n x hx o ho
    · exact hnv ▸ hnew x hx o ho
  · exact h.pts n x hx o ho

theorem insertEdge (h : c.Below M P) {a b : NodeID} {k : Constraints}
    (hab : Meets M P (c.graph.name (c.graph.getSuperNode a))
      (c.graph.name (c.graph.getSuperNode b)) k) :
    ({ c with graph := (c.graph.insertConstraint a b k).1 } : Core Obj Val).Below M P := by
  have hs := insertConstraint_sameNodes (g := c.graph) a b k
  have hsucc := mem_succ_insertConstraint (g := c.graph) a b k
  have hname := name_congr (g := c.graph) hs.kind
  refine ⟨fun n x hx o ho => ?_, fun n m hm o => ?_, fun u v huv => ?_, fun u v huv => ?_,
    fun u v huv => ?_, fun u v huv => ?_, fun d x hx o f ho hf => ?_⟩
  · rw [hname]
    exact h.pts n x hx o (by rwa [← hs.kind])
  · rw [hname, hname]
    exact h.merged n m (by rwa [← hs.superOf]) o
  · rw [hname, hname]
    rcases (hsucc .copy u v).mp huv with huv | ⟨rfl, rfl, rfl, -⟩
    · exact h.copy u v huv
    · exact hab
  · rw [hname, hname]
    rcases (hsucc .load u v).mp huv with huv | ⟨rfl, rfl, rfl, -⟩
    · exact h.load u v huv
    · exact hab
  · rw [hname, hname]
    rcases (hsucc .store u v).mp huv with huv | ⟨rfl, rfl, rfl, -⟩
    · exact h.store u v huv
    · exact hab
  · rw [hname, hname]
    rcases (hsucc .offset u v).mp huv with huv | ⟨rfl, rfl, rfl, -⟩
    · exact h.offset u v huv
    · exact hab
  · rw [hname] at hf ⊢
    exact h.handled d x hx o f (by rwa [← hs.kind]) hf

theorem collapse (h : c.Below M P) (hc : c.Shape G) (w : Walk) {scc : List NodeID} {s : NodeID}
    (hnd : scc.Nodup) (hs : s ∈ scc) (hlen : 1 < scc.length)
    (hr : ∀ u ∈ scc, ∀ v ∈ scc, c.graph.CopyReach u v) : (c.collapse w scc s).Below M P := by
  obtain ⟨-, hcol⟩ := hc.inv.collapse_scc w hnd hs hlen hr
  have hname := name_congr (g := c.graph) hcol.kind
  have hmem : ∀ n ∈ scc, ∀ o, P (c.graph.name s) o ↔ P (c.graph.name n) o := fun n hn o =>
    ⟨h.reach (hr s hs n hn) o, h.reach (hr n hn s hs) o⟩
  have htgt : ∀ n o, P (c.graph.name (target scc s n)) o ↔ P (c.graph.name n) o := by
    intro n o
    by_cases hn : n ∈ scc
    · rw [target_of_mem s hn]
      exact hmem n hn o
    · rw [target_of_notMem s hn]
  refine ⟨fun n x hx o ho => ?_, fun n m hm o => ?_, fun u v huv o hu => ?_,
    fun u v huv p o hp ho => ?_, fun u v huv p o hp ho => ?_, fun u v huv o f ho hf => ?_,
    fun d x hx o f ho hf => ?_⟩ <;>
    simp only [graph_collapse, pts_collapse, handledGEPMap_collapse, hname, hcol.kind] at *
  · exact h.pts n x hx o ho
  · rw [hcol.superOf] at hm
    split at hm
    · rename_i hn
      rw [← Option.some.inj hm]
      exact (hmem n hn.1 o).symm
    · exact h.merged n m hm o
  · obtain ⟨⟨a, b, hab, rfl, rfl⟩, -⟩ := (hcol.succ _ _ _).mp huv
    rw [htgt] at hu ⊢
    exact h.copy a b hab o hu
  · obtain ⟨⟨a, b, hab, rfl, rfl⟩, -⟩ := (hcol.succ _ _ _).mp huv
    rw [htgt] at hp ⊢
    exact h.load a b hab p o hp ho
  · obtain ⟨⟨a, b, hab, rfl, rfl⟩, -⟩ := (hcol.succ _ _ _).mp huv
    rw [htgt] at hp ho
    exact h.store a b hab p o hp ho
  · obtain ⟨⟨a, b, hab, rfl, rfl⟩, -⟩ := (hcol.succ _ _ _).mp huv
    have hb : b ∉ scc := fun hb =>
      (hc.scc_not_fixed hnd hlen hr hb).2 (hc.wf.gep_target a b hab)
    rw [target_of_notMem s hb] at hf ⊢
    rw [htgt] at ho
    exact h.offset a b hab o f ho hf
  · exact h.handled d x hx o f ho hf

/-- a new node; the address node of a new object holds that object -/
theorem addCGNode (h : c.Below M P) (hc : c.Shape G) (hP : ∀ o o', P (.addr o) o' ↔ o' = o)
    (kind : NodeKind Obj Val) : (c.addCGNode kind).Below M P := by
  have hadd := hc.nodeAdded kind
  have hcopy := hadd.succ .copy (by decide)
  have hload := hadd.succ .load (by decide)
  have hstore := hadd.succ .store (by decide)
  have hoff := hadd.succ .offset (by decide)
  have hname : ∀ k u v, v ∈ c.graph.succ k u →
      (c.addCGNode kind).graph.name u = c.graph.name u ∧
        (c.addCGNode kind).graph.name v = c.graph.name v := fun k u v huv =>
    ⟨hc.name_addCGNode kind (hc.inv.edge_lt k u v huv).1,
      hc.name_addCGNode kind (hc.inv.edge_lt k u v huv).2⟩
  refine ⟨fun n x hx o ho => ?_, fun n m hm o => ?_, fun u v huv => ?_, fun u v huv => ?_,
    fun u v huv => ?_, fun u v huv => ?_, fun d x hx o f ho hf => ?_⟩
  · rcases Shape.mem_pts_addCGNode hx with hx | ⟨rfl, rfl, o', rfl⟩
    · rw [hc.name_addCGNode kind (hc.pts_lt n x hx)]
      exact h.pts n x hx o ((hadd.kind_old x (hc.pts_obj n x hx).1).symm.trans ho)
    · obtain rfl : o' = o := NodeKind.objNode.inj (hadd.kind_new.symm.trans ho)
      have hn : (c.addCGNode (.objNode o')).graph.name (c.graph.nodeNum + 1) = .addr o' :=
        ConsGraph.name_addr (hc.addrNodes.addCGNode hc.inv _) hadd.lt hadd.kind_new
      rw [hn]
      exact (hP o' o').mpr rfl
  · rw [hadd.superOf] at hm
    have hlt := hc.inv.sup_lt n m hm
    rw [hc.name_addCGNode kind hlt.1, hc.name_addCGNode kind hlt.2]
    exact h.merged n m hm o
  · rw [hcopy] at huv
    rw [(hname _ u v huv).1, (hname _ u v huv).2]
    exact h.copy u v huv
  · rw [hload] at huv
    rw [(hname _ u v huv).1, (hname _ u v huv).2]
    exact h.load u v huv
  · rw [hstore] at huv
    rw [(hname _ u v huv).1, (hname _ u v huv).2]
    exact h.store u v huv
  · rw [hoff] at huv
    rw [(hname _ u v huv).1, (hname _ u v huv).2]
    exact h.offset u v huv
  · rw [hc.name_addCGNode kind (hc.wf.gep_kind d (hc.handled_gep d x hx)).1] at hf ⊢
    exact h.handled d x hx o f ((hadd.kind_old x (hc.handled_lt d x hx)).symm.trans ho) hf

/-- nothing is added that is not in the solution -/
theorem step [DecidableEq Obj] {w : Walk} {c' : Core Obj Val} (h : c.Below M P) (hc : c.Shape G)
    (hP : ∀ o o', P (.addr o) o' ↔ o' = o) (hs : Step M w c c') : c'.Below M P := by
  -- what a handled object gives is in the solution of the `getelementptr` node
  have hgep : ∀ d x o f gep, x ∈ c.handledGEPMap d → c.graph.kind x = .objNode o →
      c.graph.kind d = .ptrNode (some gep) → M.indexObject o gep = some f →
      P (c.graph.name d) f := by
    intro d x o f gep hx ho hd hf
    refine h.handled d x hx o f ho ?_
    rwa [index_name M hc.addrNodes (hc.wf.gep_kind d (hc.handled_gep d x hx)).1 hd]
  cases hs with
  | unionAll v new hnew =>
    refine h.unionPts fun x hx o ho => ?_
    obtain ⟨u, hxu, hr⟩ := hnew x hx
    exact h.reach hr o (h.pts u x hxu o ho)
  | clear n m hne hnm hmn =>
    refine h.of_pts rfl rfl fun y x hx o ho => ?_
    rw [pts_setPts] at hx
    split at hx
    · cases hx
    · exact h.pts y x hx o ho
  | collapse scc s hnd hs hlen hr => exact h.collapse hc w hnd hs hlen hr
  | load x u v hx huv =>
    obtain ⟨-, p, hp⟩ := hc.pts_obj u x hx
    refine h.insertEdge (k := .copy) fun o ho => ?_
    have hrep := getSuperNode_of_none (hc.inv.superOf_getSuperNode x)
    rw [hrep, h.rep hc, name_obj hp] at ho
    rw [h.rep hc]
    exact h.load u v huv p o (h.pts u x hx p hp) ho
  | store x u v hx huv =>
    obtain ⟨-, p, hp⟩ := hc.pts_obj v x hx
    refine h.insertEdge (k := .copy) fun o ho => ?_
    have hrep := getSuperNode_of_none (hc.inv.superOf_getSuperNode x)
    rw [h.rep hc] at ho
    rw [hrep, h.rep hc, name_obj hp]
    exact h.store u v huv p o (h.pts v x hx p hp) ho
  | handled u d new hd hnew =>
    refine { h with handled := fun e x hx o f ho hf => ?_ }
    dsimp only at hx
    split at hx
    · rename_i he
      rcases Finset.mem_union.mp hx with hx | hx
      · exact h.handled e x hx o f ho hf
      · exact h.offset u e (he ▸ hd) o f (h.pts u x (hnew hx) o ho) hf
    · exact h.handled e x hx o f ho hf
  | field d x o f gep hx ho hd hf hnone => exact h.addCGNode hc hP _
  | addrOf d x i o f gep hx ho hd hf hi hif =>
    refine h.insertEdge (k := .copy) fun o' ho' => ?_
    have haddr := Shape.isAddr_succ hi hif
    rw [getSuperNode_of_none (hc.addr_fixed _ haddr).1] at ho'
    rw [name_addr hc.addrNodes hi hif, hP] at ho'
    rw [h.rep hc, ho']
    exact hgep d x o f gep hx ho hd hf
  | insert d x i o f gep hx ho hd hf hi hif =>
    refine h.of_pts rfl rfl fun n y hy o' ho' => ?_
    rw [pts_setPts] at hy
    split at hy
    · rename_i hn
      subst hn
      rcases Finset.mem_insert.mp hy with rfl | hy
      · rw [hif] at ho'
        obtain rfl := NodeKind.objNode.inj ho'
        exact hgep n x o f gep hx ho hd hf
      · exact h.pts n y hy o' ho'
    · exact h.pts n y hy o' ho'

end Below

/-! ## no constraint is lost -/

section covered
variable {g g' : ConsGraph Obj Val} {C : Cons Obj Val}

theorem covers_of_sameNodes (hs : SameNodes g g')
    (hsub : ∀ k u v, v ∈ g.succ k u → v ∈ g'.succ k u) {k : Constraints} {u v : NodeID}
    (h : g.Covers k u v) : g'.Covers k u v := by
  rw [Covers, hs.getSuperNode, hs.getSuperNode]
  exact h.imp_left (hsub k _ _)

theorem covers_insertConstraint {a b : NodeID} {k k' : Constraints} {u v : NodeID}
    (h : g.Covers k' u v) : (g.insertConstraint a b k).1.Covers k' u v :=
  covers_of_sameNodes (insertConstraint_sameNodes a b k)
    (fun _ _ _ huv => (mem_succ_insertConstraint ..).mpr (.inl huv)) h

/-- the inserted constraint is there -/
theorem covers_insertConstraint_self (a b : NodeID) (k : Constraints) :
    (g.insertConstraint a b k).1.Covers k a b := by
  have hs := insertConstraint_sameNodes (g := g) a b k
  rw [Covers, hs.getSuperNode, hs.getSuperNode]
  by_cases he : g.getSuperNode a = g.getSuperNode b ∧ k = .copy
  · exact .inr ⟨he.2, he.1⟩
  · exact .inl ((mem_succ_insertConstraint ..).mpr (.inr ⟨rfl, rfl, rfl, he⟩))

theorem covers_collapse {scc : List NodeID} {s : NodeID} (hcol : Collapsed g g' scc s)
    {k : Constraints} {u v : NodeID} (h : g.Covers k u v) : g'.Covers k u v := by
  rw [Covers, hcol.getSuperNode, hcol.getSuperNode]
  rcases h with h | ⟨hk, he⟩
  · by_cases hloop : target scc s (g.getSuperNode u) = target scc s (g.getSuperNode v) ∧ k = .copy
    · exact .inr ⟨hloop.2, hloop.1⟩
    · exact .inl ((hcol.succ _ _ _).mpr ⟨⟨_, _, h, rfl, rfl⟩, hloop⟩)
  · exact .inr ⟨hk, by rw [he]⟩

theorem covers_nodeAdded {kind : NodeKind Obj Val} (hadd : NodeAdded g g' kind) {k : Constraints}
    (hk : k ≠ .addrOf) {u v : NodeID} (h : g.Covers k u v) : g'.Covers k u v := by
  rw [Covers, hadd.getSuperNode, hadd.getSuperNode, hadd.succ k hk]
  exact h

/-- the same names and at least the same constraints -/
theorem Covered.of_covers (h : g.Covered C) (hlt : g.nodeNum ≤ g'.nodeNum)
    (hname : ∀ n < g.nodeNum, g'.name n = g.name n)
    (hcov : ∀ k u v, k ≠ .addrOf → g.Covers k u v → g'.Covers k u v) : g'.Covered C := by
  intro k a b hk hC
  obtain ⟨u, v, hu, hv, rfl, rfl, huv⟩ := h k a b hk hC
  exact ⟨u, v, hu.trans_le hlt, hv.trans_le hlt, hname u hu, hname v hv, hcov k u v hk huv⟩

end covered

variable {C : Cons Obj Val}

/-- a step keeps the constraints between the nodes that are there -/
theorem Shape.covers_step [DecidableEq Obj] {w : Walk} {c' : Core Obj Val} (hc : c.Shape G)
    (hs : Step M w c c') {k : Constraints} (hk : k ≠ .addrOf) {u v : NodeID}
    (h : c.graph.Covers k u v) : c'.graph.Covers k u v := by
  cases hs with
  | unionAll v new _ => rwa [graph_unionPts]
  | clear n m _ _ _ => exact h
  | collapse scc s hnd hs hlen hr =>
    rw [graph_collapse]
    exact covers_collapse (hc.inv.collapse_scc w hnd hs hlen hr).2 h
  | load x u v _ _ => exact covers_insertConstraint h
  | store x u v _ _ => exact covers_insertConstraint h
  | handled u d new _ _ => exact h
  | field d x o f gep _ _ _ _ _ => exact covers_nodeAdded (hc.nodeAdded _) hk h
  | addrOf d x i o f gep _ _ _ _ _ _ => exact covers_insertConstraint h
  | insert d x i o f gep _ _ _ _ _ _ => exact h

theorem Shape.name_step [DecidableEq Obj] {w : Walk} {c' : Core Obj Val} (hc : c.Shape G)
    (hs : Step M w c c') : c.graph.nodeNum ≤ c'.graph.nodeNum ∧
      ∀ n < c.graph.nodeNum, c'.graph.name n = c.graph.name n ∧ c'.graph.kind n = c.graph.kind n := by
  have hsame : ∀ a b k, c.graph.nodeNum ≤ (c.graph.insertConstraint a b k).1.nodeNum ∧
      ∀ n < c.graph.nodeNum, (c.graph.insertConstraint a b k).1.name n = c.graph.name n ∧
        (c.graph.insertConstraint a b k).1.kind n = c.graph.kind n := by
    intro a b k
    have h1 := insertConstraint_sameNodes (g := c.graph) a b k
    exact ⟨h1.nodeNum.ge, fun n _ => ⟨name_congr h1.kind n, h1.kind n⟩⟩
  cases hs with
  | unionAll v new _ =>
    rw [graph_unionPts]
    exact ⟨le_rfl, fun _ _ => ⟨rfl, rfl⟩⟩
  | clear n m _ _ _ => exact ⟨le_rfl, fun _ _ => ⟨rfl, rfl⟩⟩
  | collapse scc s hnd hs hlen hr =>
    have hcol := (hc.inv.collapse_scc w hnd hs hlen hr).2
    rw [graph_collapse]
    exact ⟨hcol.nodeNum.ge, fun n _ => ⟨name_congr hcol.kind n, hcol.kind n⟩⟩
  | load x u v _ _ => exact hsame ..
  | store x u v _ _ => exact hsame ..
  | handled u d new _ _ => exact ⟨le_rfl, fun _ _ => ⟨rfl, rfl⟩⟩
  | field d x o f gep _ _ _ _ _ =>
    have hadd := hc.nodeAdded (.objNode f)
    exact ⟨hadd.lt.le, fun n hn => ⟨hc.name_addCGNode _ hn, hadd.kind_old n hn⟩⟩
  | addrOf d x i o f gep _ _ _ _ _ _ => exact hsame ..
  | insert d x i o f gep _ _ _ _ _ _ => exact ⟨le_rfl, fun _ _ => ⟨rfl, rfl⟩⟩

/-- no constraint is lost -/
theorem Shape.covered_step [DecidableEq Obj] {w : Walk} {c' : Core Obj Val} (hc : c.Shape G)
    (h : c.graph.Covered C) (hs : Step M w c c') : c'.graph.Covered C := by
  obtain ⟨hle, hname⟩ := hc.name_step hs
  exact Covered.of_covers h hle (fun n hn => (hname n hn).1) fun _ _ _ hk => hc.covers_step hs hk

/-! ## closed states -/

/-- the object that `d` takes of the object `x`, if any, is known to `d` or on its way to it -/
def Indexed (M : MemModel Obj Val) (c : Core Obj Val) (d x : NodeID) : Prop :=
  ∀ o gep f, c.graph.kind x = .objNode o → c.graph.kind d = .ptrNode (some gep) →
    M.indexObject o gep = some f →
    ∃ i, i < c.graph.nodeNum ∧ c.graph.kind i = .objNode f ∧
      (i ∈ c.pts d ∨ d ∈ c.graph.succ .copy (i + 1))

theorem Shape.indexed_step [DecidableEq Obj] {w : Walk} {c' : Core Obj Val} (hc : c.Shape G)
    (hs : Step M w c c') {d x : NodeID} (hd : G d) (hx : x < c.graph.nodeNum)
    (h : c.Indexed M d x) : c'.Indexed M d x := by
  have hdlt : d < c.graph.nodeNum := (hc.wf.gep_kind d hd).1
  -- it is enough that the points-to set of `d` and the edges into it do not shrink
  obtain ⟨hle, hname⟩ := hc.name_step hs
  suffices hmono : c.pts d ⊆ c'.pts d ∧ ∀ i f, i < c.graph.nodeNum → c.graph.kind i = .objNode f →
      d ∈ c.graph.succ .copy (i + 1) → d ∈ c'.graph.succ .copy (i + 1) by
    intro o gep f ho hg hf
    rw [(hname x hx).2] at ho
    rw [(hname d hdlt).2] at hg
    obtain ⟨i, hi, hif, h1⟩ := h o gep f ho hg hf
    refine ⟨i, hi.trans_le hle, (hname i hi).2.trans hif, ?_⟩
    exact h1.imp (fun h1 => hmono.1 h1) (hmono.2 i f hi hif)
  have hins : ∀ a b i, d ∈ c.graph.succ .copy i →
      d ∈ (c.graph.insertConstraint a b .copy).1.succ .copy i := fun a b i hi =>
    (mem_succ_insertConstraint ..).mpr (.inl hi)
  cases hs with
  | unionAll v new _ =>
    rw [graph_unionPts, pts_unionPts]
    refine ⟨?_, fun _ _ _ _ h => h⟩
    split
    · exact Finset.subset_union_left
    · exact Finset.Subset.refl _
  | clear n m hne hnm hmn =>
    refine ⟨?_, fun _ _ _ _ h => h⟩
    rw [pts_setPts, if_neg]
    rintro rfl
    exact (hc.not_fixed_of_cycle hnm hmn hne).2 hd
  | collapse scc s hnd hs hlen hr =>
    rw [pts_collapse, graph_collapse]
    refine ⟨Finset.Subset.refl _, fun i f hi hif hid => ?_⟩
    have hds : d ∉ scc := fun h1 => (hc.scc_not_fixed hnd hlen hr h1).2 hd
    have his : i + 1 ∉ scc := fun h1 =>
      (hc.scc_not_fixed hnd hlen hr h1).1 (Shape.isAddr_succ hi hif)
    refine ((hc.inv.collapse_scc w hnd hs hlen hr).2.succ _ _ _).mpr ⟨⟨_, _, hid,
      target_of_notMem s his, target_of_notMem s hds⟩, ?_⟩
    rintro ⟨he, -⟩
    rw [← he] at hid
    exact hc.inv.noSelf _ hid
  | load x u v _ _ => exact ⟨Finset.Subset.refl _, fun i _ _ _ => hins _ _ _⟩
  | store x u v _ _ => exact ⟨Finset.Subset.refl _, fun i _ _ _ => hins _ _ _⟩
  | handled u d new _ _ => exact ⟨Finset.Subset.refl _, fun _ _ _ _ h => h⟩
  | field d' x' o f gep _ _ _ _ _ =>
    rw [Shape.pts_addCGNode_of_lt hdlt]
    refine ⟨Finset.Subset.refl _, fun i _ _ _ h => ?_⟩
    rwa [(hc.nodeAdded _).succ .copy (by decide)]
  | addrOf d x i o f gep _ _ _ _ _ _ => exact ⟨Finset.Subset.refl _, fun i _ _ _ => hins _ _ _⟩
  | insert d' x i o f gep _ _ _ _ _ _ =>
    refine ⟨?_, fun _ _ _ _ h => h⟩
    rw [pts_setPts]
    split
    · rename_i he
      rw [he]
      exact Finset.subset_insert _ _
    · exact Finset.Subset.refl _

/-! ## runs -/

/-- a run of steps -/
abbrev Steps [DecidableEq Obj] (M : MemModel Obj Val) (w : Walk) :
    Core Obj Val → Core Obj Val → Prop := ReflTransGen (Step M w)

section run
variable [DecidableEq Obj] {w : Walk} {c' : Core Obj Val}

theorem Shape.run (h : c.Shape G) (hs : Steps M w c c') : c'.Shape G := by
  induction hs with
  | refl => exact h
  | tail _ hs ih => exact ih.step hs

theorem Below.run (h : c.Below M P) (hc : c.Shape G) (hP : ∀ o o', P (.addr o) o' ↔ o' = o)
    (hs : Steps M w c c') : c'.Below M P := by
  induction hs with
  | refl => exact h
  | tail hrun hs ih => exact ih.step (hc.run hrun) hP hs

theorem Shape.covered_run (hc : c.Shape G) (h : c.graph.Covered C) (hs : Steps M w c c') :
    c'.graph.Covered C := by
  induction hs with
  | refl => exact h
  | tail hrun hs ih => exact (hc.run hrun).covered_step ih hs

theorem Shape.name_run (hc : c.Shape G) (hs : Steps M w c c') :
    c.graph.nodeNum ≤ c'.graph.nodeNum ∧
      ∀ n < c.graph.nodeNum, c'.graph.name n = c.graph.name n ∧
        c'.graph.kind n = c.graph.kind n := by
  induction hs with
  | refl => exact ⟨le_rfl, fun _ _ => ⟨rfl, rfl⟩⟩
  | tail hrun hs ih =>
    obtain ⟨h1, h2⟩ := (hc.run hrun).name_step hs
    refine ⟨ih.1.trans h1, fun n hn => ?_⟩
    have h3 := h2 n (hn.trans_le ih.1)
    exact ⟨h3.1.trans (ih.2 n hn).1, h3.2.trans (ih.2 n hn).2⟩

theorem Shape.covers_run (hc : c.Shape G) (hs : Steps M w c c') {k : Constraints} (hk : k ≠ .addrOf)
    {u v : NodeID} (h : c.graph.Covers k u v) : c'.graph.Covers k u v := by
  induction hs with
  | refl => exact h
  | tail hrun hs ih => exact (hc.run hrun).covers_step hs hk ih

theorem Shape.indexed_run (hc : c.Shape G) (hs : Steps M w c c') {d x : NodeID} (hd : G d)
    (hx : x < c.graph.nodeNum) (h : c.Indexed M d x) : c'.Indexed M d x := by
  induction hs with
  | refl => exact h
  | tail hrun hs ih =>
    exact (hc.run hrun).indexed_step hs hd (hx.trans_le (hc.name_run hrun).1) ih

end run

/-- every edge is satisfied -/
structure Closed (M : MemModel Obj Val) (c : Core Obj Val) : Prop where
  copy : ∀ u v, v ∈ c.graph.succ .copy u → c.pts u ⊆ c.pts v
  load : ∀ u v, v ∈ c.graph.succ .load u → ∀ x ∈ c.pts u, c.graph.Covers .copy x v
  store : ∀ u v, v ∈ c.graph.succ .store u → ∀ x ∈ c.pts v, c.graph.Covers .copy u x
  offset : ∀ u d, d ∈ c.graph.succ .offset u → c.pts u ⊆ c.handledGEPMap d
  indexed : ∀ d, ∀ x ∈ c.handledGEPMap d, c.Indexed M d x

/-- the address node of an object holds that object only, in the least solution too -/
theorem Shape.least_addr (hc : c.Shape G) (hcov : c.graph.Covered C) (o o' : Obj) :
    Inclusion.Least (andersen M C) (.addr o) o' ↔ o' = o := by
  constructor
  · intro h
    generalize hv : Name.addr o = v at h
    have hnone : ∀ k s, k ≠ .addrOf → C k s (Name.addr o) → k = .copy ∧ s = .addr o ∨
        k ≠ .copy ∧ k ≠ .load := by
      intro k s hk hC
      obtain ⟨u, v, hu, hvlt, rfl, hname, hcv⟩ := hcov k s _ hk hC
      obtain ⟨m, rfl, hm⟩ := name_eq_addr hname
      have ha : c.graph.IsAddr (m + 1) := Shape.isAddr_succ (Nat.lt_of_succ_lt hvlt) hm
      obtain ⟨hroot, hfix⟩ := hc.addr_fixed _ ha
      have hrep := getSuperNode_of_none hroot
      rcases hcv with hcv | ⟨rfl, he⟩
      · rw [hrep] at hcv
        refine .inr ⟨?_, ?_⟩
        · rintro rfl
          exact hc.wf.addr_copy _ ha _ hcv
        · rintro rfl
          exact hc.wf.addr_load _ ha _ hcv
      · refine .inl ⟨rfl, ?_⟩
        rw [hrep] at he
        rw [hc.rep_eq_fixed hfix he]
        exact hname
    induction h with
    | base h =>
      cases (hv.trans h : Name.addr o = .addr _)
      rfl
    | copy h _ ih =>
      subst hv
      rcases hnone .copy _ (by decide) h with ⟨-, rfl⟩ | ⟨h1, -⟩
      · exact ih rfl
      · exact absurd rfl h1
    | load h _ _ _ _ =>
      subst hv
      rcases hnone .load _ (by decide) h with ⟨h1, -⟩ | ⟨-, h1⟩
      · cases h1
      · exact absurd rfl h1
    | store _ _ _ _ _ => cases hv
    | offset _ _ hf _ =>
      subst hv
      cases hf
  · rintro rfl
    exact .base rfl

/-- In a closed state below the least solution that covers all constraints, the points-to sets are
the least solution. -/
theorem Shape.exact (hc : c.Shape G) (hcov : c.graph.Covered C) (hcl : c.Closed M)
    (hb : c.Below M (Inclusion.Least (andersen M C))) (n : NodeID) (hn : n < c.graph.nodeNum)
    (o : Obj) : c.PointsTo n o ↔ Inclusion.Least (andersen M C) (c.graph.name n) o := by
  constructor
  · rintro ⟨x, hx, ho⟩
    exact (hb.rep hc n o).mp (hb.pts _ x hx o ho)
  · -- what the nodes of a name hold solves the system
    let P : Name Obj Val → Obj → Prop := fun v o =>
      ∀ n < c.graph.nodeNum, c.graph.name n = v → c.PointsTo n o
    suffices hsol : (andersen M C).Solution P from fun h => h.le hsol n hn rfl
    have hcopy : ∀ u v, c.graph.Covers .copy u v →
        c.pts (c.graph.getSuperNode u) ⊆ c.pts (c.graph.getSuperNode v) := by
      rintro u v (h | ⟨-, h⟩)
      · exact hcl.copy _ _ h
      · rw [h]
    have hrep : ∀ n, c.graph.getSuperNode (c.graph.getSuperNode n) = c.graph.getSuperNode n :=
      fun n => getSuperNode_of_none (hc.inv.superOf_getSuperNode n)
    refine ⟨?_, ?_, ?_, ?_, ?_⟩
    · rintro _ o rfl n hn hname
      obtain ⟨m, rfl, hm⟩ := name_eq_addr hname
      have hmlt := Nat.lt_of_succ_lt hn
      have ha : c.graph.IsAddr (m + 1) := Shape.isAddr_succ hmlt hm
      refine ⟨m, ?_, hm⟩
      rw [getSuperNode_of_none (hc.addr_fixed _ ha).1, hc.pts_addr m o hmlt hm]
      exact Finset.mem_singleton_self m
    · intro s d hC o ho n hn hname
      obtain ⟨u, v, hu, hv, rfl, rfl, huv⟩ := hcov .copy s d (by decide) hC
      obtain rfl := hc.uniq.name_inj hn hv hname
      obtain ⟨x, hx, hxo⟩ := ho u hu rfl
      exact ⟨x, hcopy u n huv hx, hxo⟩
    · intro s d hC p hp o ho n hn hname
      obtain ⟨u, v, hu, hv, rfl, rfl, huv⟩ := hcov .load s d (by decide) hC
      obtain rfl := hc.uniq.name_inj hn hv hname
      obtain ⟨x, hx, hxp⟩ := hp u hu rfl
      have hxlt := (hc.pts_obj _ x hx).1
      obtain ⟨y, hy, hyo⟩ := ho x hxlt (name_obj hxp)
      rcases huv with huv | ⟨h, -⟩
      · have := hcopy _ _ (hcl.load _ _ huv x hx)
        rw [hrep] at this
        exact ⟨y, this hy, hyo⟩
      · cases h
    · intro s d hC p hp o ho n hn hname
      obtain ⟨u, v, hu, hv, rfl, rfl, huv⟩ := hcov .store s d (by decide) hC
      obtain ⟨x, hx, hxp⟩ := hp v hv rfl
      have hxlt := (hc.pts_obj _ x hx).1
      obtain rfl := hc.uniq.name_inj hn hxlt (hname.trans (name_obj hxp).symm)
      obtain ⟨y, hy, hyo⟩ := ho u hu rfl
      rcases huv with huv | ⟨h, -⟩
      · have := hcopy _ _ (hcl.store _ _ huv n hx)
        rw [hrep] at this
        exact ⟨y, this hy, hyo⟩
      · cases h
    · intro s d hC o ho f hf n hn hname
      obtain ⟨u, v, hu, hv, rfl, rfl, huv⟩ := hcov .offset s d (by decide) hC
      obtain rfl := hc.uniq.name_inj hn hv hname
      rcases huv with huv | ⟨h, -⟩
      · have hg := hc.wf.gep_target _ _ huv
        have hnr := hc.rep_eq_fixed (hc.gep_fixed _ hg).2 rfl
        rw [← hnr] at huv hg
        obtain ⟨-, gep, hk⟩ := hc.wf.gep_kind n hg
        obtain ⟨x, hx, hxo⟩ := ho u hu rfl
        have hf' : M.indexObject o gep = some f := by
          rw [← index_name M hc.addrNodes hn hk]
          exact hf
        obtain ⟨i, hi, hif, h⟩ := hcl.indexed n x (hcl.offset _ _ huv hx) o gep f hxo hk hf'
        refine ⟨i, ?_, hif⟩
        rw [← hnr]
        rcases h with h | h
        · exact h
        · exact hcl.copy _ _ h (by rw [hc.pts_addr i f hi hif]; exact Finset.mem_singleton_self i)
      · cases h

end Core

end AserPTA
