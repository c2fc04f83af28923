import AserPTA.Solver.Meaning

/-!
# The steps of a solver

Every solver runs in the steps of `Step`: it grows a points-to set along copy edges, collapses nodes
that reach each other, adds the copy edges that a load, a store or an offset edge stands for, and
makes the nodes of field objects.  The steps keep

* `Shape`     the shape of the state: representation invariant, well-formedness, one node for each
              object, address nodes and `getelementptr` nodes never merged;
* `Below P`   what is known is in the solution `P` (soundness);
* `Covered`   every constraint has its edge between the representatives of its ends, or they are
              merged (so that a closed state is complete).
-/

namespace AserPTA

open Relation

variable {Obj Val : Type}

namespace ConsGraph

variable (g : ConsGraph Obj Val)

/-- a path of copy edges -/
def CopyReach : NodeID → NodeID → Prop := ReflTransGen fun u v => v ∈ g.succ .copy u

/-- the constraint between two nodes is there, between their representatives -/
def Covers (k : Constraints) (u v : NodeID) : Prop :=
  g.getSuperNode v ∈ g.succ k (g.getSuperNode u) ∨
    (k = .copy ∧ g.getSuperNode u = g.getSuperNode v)

instance (k : Constraints) (u v : NodeID) : Decidable (g.Covers k u v) :=
  inferInstanceAs (Decidable (_ ∨ _ ∧ _))

/-- every constraint is there -/
def Covered (C : Cons Obj Val) : Prop := ∀ k a b, k ≠ .addrOf → C k a b →
  ∃ u v, u < g.nodeNum ∧ v < g.nodeNum ∧ g.name u = a ∧ g.name v = b ∧ g.Covers k u v

variable {g}

theorem covers_of_mem (h : g.Inv) {k : Constraints} {u v : NodeID} (huv : v ∈ g.succ k u) :
    g.Covers k u v := by
  left
  rwa [getSuperNode_of_none (h.source_none huv), getSuperNode_of_none (h.target_none huv)]

/-- a path that is not empty ends with an edge -/
theorem CopyReach.last {u v : NodeID} (h : g.CopyReach u v) (hne : u ≠ v) :
    ∃ x, v ∈ g.succ .copy x ∧ g.CopyReach u x := by
  rcases ReflTransGen.cases_tail h with he | ⟨x, hux, hxv⟩
  · exact absurd he.symm hne
  · exact ⟨x, hxv, hux⟩

theorem exists_other {scc : List NodeID} (hnd : scc.Nodup) (hlen : 1 < scc.length) (u : NodeID) :
    ∃ v ∈ scc, u ≠ v := by
  by_contra hall
  push Not at hall
  have hsub : scc ⊆ [u] := fun v hv => List.mem_singleton.mpr (hall v hv).symm
  have := (hnd.subperm hsub).length_le
  rw [List.length_singleton] at this
  omega

/-- the members of a component of more than one node have copy edges, so they are not merged -/
theorem Inv.scc_not_merged (h : g.Inv) {scc : List NodeID} (hnd : scc.Nodup)
    (hlen : 1 < scc.length) (hr : ∀ u ∈ scc, ∀ v ∈ scc, g.CopyReach u v) {u : NodeID}
    (hu : u ∈ scc) : u < g.nodeNum ∧ g.superOf u = none := by
  obtain ⟨v, hv, hne⟩ := exists_other hnd hlen u
  obtain ⟨x, hx, -⟩ := (hr v hv u hu).last hne.symm
  exact ⟨(h.edge_lt _ _ _ hx).2, h.target_none hx⟩

/-- collapsing nodes that reach each other -/
theorem Inv.collapse_scc (h : g.Inv) (w : Walk) {scc : List NodeID} {s : NodeID} (hnd : scc.Nodup)
    (hs : s ∈ scc) (hlen : 1 < scc.length) (hr : ∀ u ∈ scc, ∀ v ∈ scc, g.CopyReach u v) :
    (g.collapseSCCTo w scc s).Inv ∧ Collapsed g (g.collapseSCCTo w scc s) scc s := by
  have hm : ∀ u ∈ scc, u < g.nodeNum ∧ g.superOf u = none := fun u hu =>
    h.scc_not_merged hnd hlen hr hu
  exact h.collapse w scc hnd (hm s hs).2 (hm s hs).1 hm

end ConsGraph

namespace Core

open ConsGraph

/-- the shape of a state; offset edges may target the nodes in `G` -/
structure Shape (c : Core Obj Val) (G : NodeID → Prop) : Prop where
  inv : c.graph.Inv
  addrNodes : c.graph.AddrNodes
  wf : c.graph.WellFormedOn G
  uniq : c.graph.ObjUnique
  addr_fixed : ∀ n, c.graph.IsAddr n →
    c.graph.superOf n = none ∧ ∀ m, c.graph.superOf m ≠ some n
  gep_fixed : ∀ n, G n →
    c.graph.superOf n = none ∧ ∀ m, c.graph.superOf m ≠ some n
  pts_lt : ∀ n, ∀ x ∈ c.pts n, n < c.graph.nodeNum
  pts_obj : ∀ n, ∀ x ∈ c.pts n, x < c.graph.nodeNum ∧ ∃ o, c.graph.kind x = .objNode o
  pts_addr : ∀ m o, m < c.graph.nodeNum → c.graph.kind m = .objNode o → c.pts (m + 1) = {m}
  handled_gep : ∀ d x, x ∈ c.handledGEPMap d → G d
  handled_lt : ∀ d x, x ∈ c.handledGEPMap d → x < c.graph.nodeNum

/-- everything known is in `P` -/
structure Below (M : MemModel Obj Val) (P : Name Obj Val → Obj → Prop) (c : Core Obj Val) :
    Prop where
  pts : ∀ n, ∀ x ∈ c.pts n, ∀ o, c.graph.kind x = .objNode o → P (c.graph.name n) o
  merged : ∀ n m, c.graph.superOf n = some m → ∀ o, P (c.graph.name n) o ↔ P (c.graph.name m) o
  copy : ∀ u v, v ∈ c.graph.succ .copy u → ∀ o, P (c.graph.name u) o → P (c.graph.name v) o
  load : ∀ u v, v ∈ c.graph.succ .load u → ∀ p o, P (c.graph.name u) p → P (.obj p) o →
    P (c.graph.name v) o
  store : ∀ u v, v ∈ c.graph.succ .store u → ∀ p o, P (c.graph.name v) p →
    P (c.graph.name u) o → P (.obj p) o
  offset : ∀ u v, v ∈ c.graph.succ .offset u → ∀ o f, P (c.graph.name u) o →
    (c.graph.name v).index M o = some f → P (c.graph.name v) f
  handled : ∀ d x, x ∈ c.handledGEPMap d → ∀ o f, c.graph.kind x = .objNode o →
    (c.graph.name d).index M o = some f → P (c.graph.name d) f

/-- one step of a solver -/
inductive Step [DecidableEq Obj] (M : MemModel Obj Val) (w : Walk) :
    Core Obj Val → Core Obj Val → Prop where
  | unionAll {c} (v : NodeID) (new : Finset NodeID) :
      (∀ x ∈ new, ∃ u, x ∈ c.pts u ∧ c.graph.CopyReach u v) → Step M w c (c.unionPts v new).1
  | clear {c} (n m : NodeID) : n ≠ m → c.graph.CopyReach n m → c.graph.CopyReach m n →
      Step M w c (c.setPts n ∅)
  | collapse {c} (scc : List NodeID) (s : NodeID) : scc.Nodup → s ∈ scc → 1 < scc.length →
      (∀ u ∈ scc, ∀ v ∈ scc, c.graph.CopyReach u v) → Step M w c (c.collapse w scc s)
  | load {c} (x u v : NodeID) : x ∈ c.pts u → v ∈ c.graph.succ .load u →
      Step M w c { c with graph :=
        (c.graph.insertConstraint (c.graph.getSuperNode x) v .copy).1 }
  | store {c} (x u v : NodeID) : x ∈ c.pts v → v ∈ c.graph.succ .store u →
      Step M w c { c with graph :=
        (c.graph.insertConstraint u (c.graph.getSuperNode x) .copy).1 }
  | handled {c} (u d : NodeID) (new : Finset NodeID) : d ∈ c.graph.succ .offset u → new ⊆ c.pts u →
      Step M w c { c with handledGEPMap := fun m =>
        if m = d then c.handledGEPMap m ∪ new else c.handledGEPMap m }
  | field {c} (d x : NodeID) (o f : Obj) (gep : Val) : x ∈ c.handledGEPMap d →
      c.graph.kind x = .objNode o → c.graph.kind d = .ptrNode (some gep) →
      M.indexObject o gep = some f → c.graph.findObj f = none →
      Step M w c (c.addCGNode (.objNode f))
  | addrOf {c} (d x i : NodeID) (o f : Obj) (gep : Val) : x ∈ c.handledGEPMap d →
      c.graph.kind x = .objNode o → c.graph.kind d = .ptrNode (some gep) →
      M.indexObject o gep = some f → i < c.graph.nodeNum → c.graph.kind i = .objNode f →
      Step M w c { c with graph := (c.graph.insertConstraint (i + 1) d .copy).1 }
  | insert {c} (d x i : NodeID) (o f : Obj) (gep : Val) : x ∈ c.handledGEPMap d →
      c.graph.kind x = .objNode o → c.graph.kind d = .ptrNode (some gep) →
      M.indexObject o gep = some f → i < c.graph.nodeNum → c.graph.kind i = .objNode f →
      Step M w c (c.setPts d (insert i (c.pts d)))

theorem Step.union [DecidableEq Obj] {M : MemModel Obj Val} {w : Walk} {c : Core Obj Val}
    (u v : NodeID) (new : Finset NodeID) (hnew : new ⊆ c.pts u) (hr : c.graph.CopyReach u v) :
    Step M w c (c.unionPts v new).1 :=
  .unionAll v new fun _ hx => ⟨u, hnew hx, hr⟩

/-! ## the pieces of a step -/

variable {c : Core Obj Val} {G : NodeID → Prop}

@[simp] theorem graph_setPts (n : NodeID) (s : Finset NodeID) : (c.setPts n s).graph = c.graph := rfl

theorem pts_setPts (n : NodeID) (s : Finset NodeID) (m : NodeID) :
    (c.setPts n s).pts m = if m = n then s else c.pts m := rfl

@[simp] theorem graph_unionPts (dst : NodeID) (new : Finset NodeID) :
    (c.unionPts dst new).1.graph = c.graph := by
  unfold unionPts
  split
  · rfl
  · dsimp only
    split <;> rfl

@[simp] theorem handledGEPMap_unionPts (dst : NodeID) (new : Finset NodeID) :
    (c.unionPts dst new).1.handledGEPMap = c.handledGEPMap := by
  unfold unionPts
  split
  · rfl
  · dsimp only
    split <;> rfl

theorem pts_unionPts (dst : NodeID) (new : Finset NodeID) (m : NodeID) :
    (c.unionPts dst new).1.pts m = if m = dst then c.pts m ∪ new else c.pts m := by
  by_cases hn : new ⊆ c.pts dst
  · rw [unionPts, if_pos hn]
    split
    · rename_i hm
      rw [hm, Finset.union_eq_left.mpr hn]
    · rfl
  · have h1 : (c.unionPts dst new).1.pts m = (c.setPts dst (c.pts dst ∪ new)).pts m := by
      rw [unionPts, if_neg hn]
      dsimp only
      split <;> rfl
    rw [h1, pts_setPts]
    split
    · rename_i hm; rw [hm]
    · rfl

theorem unionPts_snd (dst : NodeID) (new : Finset NodeID) :
    (c.unionPts dst new).2 = true ↔ ¬ new ⊆ c.pts dst := by
  unfold unionPts
  split <;> simp_all

/-- with no new member nothing happens -/
theorem unionPts_of_subset {dst : NodeID} {new : Finset NodeID} (h : new ⊆ c.pts dst) :
    c.unionPts dst new = (c, false) := if_pos h

@[simp] theorem pts_collapse (w : Walk) (scc : List NodeID) (s : NodeID) :
    (c.collapse w scc s).pts = c.pts := by
  unfold collapse
  dsimp only
  split <;> rfl

@[simp] theorem handledGEPMap_collapse (w : Walk) (scc : List NodeID) (s : NodeID) :
    (c.collapse w scc s).handledGEPMap = c.handledGEPMap := by
  unfold collapse
  dsimp only
  split <;> rfl

@[simp] theorem graph_collapse (w : Walk) (scc : List NodeID) (s : NodeID) :
    (c.collapse w scc s).graph = c.graph.collapseSCCTo w scc s := by
  unfold collapse
  dsimp only
  split <;> rfl

namespace Shape

theorem not_addr_of_reach (h : c.Shape G) {u v : NodeID} (hr : c.graph.CopyReach u v) (hne : u ≠ v) :
    ¬ c.graph.IsAddr v := by
  obtain ⟨x, hx, -⟩ := hr.last hne
  exact fun ha => h.wf.addr_copy v ha x hx

/-- a node on a cycle of copy edges holds no address and is no `getelementptr` node -/
theorem not_fixed_of_cycle (h : c.Shape G) {u v : NodeID} (huv : c.graph.CopyReach u v)
    (hvu : c.graph.CopyReach v u) (hne : u ≠ v) : ¬ c.graph.IsAddr u ∧ ¬ G u := by
  refine ⟨h.not_addr_of_reach hvu hne.symm, ?_⟩
  intro hu
  obtain ⟨x, hx, hvx⟩ := hvu.last hne.symm
  have hxa := h.wf.gep_copy u hu x hx
  by_cases hxv : v = x
  · exact h.not_addr_of_reach huv hne (hxv ▸ hxa)
  · exact h.not_addr_of_reach hvx hxv hxa

theorem scc_not_fixed (h : c.Shape G) {scc : List NodeID} (hnd : scc.Nodup) (hlen : 1 < scc.length)
    (hr : ∀ u ∈ scc, ∀ v ∈ scc, c.graph.CopyReach u v) {u : NodeID} (hu : u ∈ scc) :
    ¬ c.graph.IsAddr u ∧ ¬ G u := by
  obtain ⟨v, hv, hne⟩ := exists_other hnd hlen u
  exact h.not_fixed_of_cycle (hr u hu v hv) (hr v hv u hu) hne

/-- a node that no node is merged into represents only itself -/
theorem rep_eq_fixed (h : c.Shape G) {n r : NodeID} (hr : ∀ m, c.graph.superOf m ≠ some r)
    (hn : c.graph.getSuperNode n = r) : n = r := by
  rcases ReflTransGen.cases_tail (h.inv.root n).1 with he | ⟨m, -, hm⟩
  · exact he.symm.trans hn
  · exact absurd (hn ▸ hm) (hr m)

theorem isAddr_succ {m : NodeID} {o : Obj} (hm : m < c.graph.nodeNum)
    (ho : c.graph.kind m = .objNode o) : c.graph.IsAddr (m + 1) := ⟨m, o, rfl, hm, ho⟩

theorem kind_of_isAddr (h : c.Shape G) {n : NodeID} (hn : c.graph.IsAddr n) :
    c.graph.kind n = .ptrNode none ∧ n < c.graph.nodeNum := by
  obtain ⟨m, o, rfl, hm, ho⟩ := hn
  have := h.addrNodes m o ho hm
  exact ⟨this.2, this.1⟩

theorem not_addr_of_gep (h : c.Shape G) {n : NodeID} (hn : G n) : ¬ c.graph.IsAddr n := by
  intro ha
  obtain ⟨-, gep, hk⟩ := h.wf.gep_kind n hn
  rw [(h.kind_of_isAddr ha).1] at hk
  cases hk

/-- the representative of an object is neither an address node nor a `getelementptr` node -/
theorem rep_obj_not_fixed (h : c.Shape G) {x : NodeID} {o : Obj} (ho : c.graph.kind x = .objNode o) :
    ¬ c.graph.IsAddr (c.graph.getSuperNode x) ∧ ¬ G (c.graph.getSuperNode x) := by
  constructor
  · intro ha
    have hx := h.rep_eq_fixed (h.addr_fixed _ ha).2 rfl
    rw [← hx] at ha
    rw [(h.kind_of_isAddr ha).1] at ho
    cases ho
  · intro hg
    have hx := h.rep_eq_fixed (h.gep_fixed _ hg).2 rfl
    rw [← hx] at hg
    obtain ⟨-, gep, hk⟩ := h.wf.gep_kind x hg
    rw [hk] at ho
    cases ho

end Shape

/-! ## the shape is kept -/

theorem isAddr_iff {g g' : ConsGraph Obj Val} (hn : g'.nodeNum = g.nodeNum)
    (hk : ∀ n, g'.kind n = g.kind n) (n : NodeID) : g'.IsAddr n ↔ g.IsAddr n := by
  simp only [IsAddr, hn, hk]

/-- what an edge of kind `k` to `b` must respect: address nodes are not fed, and the nodes in `G` are
fed by address nodes only -/
structure EdgeOk (c : Core Obj Val) (G : NodeID → Prop) (a b : NodeID) (k : Constraints) : Prop where
  copy : k = .copy → ¬ c.graph.IsAddr b ∧ (G b → c.graph.IsAddr a)
  load : k = .load → ¬ c.graph.IsAddr b ∧ ¬ G b
  offset : k = .offset → G b

namespace Shape

/-- only the points-to sets change -/
theorem of_pts (h : c.Shape G) {c' : Core Obj Val} (hg : c'.graph = c.graph)
    (hh : c'.handledGEPMap = c.handledGEPMap)
    (hobj : ∀ n, ∀ x ∈ c'.pts n, n < c.graph.nodeNum ∧ x < c.graph.nodeNum ∧
      ∃ o, c.graph.kind x = .objNode o)
    (haddr : ∀ n, c.graph.IsAddr n → c'.pts n = c.pts n) : c'.Shape G := by
  refine ⟨hg ▸ h.inv, hg ▸ h.addrNodes, hg ▸ h.wf, hg ▸ h.uniq, hg ▸ h.addr_fixed,
    hg ▸ h.gep_fixed, ?_, ?_, ?_, ?_, ?_⟩
  · rw [hg]
    exact fun n x hx => (hobj n x hx).1
  · rw [hg]
    exact fun n x hx => (hobj n x hx).2
  · rw [hg]
    intro m o hm ho
    rw [haddr _ (isAddr_succ hm ho)]
    exact h.pts_addr m o hm ho
  · rw [hh]
    exact h.handled_gep
  · rw [hg, hh]
    exact h.handled_lt

theorem union (h : c.Shape G) {v : NodeID} {new : Finset NodeID}
    (hnew : ∀ x ∈ new, ∃ u, x ∈ c.pts u ∧ c.graph.CopyReach u v) : (c.unionPts v new).1.Shape G := by
  by_cases hsub : new ⊆ c.pts v
  · rw [unionPts_of_subset hsub]
    exact h
  · obtain ⟨y, hy, hyv⟩ := Finset.not_subset.mp hsub
    obtain ⟨u, hyu, hr⟩ := hnew y hy
    have huv : u ≠ v := fun e => hyv (e ▸ hyu)
    obtain ⟨x, hx, -⟩ := hr.last huv
    refine h.of_pts (graph_unionPts ..) (handledGEPMap_unionPts ..) (fun n y hy => ?_) fun n hn => ?_
    · rw [pts_unionPts] at hy
      split at hy
      · rename_i hnv
        rcases Finset.mem_union.mp hy with hy | hy
        · exact ⟨h.pts_lt n y hy, h.pts_obj n y hy⟩
        · obtain ⟨u, hyu, -⟩ := hnew y hy
          exact ⟨hnv ▸ (h.inv.edge_lt _ _ _ hx).2, h.pts_obj u y hyu⟩
      · exact ⟨h.pts_lt n y hy, h.pts_obj n y hy⟩
    · rw [pts_unionPts, if_neg]
      rintro rfl
      exact h.not_addr_of_reach hr huv hn

theorem clear (h : c.Shape G) {n : NodeID} (hn : ¬ c.graph.IsAddr n) : (c.setPts n ∅).Shape G := by
  refine h.of_pts rfl rfl (fun m y hy => ?_) fun m hm => ?_
  · rw [pts_setPts] at hy
    split at hy
    · cases hy
    · exact ⟨h.pts_lt m y hy, h.pts_obj m y hy⟩
  · rw [pts_setPts, if_neg]
    rintro rfl
    exact hn hm

theorem insertPts (h : c.Shape G) {d i : NodeID} {f : Obj} (hd : G d)
    (hi : i < c.graph.nodeNum) (hf : c.graph.kind i = .objNode f) :
    (c.setPts d (insert i (c.pts d))).Shape G := by
  refine h.of_pts rfl rfl (fun n y hy => ?_) fun n hn => ?_
  · rw [pts_setPts] at hy
    split at hy
    · rename_i hnd
      subst hnd
      rcases Finset.mem_insert.mp hy with rfl | hy
      · exact ⟨(h.wf.gep_kind n hd).1, hi, f, hf⟩
      · exact ⟨h.pts_lt n y hy, h.pts_obj n y hy⟩
    · exact ⟨h.pts_lt n y hy, h.pts_obj n y hy⟩
  · rw [pts_setPts, if_neg]
    rintro rfl
    exact h.not_addr_of_gep hd hn

theorem handled (h : c.Shape G) {u d : NodeID} {new : Finset NodeID}
    (hd : d ∈ c.graph.succ .offset u) (hnew : new ⊆ c.pts u) :
    ({ c with handledGEPMap := fun m =>
        if m = d then c.handledGEPMap m ∪ new else c.handledGEPMap m } : Core Obj Val).Shape G := by
  refine { h with handled_gep := fun e x hx => ?_, handled_lt := fun e x hx => ?_ }
  · dsimp only at hx
    split at hx
    · rename_i he
      subst he
      exact h.wf.gep_target u e hd
    · exact h.handled_gep e x hx
  · dsimp only at hx
    split at hx
    · rcases Finset.mem_union.mp hx with hx | hx
      · exact h.handled_lt e x hx
      · exact (h.pts_obj u x (hnew hx)).1
    · exact h.handled_lt e x hx

/-- a new edge -/
theorem insertEdge (h : c.Shape G) {a b : NodeID} {k : Constraints} (ha : a < c.graph.nodeNum)
    (hb : b < c.graph.nodeNum)
    (hok : c.EdgeOk G (c.graph.getSuperNode a) (c.graph.getSuperNode b) k) :
    ({ c with graph := (c.graph.insertConstraint a b k).1 } : Core Obj Val).Shape G := by
  have hs := insertConstraint_sameNodes (g := c.graph) a b k
  have hsucc := mem_succ_insertConstraint (g := c.graph) a b k
  have haddr := isAddr_iff hs.nodeNum hs.kind
  refine ⟨h.inv.insertConstraint ha hb k, h.addrNodes.of_eq hs.nodeNum hs.kind, ?_, ?_, ?_, ?_,
    ?_, ?_, ?_, ?_, ?_⟩
  · refine ⟨fun u v huv => ?_, fun v hv => ?_, fun v hv x hx => ?_, fun v hv x hx => ?_,
      fun v hv x hx => ?_, fun v hv x hx => ?_⟩
    · rcases (hsucc .offset u v).mp huv with huv | ⟨hk, rfl, rfl, -⟩
      · exact h.wf.gep_target u v huv
      · exact hok.offset hk.symm
    · rw [hs.kind, hs.nodeNum]
      exact h.wf.gep_kind v hv
    · rw [haddr]
      rcases (hsucc .copy x v).mp hx with hx | ⟨hk, rfl, rfl, -⟩
      · exact h.wf.gep_copy v hv x hx
      · exact (hok.copy hk.symm).2 hv
    · rcases (hsucc .load x v).mp hx with hx | ⟨hk, rfl, rfl, -⟩
      · exact h.wf.gep_load v hv x hx
      · exact (hok.load hk.symm).2 hv
    · rcases (hsucc .copy x v).mp hx with hx | ⟨hk, rfl, rfl, -⟩
      · exact h.wf.addr_copy v ((haddr v).mp hv) x hx
      · exact (hok.copy hk.symm).1 ((haddr _).mp hv)
    · rcases (hsucc .load x v).mp hx with hx | ⟨hk, rfl, rfl, -⟩
      · exact h.wf.addr_load v ((haddr v).mp hv) x hx
      · exact (hok.load hk.symm).1 ((haddr _).mp hv)
  · intro m n o
    rw [hs.nodeNum, hs.kind, hs.kind]
    exact h.uniq m n o
  · intro n hn
    simp only [hs.superOf]
    exact h.addr_fixed n ((haddr n).mp hn)
  · intro n hn
    simp only [hs.superOf]
    exact h.gep_fixed n hn
  · intro n x hx
    rw [hs.nodeNum]
    exact h.pts_lt n x hx
  · intro n x hx
    rw [hs.nodeNum]
    simp only [hs.kind]
    exact h.pts_obj n x hx
  · intro m o
    rw [hs.nodeNum, hs.kind]
    exact h.pts_addr m o
  · exact h.handled_gep
  · intro d x hx
    rw [hs.nodeNum]
    exact h.handled_lt d x hx

/-- a new copy edge, which feeds no address node, and a `getelementptr` node only from an address
node -/
theorem insertCopy (h : c.Shape G) {a b : NodeID} (ha : a < c.graph.nodeNum)
    (hb : b < c.graph.nodeNum) (hb1 : ¬ c.graph.IsAddr (c.graph.getSuperNode b))
    (hb2 : G (c.graph.getSuperNode b) → c.graph.IsAddr (c.graph.getSuperNode a)) :
    ({ c with graph := (c.graph.insertConstraint a b .copy).1 } : Core Obj Val).Shape G :=
  h.insertEdge ha hb ⟨fun _ => ⟨hb1, hb2⟩, fun hk => (by cases hk), fun hk => (by cases hk)⟩

/-- nodes that reach each other are neither address nor `getelementptr` nodes, so collapsing them
concerns neither -/
theorem collapse (h : c.Shape G) (w : Walk) {scc : List NodeID} {s : NodeID} (hnd : scc.Nodup)
    (hs : s ∈ scc) (hlen : 1 < scc.length)
    (hr : ∀ u ∈ scc, ∀ v ∈ scc, c.graph.CopyReach u v) : (c.collapse w scc s).Shape G := by
  have hfix : ∀ u ∈ scc, ¬ c.graph.IsAddr u ∧ ¬ G u := fun u hu =>
    h.scc_not_fixed hnd hlen hr hu
  obtain ⟨hinv, hcol⟩ := h.inv.collapse_scc w hnd hs hlen hr
  have haddr := isAddr_iff hcol.nodeNum hcol.kind
  -- the target of an edge that is not in the scc is the target of the old edge
  have hto : ∀ k u v, v ∈ (c.graph.collapseSCCTo w scc s).succ k u →
      ∃ a b, b ∈ c.graph.succ k a ∧ target scc s a = u ∧ target scc s b = v := fun k u v huv =>
    ((hcol.succ k u v).mp huv).1
  have hnot : ∀ b v, target scc s b = v → v ∉ scc → b = v := by
    intro b v hb hv
    by_cases hbs : b ∈ scc
    · rw [target_of_mem s hbs] at hb
      exact absurd (hb ▸ hs) hv
    · rwa [target_of_notMem s hbs] at hb
  have hsup : ∀ n, n ∉ scc → (c.graph.superOf n = none ∧ ∀ m, c.graph.superOf m ≠ some n) →
      (c.graph.collapseSCCTo w scc s).superOf n = none ∧
        ∀ m, (c.graph.collapseSCCTo w scc s).superOf m ≠ some n := by
    rintro n hn ⟨h1, h2⟩
    refine ⟨?_, fun m => ?_⟩
    · rw [hcol.superOf, if_neg fun h3 => hn h3.1]
      exact h1
    · rw [hcol.superOf]
      split
      · rintro hm
        exact hn (Option.some.inj hm ▸ hs)
      · exact h2 m
  refine ⟨by simpa using hinv, by simpa using h.addrNodes.of_eq hcol.nodeNum hcol.kind, ?_, ?_, ?_,
    ?_, ?_, ?_, ?_, ?_, ?_⟩ <;> simp only [graph_collapse, pts_collapse, handledGEPMap_collapse]
  · refine ⟨fun u v huv => ?_, fun v hv => ?_, fun v hv x hx => ?_, fun v hv x hx => ?_,
      fun v hv x hx => ?_, fun v hv x hx => ?_⟩
    · obtain ⟨a, b, hab, -, hb⟩ := hto .offset u v huv
      have hbG := h.wf.gep_target a b hab
      rw [target_of_notMem s fun h1 => (hfix b h1).2 hbG] at hb
      exact hb ▸ hbG
    · rw [hcol.kind, hcol.nodeNum]
      exact h.wf.gep_kind v hv
    · obtain ⟨a, b, hab, ha, hb⟩ := hto .copy x v hx
      obtain rfl := hnot b v hb fun h1 => (hfix v h1).2 hv
      have haa := h.wf.gep_copy b hv a hab
      rw [target_of_notMem s fun h1 => (hfix a h1).1 haa] at ha
      exact (haddr x).mpr (ha ▸ haa)
    · obtain ⟨a, b, hab, -, hb⟩ := hto .load x v hx
      obtain rfl := hnot b v hb fun h1 => (hfix v h1).2 hv
      exact h.wf.gep_load b hv a hab
    · have hva := (haddr v).mp hv
      obtain ⟨a, b, hab, -, hb⟩ := hto .copy x v hx
      obtain rfl := hnot b v hb fun h1 => (hfix v h1).1 hva
      exact h.wf.addr_copy b hva a hab
    · have hva := (haddr v).mp hv
      obtain ⟨a, b, hab, -, hb⟩ := hto .load x v hx
      obtain rfl := hnot b v hb fun h1 => (hfix v h1).1 hva
      exact h.wf.addr_load b hva a hab
  · intro m n o
    rw [hcol.nodeNum, hcol.kind, hcol.kind]
    exact h.uniq m n o
  · intro n hn
    have hna := (haddr n).mp hn
    exact hsup n (fun h1 => (hfix n h1).1 hna) (h.addr_fixed n hna)
  · intro n hn
    exact hsup n (fun h1 => (hfix n h1).2 hn) (h.gep_fixed n hn)
  · intro n x hx
    rw [hcol.nodeNum]
    exact h.pts_lt n x hx
  · intro n x hx
    rw [hcol.nodeNum]
    simp only [hcol.kind]
    exact h.pts_obj n x hx
  · intro m o
    rw [hcol.nodeNum, hcol.kind]
    exact h.pts_addr m o
  · exact h.handled_gep
  · intro d x hx
    rw [hcol.nodeNum]
    exact h.handled_lt d x hx

theorem nodeAdded (h : c.Shape G) (kind : NodeKind Obj Val) :
    NodeAdded c.graph (c.addCGNode kind).graph kind := (h.inv.addCGNode kind).2

theorem pts_addCGNode_of_lt {kind : NodeKind Obj Val} {n : NodeID} (hn : n < c.graph.nodeNum) :
    (c.addCGNode kind).pts n = c.pts n := by
  cases kind with
  | ptrNode p => exact if_neg hn.ne
  | objNode o => exact (if_neg (by lia)).trans (if_neg hn.ne)

/-- the points-to set of a node that is not new is as before; the new address node holds its object -/
theorem mem_pts_addCGNode {kind : NodeKind Obj Val} {n x : NodeID}
    (hx : x ∈ (c.addCGNode kind).pts n) :
    x ∈ c.pts n ∨ (n = c.graph.nodeNum + 1 ∧ x = c.graph.nodeNum ∧ ∃ o, kind = .objNode o) := by
  cases kind with
  | ptrNode p =>
    simp only [Core.addCGNode] at hx
    split at hx
    · cases hx
    · exact .inl hx
  | objNode o =>
    simp only [Core.addCGNode] at hx
    split at hx
    · exact .inr ⟨‹_›, Finset.mem_singleton.mp hx, o, rfl⟩
    · split at hx
      · cases hx
      · exact .inl hx

theorem isAddr_addCGNode (h : c.Shape G) (kind : NodeKind Obj Val) (n : NodeID) :
    (c.addCGNode kind).graph.IsAddr n ↔
      c.graph.IsAddr n ∨ (n = c.graph.nodeNum + 1 ∧ ∃ o, kind = .objNode o) := by
  have hadd := h.nodeAdded kind
  constructor
  · rintro ⟨m, o, rfl, hm, ho⟩
    rcases lt_trichotomy m c.graph.nodeNum with hlt | rfl | hlt
    · exact .inl ⟨m, o, rfl, hlt, (hadd.kind_old m hlt).symm.trans ho⟩
    · exact .inr ⟨rfl, o, hadd.kind_new.symm.trans ho⟩
    · rw [hadd.kind_addr m hlt hm] at ho
      cases ho
  · rintro (⟨m, o, rfl, hm, ho⟩ | ⟨rfl, o, rfl⟩)
    · exact ⟨m, o, rfl, hm.trans hadd.lt, (hadd.kind_old m hm).trans ho⟩
    · exact ⟨_, o, rfl, hadd.lt, hadd.kind_new⟩

/-- a new node; an object must not have one yet -/
theorem addCGNode (h : c.Shape G) (kind : NodeKind Obj Val)
    (hnew : ∀ o, kind = .objNode o → ∀ n < c.graph.nodeNum, c.graph.kind n ≠ .objNode o) :
    (c.addCGNode kind).Shape G := by
  have hadd := h.nodeAdded kind
  have hcopy := hadd.succ .copy (by decide)
  have hload := hadd.succ .load (by decide)
  have hoff := hadd.succ .offset (by decide)
  have haddr := h.isAddr_addCGNode kind
  have hfresh : ∀ k u, c.graph.nodeNum + 1 ∉ c.graph.succ k u := fun k u hu =>
    absurd (h.inv.edge_lt k u _ hu).2 (Nat.not_lt_of_le (Nat.le_succ _))
  refine ⟨(h.inv.addCGNode kind).1, h.addrNodes.addCGNode h.inv kind, ?_,
    h.uniq.nodeAdded hadd hnew, ?_, ?_, ?_, ?_, ?_, ?_, ?_⟩
  · refine ⟨fun u v huv => ?_, fun v hv => ?_, fun v hv x hx => ?_, fun v hv x hx => ?_,
      fun v hv x hx => ?_, fun v hv x hx => ?_⟩
    · rw [hoff] at huv
      exact h.wf.gep_target u v huv
    · obtain ⟨h1, h2⟩ := h.wf.gep_kind v hv
      rw [hadd.kind_old v h1]
      exact ⟨h1.trans hadd.lt, h2⟩
    · rw [hcopy] at hx
      exact (haddr x).mpr (.inl (h.wf.gep_copy v hv x hx))
    · rw [hload] at hx
      exact h.wf.gep_load v hv x hx
    · rw [hcopy] at hx
      rcases (haddr v).mp hv with hv | ⟨rfl, -⟩
      · exact h.wf.addr_copy v hv x hx
      · exact hfresh _ x hx
    · rw [hload] at hx
      rcases (haddr v).mp hv with hv | ⟨rfl, -⟩
      · exact h.wf.addr_load v hv x hx
      · exact hfresh _ x hx
  · intro n hn
    rw [hadd.superOf]
    rcases (haddr n).mp hn with hn | ⟨rfl, -⟩
    · exact h.addr_fixed n hn
    · refine ⟨?_, fun m hm => ?_⟩
      · cases hs : c.graph.superOf (c.graph.nodeNum + 1) with
        | none => rfl
        | some s => exact absurd (h.inv.sup_lt _ _ hs).1 (Nat.not_lt_of_le (Nat.le_succ _))
      · exact absurd (h.inv.sup_lt _ _ hm).2 (Nat.not_lt_of_le (Nat.le_succ _))
  · intro n hn
    rw [hadd.superOf]
    exact h.gep_fixed n hn
  · intro n x hx
    rcases mem_pts_addCGNode hx with hx | ⟨rfl, -, o, rfl⟩
    · exact (h.pts_lt n x hx).trans hadd.lt
    · exact lt_of_lt_of_eq (Nat.lt_succ_self _) hadd.nodeNum.symm
  · intro n x hx
    rcases mem_pts_addCGNode hx with hx | ⟨-, rfl, o, rfl⟩
    · obtain ⟨h1, o, h2⟩ := h.pts_obj n x hx
      exact ⟨h1.trans hadd.lt, o, (hadd.kind_old x h1).trans h2⟩
    · exact ⟨hadd.lt, o, hadd.kind_new⟩
  · intro m o hm ho
    rcases hadd.obj_cases hm ho with ⟨h1, h2⟩ | ⟨rfl, rfl⟩
    · rw [pts_addCGNode_of_lt (h.addrNodes m o h2 h1).1]
      exact h.pts_addr m o h1 h2
    · exact if_pos rfl
  · exact h.handled_gep
  · intro d x hx
    exact (h.handled_lt d x hx).trans hadd.lt

/-- every step keeps the shape -/
theorem step [DecidableEq Obj] {M : MemModel Obj Val} {w : Walk} {c' : Core Obj Val}
    (h : c.Shape G) (hs : Step M w c c') : c'.Shape G := by
  cases hs with
  | unionAll v new hnew => exact h.union hnew
  | clear n m hne hnm hmn => exact h.clear (h.not_addr_of_reach hmn hne.symm)
  | collapse scc s hnd hs hlen hr => exact h.collapse w hnd hs hlen hr
  | load x u v hx huv =>
    have hv := h.inv.target_none huv
    have hx' := h.pts_obj u x hx
    refine h.insertCopy (h.inv.getSuperNode_lt hx'.1) (h.inv.edge_lt _ _ _ huv).2 ?_ ?_
    · rw [getSuperNode_of_none hv]
      exact fun ha => h.wf.addr_load v ha u huv
    · rw [getSuperNode_of_none hv]
      exact fun hv => absurd huv (h.wf.gep_load v hv u)
  | store x u v hx huv =>
    obtain ⟨hlt, o, ho⟩ := h.pts_obj v x hx
    obtain ⟨h1, h2⟩ := h.rep_obj_not_fixed ho
    have hrep := getSuperNode_of_none (h.inv.superOf_getSuperNode x)
    refine h.insertCopy (h.inv.edge_lt _ _ _ huv).1 (h.inv.getSuperNode_lt hlt) ?_ ?_
    · rwa [hrep]
    · rw [hrep]
      exact fun h3 => absurd h3 h2
  | handled u d new hd hnew => exact h.handled hd hnew
  | field d x o f gep hx ho hd hf hnone =>
    refine h.addCGNode _ fun o' ho' n hn => ?_
    cases ho'
    exact findObj_eq_none hnone hn
  | addrOf d x i o f gep hx ho hd hf hi hif =>
    have hgep := h.handled_gep d x hx
    have haddr := isAddr_succ hi hif
    refine h.insertCopy (h.kind_of_isAddr haddr).2 (h.wf.gep_kind d hgep).1 ?_ ?_
    · rw [getSuperNode_of_none (h.gep_fixed d hgep).1]
      exact h.not_addr_of_gep hgep
    · rw [getSuperNode_of_none (h.addr_fixed _ haddr).1]
      exact fun _ => haddr
  | insert d x i o f gep hx ho hd hf hi hif => exact h.insertPts (h.handled_gep d x hx) hi hif

end Shape

end Core

end AserPTA
