import AserPTA.ConsGraph.Edges

/-!
# Collapsing is taking a quotient

`Inv` is the representation invariant of the constraint graph.  Under it

* `Inv.root`        `getSuperNode` reaches a node without super node;
* `Inv.mergeInto`   moving the edges of one node to the super node keeps `Inv`, and the new edges
                    are the images of the old ones under the map that sends the node to the super
                    node, less the copy edges from a node to itself (`Merged`);
* `Inv.collapse`    so does `collapseSCCTo`, with the map `target scc superNode`.
-/

namespace AserPTA

/-- where a collapse of `scc` sends a node -/
def target (scc : List NodeID) (superNode : NodeID) (n : NodeID) : NodeID :=
  if n ∈ scc then superNode else n

theorem target_of_mem {scc : List NodeID} {n : NodeID} (s : NodeID) (h : n ∈ scc) :
    target scc s n = s := if_pos h

theorem target_of_notMem {scc : List NodeID} {n : NodeID} (s : NodeID) (h : n ∉ scc) :
    target scc s n = n := if_neg h

theorem target_self (scc : List NodeID) (s : NodeID) : target scc s s = s := by
  unfold target; split <;> rfl

theorem target_cons (m : NodeID) (l : List NodeID) (s n : NodeID) :
    target l s (target [m] s n) = target (m :: l) s n := by
  by_cases hm : n = m
  · rw [target_of_mem s (List.mem_singleton.mpr hm), target_self, hm,
      target_of_mem s (List.mem_cons_self ..)]
  · rw [target_of_notMem s (fun h => hm (List.mem_singleton.mp h))]
    by_cases hl : n ∈ l
    · rw [target_of_mem s hl, target_of_mem s (List.mem_cons_of_mem _ hl)]
    · rw [target_of_notMem s hl, target_of_notMem s fun h => (List.mem_cons.mp h).elim hm hl]

theorem target_cons_self (l : List NodeID) (s n : NodeID) : target (s :: l) s n = target l s n := by
  by_cases hn : n = s
  · rw [hn, target_self, target_self]
  · rw [← target_cons, target_of_notMem s (show n ∉ [s] by simpa using hn)]

namespace ConsGraph

variable {Obj Val : Type} {g g' : ConsGraph Obj Val}

/-- the part of the invariant that says where edges are: all that taking the quotient needs -/
structure EdgesOk (g : ConsGraph Obj Val) : Prop where
  agree : Agree g
  /-- a merged node has no edge in either direction -/
  merged : ∀ u s, g.superOf u = some s → ∀ k v, v ∉ g.succ k u ∧ u ∉ g.succ k v
  noSelf : ∀ u, u ∉ g.succ .copy u

namespace EdgesOk

/-- the source of an edge is not merged -/
theorem source_none (h : EdgesOk g) {k : Constraints} {u v : NodeID} (huv : v ∈ g.succ k u) :
    g.superOf u = none := by
  cases hs : g.superOf u with
  | none => rfl
  | some s => exact absurd huv (h.merged u s hs k v).1

theorem target_none (h : EdgesOk g) {k : Constraints} {u v : NodeID} (huv : v ∈ g.succ k u) :
    g.superOf v = none := by
  cases hs : g.superOf v with
  | none => rfl
  | some s => exact absurd huv (h.merged v s hs k u).2

end EdgesOk

/-- the representation invariant -/
structure Inv (g : ConsGraph Obj Val) : Prop where
  agree : Agree g
  /-- a merged node has no edge in either direction -/
  merged : ∀ u s, g.superOf u = some s → ∀ k v, v ∉ g.succ k u ∧ u ∉ g.succ k v
  noSelf : ∀ u, u ∉ g.succ .copy u
  acyclic : Forward.Acyclic g.superOf
  sup_lt : ∀ u s, g.superOf u = some s → u < g.nodeNum ∧ s < g.nodeNum
  edge_lt : ∀ k u v, v ∈ g.succ k u → u < g.nodeNum ∧ v < g.nodeNum
  asserts : g.asserts = true

namespace Inv

theorem edgesOk (h : Inv g) : EdgesOk g := ⟨h.agree, h.merged, h.noSelf⟩

theorem root (h : Inv g) (n : NodeID) : Forward.Root g.superOf n (g.getSuperNode n) :=
  Forward.root_of_acyclic h.acyclic (s := Finset.range g.nodeNum)
    (fun a b hab => Finset.mem_range.mpr (h.sup_lt a b hab).1) (by simp) n

theorem superOf_getSuperNode (h : Inv g) (n : NodeID) : g.superOf (g.getSuperNode n) = none :=
  (h.root n).2

theorem getSuperNode_eq {n r : NodeID} (h : Inv g) (hr : Forward.Root g.superOf n r) :
    g.getSuperNode n = r := (h.root n).unique hr

theorem getSuperNode_lt {n : NodeID} (h : Inv g) (hn : n < g.nodeNum) :
    g.getSuperNode n < g.nodeNum := by
  rcases Relation.ReflTransGen.cases_tail (h.root n).1 with he | ⟨c, _, hc⟩
  · rw [he]; exact hn
  · exact (h.sup_lt c _ hc).2

theorem pred_lt (h : Inv g) {k : Constraints} {u v : NodeID} (huv : u ∈ g.pred k v) :
    u < g.nodeNum ∧ v < g.nodeNum :=
  h.edge_lt k u v ((h.agree k u v).mpr huv)

theorem source_none (h : Inv g) {k : Constraints} {u v : NodeID} (huv : v ∈ g.succ k u) :
    g.superOf u = none := h.edgesOk.source_none huv

theorem target_none (h : Inv g) {k : Constraints} {u v : NodeID} (huv : v ∈ g.succ k u) :
    g.superOf v = none := h.edgesOk.target_none huv

/-- the invariant only reads the nodes' kinds, super nodes and edges -/
theorem of_sameNodes (h : Inv g) (hs : SameNodes g g') (ha : Agree g')
    (hm : ∀ u s, g.superOf u = some s → ∀ k v, v ∉ g'.succ k u ∧ u ∉ g'.succ k v)
    (hn : ∀ u, u ∉ g'.succ .copy u)
    (hl : ∀ k u v, v ∈ g'.succ k u → u < g.nodeNum ∧ v < g.nodeNum)
    (has : g'.asserts = true) : Inv g' := by
  have hsup : g'.superOf = g.superOf := funext hs.superOf
  refine ⟨ha, ?_, hn, hsup ▸ h.acyclic, ?_, ?_, has⟩
  · intro u s hu
    exact hm u s (hsup ▸ hu)
  · intro u s hu
    rw [hs.nodeNum]
    exact h.sup_lt u s (hsup ▸ hu)
  · intro k u v huv
    rw [hs.nodeNum]
    exact hl k u v huv

/-- an insertion between two nodes of the graph -/
theorem insertConstraint (h : Inv g) {a b : NodeID} (ha : a < g.nodeNum) (hb : b < g.nodeNum)
    (k : Constraints) : Inv (g.insertConstraint a b k).1 := by
  refine h.of_sameNodes (insertConstraint_sameNodes a b k) (h.agree.insertConstraint a b k)
    ?_ ?_ ?_ ((h.agree.asserts_insertConstraint a b k).trans h.asserts)
  · intro u s hu k' v
    have hu1 : u ≠ g.getSuperNode a := by
      rintro rfl; rw [h.superOf_getSuperNode] at hu; cases hu
    have hu2 : u ≠ g.getSuperNode b := by
      rintro rfl; rw [h.superOf_getSuperNode] at hu; cases hu
    rw [mem_succ_insertConstraint, mem_succ_insertConstraint]
    have := h.merged u s hu k' v
    tauto
  · intro u
    rw [mem_succ_insertConstraint]
    rintro (h1 | ⟨hk, -, -, h1⟩)
    · exact h.noSelf u h1
    · exact h1 ⟨rfl, hk.symm⟩
  · intro k' u v
    rw [mem_succ_insertConstraint]
    rintro (h1 | ⟨-, rfl, rfl, -⟩)
    · exact h.edge_lt k' u v h1
    · exact ⟨h.getSuperNode_lt ha, h.getSuperNode_lt hb⟩

end Inv

/-- `g'` is `g` with the node `m` merged into `s` -/
structure Merged (g g' : ConsGraph Obj Val) (m s : NodeID) : Prop where
  nodeNum : g'.nodeNum = g.nodeNum
  kind : ∀ n, g'.kind n = g.kind n
  superOf : g'.superOf = Forward.link g.superOf m s
  indirect : ∀ n, g'.indirect n =
    if n = m then ∅ else if n = s then g.indirect s ∪ g.indirect m else g.indirect n
  succ : ∀ k u v, v ∈ g'.succ k u ↔
    (∃ a b, b ∈ g.succ k a ∧ target [m] s a = u ∧ target [m] s b = v) ∧ ¬ (u = v ∧ k = .copy)

theorem mem_predEdges (w : Walk) (n : NodeID) (k : Constraints) (u : NodeID) :
    (k, u) ∈ g.predEdges w n ↔ u ∈ g.pred k n := by
  simp [predEdges, List.mem_flatMap]

theorem mem_succEdges (w : Walk) (n : NodeID) (k : Constraints) (u : NodeID) :
    (k, u) ∈ g.succEdges w n ↔ u ∈ g.succ k n := by
  simp [succEdges, List.mem_flatMap]

section merge
variable (w : Walk) {m s : NodeID}

/-- the two loops of `mergeInto`: every edge of `m` gets a copy at `s` -/
theorem EdgesOk.moveEdges (h : EdgesOk g) (hs : g.superOf s = none) :
    let g1 := (g.predEdges w m).foldl (fun g e => (g.insertConstraint e.2 s e.1).1) g
    let g2 := (g1.succEdges w m).foldl (fun g e => (g.insertConstraint s e.2 e.1).1) g1
    SameNodes g g2 ∧ Agree g2 ∧ g2.asserts = g.asserts ∧ ∀ k u v, v ∈ g2.succ k u ↔
      v ∈ g.succ k u ∨ ((m ∈ g.succ k u ∧ v = s ∨ u = s ∧ v ∈ g.succ k m ∨
        u = s ∧ v = s ∧ m ∈ g.succ k m) ∧ ¬ (u = v ∧ k = .copy)) := by
  intro g1 g2
  have e1 : g1 = g.insertAll ((g.predEdges w m).map fun e => (e.1, e.2, s)) := by
    rw [insertAll, List.foldl_map]
  have e2 : g2 = g1.insertAll ((g1.succEdges w m).map fun e => (e.1, s, e.2)) := by
    rw [insertAll, List.foldl_map]
  have hsame1 : SameNodes g g1 := e1 ▸ insertAll_sameNodes _
  have hsame2 : SameNodes g1 g2 := e2 ▸ insertAll_sameNodes _
  obtain ⟨ha1, hs1⟩ := h.agree.insertAll ((g.predEdges w m).map fun e => (e.1, e.2, s))
  rw [← e1] at ha1 hs1
  obtain ⟨ha2, hs2⟩ := ha1.insertAll ((g1.succEdges w m).map fun e => (e.1, s, e.2))
  rw [← e2] at ha2 hs2
  have hsucc1 : ∀ k u v, v ∈ g1.succ k u ↔
      v ∈ g.succ k u ∨ (m ∈ g.succ k u ∧ v = s ∧ ¬ (u = v ∧ k = .copy)) := by
    intro k u v
    rw [e1, mem_succ_insertAll]
    · refine or_congr_right ⟨?_, ?_⟩
      · rintro ⟨h1, h2⟩
        obtain ⟨⟨k', x⟩, hx, he⟩ := List.mem_map.mp h1
        obtain ⟨rfl, rfl, rfl⟩ : k' = k ∧ x = u ∧ s = v := by simpa using he
        rw [mem_predEdges, ← h.agree] at hx
        exact ⟨hx, rfl, h2⟩
      · rintro ⟨h1, rfl, h2⟩
        refine ⟨List.mem_map.mpr ⟨(k, u), ?_, rfl⟩, h2⟩
        rw [mem_predEdges, ← h.agree]
        exact h1
    · intro e he
      obtain ⟨⟨k', x⟩, hx, rfl⟩ := List.mem_map.mp he
      rw [mem_predEdges, ← h.agree] at hx
      exact ⟨h.source_none hx, hs⟩
  have hsucc2 : ∀ k u v, v ∈ g2.succ k u ↔
      v ∈ g1.succ k u ∨ (u = s ∧ v ∈ g1.succ k m ∧ ¬ (u = v ∧ k = .copy)) := by
    intro k u v
    rw [e2, mem_succ_insertAll]
    · refine or_congr_right ⟨?_, ?_⟩
      · rintro ⟨h1, h2⟩
        obtain ⟨⟨k', x⟩, hx, he⟩ := List.mem_map.mp h1
        obtain ⟨rfl, rfl, rfl⟩ : k' = k ∧ s = u ∧ x = v := by simpa using he
        exact ⟨rfl, (mem_succEdges w m k' x).mp hx, h2⟩
      · rintro ⟨rfl, h1, h2⟩
        exact ⟨List.mem_map.mpr ⟨(k, v), (mem_succEdges w m k v).mpr h1, rfl⟩, h2⟩
    · intro e he
      obtain ⟨⟨k', x⟩, hx, rfl⟩ := List.mem_map.mp he
      rw [mem_succEdges, hsucc1] at hx
      rw [hsame1.superOf, hsame1.superOf]
      rcases hx with hx | ⟨-, rfl, -⟩
      · exact ⟨hs, h.target_none hx⟩
      · exact ⟨hs, hs⟩
  refine ⟨hsame1.trans hsame2, ha2, hs2.trans hs1, fun k u v => ?_⟩
  have hself := h.noSelf m
  rw [hsucc2, hsucc1, hsucc1]
  -- the edge of the first loop from `m` to `s` is moved again by the second loop
  grind

theorem EdgesOk.mergeInto (h : EdgesOk g) (hs : g.superOf s = none) (hms : m ≠ s) :
    EdgesOk (g.mergeInto w m s) ∧ Merged g (g.mergeInto w m s) m s ∧
      (g.mergeInto w m s).asserts = g.asserts := by
  obtain ⟨hsame, ha2, has2, hsucc2⟩ := h.moveEdges w (m := m) hs
  set g1 := (g.predEdges w m).foldl (fun g e => (g.insertConstraint e.2 s e.1).1) g with hg1
  set g2 := (g1.succEdges w m).foldl (fun g e => (g.insertConstraint s e.2 e.1).1) g1 with hg2
  let g3 := g2.modify s fun x =>
    { x with
      childNodes := x.childNodes ∪ (g2.node m).childNodes
      indirectNodes := x.indirectNodes ∪ (g2.node m).indirectNodes }
  let g4 := g3.modify m fun x => { x with indirectNodes := ∅, childNodes := ∅ }
  let g5 := g4.clearConstraints w m
  have hfin : g.mergeInto w m s = g5.setSuperNode m s := rfl
  have hsucc4 : ∀ k u, g4.succ k u = g2.succ k u := by
    intro k u
    by_cases h1 : u = m <;> by_cases h2 : u = s <;>
      simp [g4, g3, modify, ConsGraph.succ, h1, h2, hms, hms.symm]
  have hpred4 : ∀ k u, g4.pred k u = g2.pred k u := by
    intro k u
    by_cases h1 : u = m <;> by_cases h2 : u = s <;>
      simp [g4, g3, modify, ConsGraph.pred, h1, h2, hms, hms.symm]
  have ha4 : Agree g4 := fun k u v => by rw [hsucc4, hpred4, ha2]
  obtain ⟨has5, hsucc5, ha5⟩ := ha4.clearConstraints w m
  have hsame5 : SameNodes g4 g5 := clearConstraints_sameNodes w m
  have hsuccF : ∀ k u, (g.mergeInto w m s).succ k u = g5.succ k u := by
    intro k u
    by_cases h1 : u = m <;> simp [hfin, setSuperNode, modify, ConsGraph.succ, h1]
  have hpredF : ∀ k u, (g.mergeInto w m s).pred k u = g5.pred k u := by
    intro k u
    by_cases h1 : u = m <;> simp [hfin, setSuperNode, modify, ConsGraph.pred, h1]
  have hkind : ∀ n, (g.mergeInto w m s).kind n = g.kind n := by
    intro n
    have h1 : (g.mergeInto w m s).kind n = g5.kind n := by
      by_cases h1 : n = m <;> simp [hfin, setSuperNode, modify, ConsGraph.kind, h1]
    have h2 : g4.kind n = g2.kind n := by
      by_cases h1 : n = m <;> by_cases h2 : n = s <;>
        simp [g4, g3, modify, ConsGraph.kind, h1, h2, hms, hms.symm]
    rw [h1, hsame5.kind, h2, hsame.kind]
  have hsup : (g.mergeInto w m s).superOf = Forward.link g.superOf m s := by
    funext n
    by_cases h1 : n = m
    · rw [h1, Forward.link_self]
      simp [hfin, setSuperNode, modify, ConsGraph.superOf]
    · have h2 : (g.mergeInto w m s).superOf n = g5.superOf n := by
        simp [hfin, setSuperNode, modify, ConsGraph.superOf, h1]
      have h3 : g4.superOf n = g2.superOf n := by
        by_cases h3 : n = s <;> simp [g4, g3, modify, ConsGraph.superOf, h1, h3, hms.symm]
      rw [h2, hsame5.superOf, h3, hsame.superOf, Forward.link_of_ne h1]
  have hind : ∀ n, (g.mergeInto w m s).indirect n =
      if n = m then ∅ else if n = s then g.indirect s ∪ g.indirect m else g.indirect n := by
    intro n
    have h1 : (g.mergeInto w m s).indirect n = g5.indirect n := by
      by_cases h1 : n = m <;> simp [hfin, setSuperNode, modify, ConsGraph.indirect, h1]
    rw [h1, hsame5.indirect]
    by_cases h1 : n = m
    · simp [g4, modify, ConsGraph.indirect, h1]
    · by_cases h2 : n = s
      · have := hsame.indirect m
        have := hsame.indirect s
        simp_all [g4, g3, modify, ConsGraph.indirect]
      · have := hsame.indirect n
        simp_all [g4, g3, modify, ConsGraph.indirect]
  have hsucc : ∀ k u v, v ∈ (g.mergeInto w m s).succ k u ↔
      (∃ a b, b ∈ g.succ k a ∧ target [m] s a = u ∧ target [m] s b = v) ∧
        ¬ (u = v ∧ k = .copy) := by
    intro k u v
    rw [hsuccF, hsucc5, hsucc4, hsucc2]
    constructor
    · rintro ⟨h1, hu, hv⟩
      have tu : target [m] s u = u := target_of_notMem s (by simpa using hu)
      have tv : target [m] s v = v := target_of_notMem s (by simpa using hv)
      have tm : target [m] s m = s := target_of_mem s (List.mem_singleton_self m)
      rcases h1 with h1 | ⟨⟨h1, rfl⟩ | ⟨rfl, h1⟩ | ⟨rfl, rfl, h1⟩, h2⟩
      · refine ⟨⟨u, v, h1, tu, tv⟩, ?_⟩
        rintro ⟨rfl, rfl⟩
        exact h.noSelf u h1
      · exact ⟨⟨u, m, h1, tu, tm⟩, h2⟩
      · exact ⟨⟨m, v, h1, tm, tv⟩, h2⟩
      · exact ⟨⟨m, m, h1, tm, tm⟩, h2⟩
    · rintro ⟨⟨a, b, hab, rfl, rfl⟩, h2⟩
      have hne : ∀ x, target [m] s x ≠ m := by
        intro x
        by_cases hx : x = m
        · rw [target_of_mem s (List.mem_singleton.mpr hx)]; exact hms.symm
        · rw [target_of_notMem s (by simpa using hx)]; exact hx
      refine ⟨?_, hne a, hne b⟩
      by_cases ha : a = m <;> by_cases hb : b = m
      · subst ha; subst hb
        rw [target_of_mem s (List.mem_singleton_self _)] at h2 ⊢
        exact .inr ⟨.inr (.inr ⟨rfl, rfl, hab⟩), h2⟩
      · subst ha
        rw [target_of_mem s (List.mem_singleton_self _),
          target_of_notMem s (by simpa using hb)] at h2 ⊢
        exact .inr ⟨.inr (.inl ⟨rfl, hab⟩), h2⟩
      · subst hb
        rw [target_of_mem s (List.mem_singleton_self _),
          target_of_notMem s (by simpa using ha)] at h2 ⊢
        exact .inr ⟨.inl ⟨hab, rfl⟩, h2⟩
      · rw [target_of_notMem s (by simpa using ha), target_of_notMem s (by simpa using hb)]
        exact .inl hab
  have hnum : (g.mergeInto w m s).nodeNum = g.nodeNum := hsame5.nodeNum.trans hsame.nodeNum
  refine ⟨⟨?_, ?_, ?_⟩, ⟨hnum, hkind, hsup, hind, hsucc⟩, has5.trans has2⟩
  · intro k u v
    rw [hsuccF, hpredF, ha5]
  · intro u r hu k v
    rw [hsuccF, hsuccF, hsucc5, hsucc5]
    by_cases hum : u = m
    · exact ⟨fun h1 => h1.2.1 hum, fun h1 => h1.2.2 hum⟩
    · rw [hsup, Forward.link_of_ne hum] at hu
      have hus : u ≠ s := by rintro rfl; rw [hs] at hu; cases hu
      have h1 := h.merged u r hu
      rw [hsucc4, hsucc4, hsucc2, hsucc2]
      have h2 := h1 k v
      have h3 := h1 k m
      tauto
  · intro u hu
    exact ((hsucc .copy u u).mp hu).2 ⟨rfl, rfl⟩

theorem Inv.mergeInto (h : Inv g) (hs : g.superOf s = none) (hms : m ≠ s) (hml : m < g.nodeNum)
    (hsl : s < g.nodeNum) : Inv (g.mergeInto w m s) := by
  obtain ⟨he, hg, has⟩ := h.edgesOk.mergeInto w hs hms
  refine ⟨he.agree, he.merged, he.noSelf, ?_, ?_, ?_, has.trans h.asserts⟩
  · rw [hg.superOf]
    exact Forward.Acyclic.link hs hms h.acyclic
  · intro u r hu
    rw [hg.nodeNum]
    by_cases hum : u = m
    · rw [hg.superOf, hum, Forward.link_self] at hu
      rw [hum, ← Option.some.inj hu]
      exact ⟨hml, hsl⟩
    · rw [hg.superOf, Forward.link_of_ne hum] at hu
      exact h.sup_lt u r hu
  · intro k u v huv
    rw [hg.nodeNum]
    obtain ⟨⟨a, b, hab, rfl, rfl⟩, -⟩ := (hg.succ k u v).mp huv
    have hlt : ∀ x, x < g.nodeNum → target [m] s x < g.nodeNum := by
      intro x hx
      unfold target
      split
      · exact hsl
      · exact hx
    exact ⟨hlt a (h.edge_lt k a b hab).1, hlt b (h.edge_lt k a b hab).2⟩

end merge

/-- `g'` is the quotient of `g` that sends the nodes `scc` to `s` -/
structure Quotient (g g' : ConsGraph Obj Val) (scc : List NodeID) (s : NodeID) : Prop where
  nodeNum : g'.nodeNum = g.nodeNum
  kind : ∀ n, g'.kind n = g.kind n
  superOf : ∀ n, g'.superOf n = if n ∈ scc ∧ n ≠ s then some s else g.superOf n
  indirect : ∀ n c, c ∈ g'.indirect n ↔
    (n = s ∧ ∃ m, (m = s ∨ m ∈ scc) ∧ c ∈ g.indirect m) ∨ (n ≠ s ∧ n ∉ scc ∧ c ∈ g.indirect n)
  succ : ∀ k u v, v ∈ g'.succ k u ↔
    (∃ a b, b ∈ g.succ k a ∧ target scc s a = u ∧ target scc s b = v) ∧ ¬ (u = v ∧ k = .copy)

/-- `g'` is `g` with the nodes `scc` collapsed to `s` -/
structure Collapsed (g g' : ConsGraph Obj Val) (scc : List NodeID) (s : NodeID) : Prop where
  nodeNum : g'.nodeNum = g.nodeNum
  kind : ∀ n, g'.kind n = g.kind n
  superOf : ∀ n, g'.superOf n = if n ∈ scc ∧ n ≠ s then some s else g.superOf n
  indirect : ∀ n c, c ∈ g'.indirect n ↔
    (n = s ∧ ∃ m, (m = s ∨ m ∈ scc) ∧ c ∈ g.indirect m) ∨ (n ≠ s ∧ n ∉ scc ∧ c ∈ g.indirect n)
  succ : ∀ k u v, v ∈ g'.succ k u ↔
    (∃ a b, b ∈ g.succ k a ∧ target scc s a = u ∧ target scc s b = v) ∧ ¬ (u = v ∧ k = .copy)
  getSuperNode : ∀ n, g'.getSuperNode n = target scc s (g.getSuperNode n)

theorem Inv.getSuperNode_merged (h : Inv g) (h' : Inv g') {m s : NodeID} (hm : g.superOf m = none)
    (hs : g.superOf s = none) (hms : m ≠ s) (hg : Merged g g' m s) (n : NodeID) :
    g'.getSuperNode n = target [m] s (g.getSuperNode n) := by
  refine h'.getSuperNode_eq ?_
  have hr := (h.root n).link hm hs hms
  rw [← hg.superOf] at hr
  by_cases hn : g.getSuperNode n = m
  · rwa [if_pos hn, ← target_of_mem s (List.mem_singleton.mpr hn)] at hr
  · have hn' : g.getSuperNode n ∉ [m] := by simpa using hn
    rwa [if_neg hn, ← target_of_notMem s hn'] at hr

theorem collapseSCCTo_cons (w : Walk) (m : NodeID) (l : List NodeID) (s : NodeID) :
    g.collapseSCCTo w (m :: l) s =
      (if m = s then g else g.mergeInto w m s).collapseSCCTo w l s := rfl

/-- The edges, super nodes and call sets of a collapse; the list holds distinct nodes, none of them
merged.  The induction is on the list: the nodes after the first are not merged by merging the
first, and the quotients compose (`target_cons`). -/
theorem EdgesOk.collapse (w : Walk) {s : NodeID} (l : List NodeID) (h : EdgesOk g) (hnd : l.Nodup)
    (hs : g.superOf s = none) (hl : ∀ n ∈ l, g.superOf n = none) :
    EdgesOk (g.collapseSCCTo w l s) ∧ Quotient g (g.collapseSCCTo w l s) l s := by
  induction l generalizing g with
  | nil =>
    refine ⟨h, rfl, fun _ => rfl, fun n => ?_, fun n c => ?_, fun k u v => ?_⟩
    · simp [collapseSCCTo]
    · by_cases hn : n = s <;> simp [collapseSCCTo, hn]
    · simp only [collapseSCCTo, List.foldl_nil, target_of_notMem s List.not_mem_nil]
      constructor
      · intro huv
        refine ⟨⟨u, v, huv, rfl, rfl⟩, ?_⟩
        rintro ⟨rfl, rfl⟩
        exact h.noSelf u huv
      · rintro ⟨⟨a, b, hab, rfl, rfl⟩, -⟩
        exact hab
  | cons m l ih =>
    obtain ⟨hml, hnd'⟩ := List.nodup_cons.mp hnd
    rw [collapseSCCTo_cons]
    by_cases hms : m = s
    · obtain ⟨h1, h2⟩ := ih h hnd' hs fun n hn => hl n (List.mem_cons_of_mem _ hn)
      rw [if_pos hms]
      refine ⟨h1, h2.nodeNum, h2.kind, fun n => ?_, fun n c => ?_, fun k u v => ?_⟩
      · rw [h2.superOf]
        by_cases hn : n = s <;> simp [hn, hms]
      · rw [h2.indirect]
        grind
      · rw [h2.succ]
        simp only [hms, target_cons_self]
    · rw [if_neg hms]
      obtain ⟨h1, hg, -⟩ := h.mergeInto w hs hms
      have hsup : ∀ n, n ≠ m → (g.mergeInto w m s).superOf n = g.superOf n := by
        intro n hn
        rw [hg.superOf, Forward.link_of_ne hn]
      obtain ⟨h2, h3⟩ := ih h1 hnd' ((hsup s (Ne.symm hms)).trans hs) (by
        intro n hn
        have hnm : n ≠ m := fun e => hml (e ▸ hn)
        rw [hsup n hnm]
        exact hl n (List.mem_cons_of_mem _ hn))
      refine ⟨h2, h3.nodeNum.trans hg.nodeNum, fun n => (h3.kind n).trans (hg.kind n),
        fun n => ?_, fun n c => ?_, fun k u v => ?_⟩
      · rw [h3.superOf, hg.superOf]
        by_cases hn : n = m
        · simp [hn, hml, hms, Forward.link_self]
        · simp [hn, Forward.link_of_ne hn]
      · rw [h3.indirect]
        simp only [hg.indirect]
        grind
      · rw [h3.succ]
        refine and_congr_left fun hne => ?_
        constructor
        · rintro ⟨a, b, hab, rfl, rfl⟩
          obtain ⟨⟨a', b', hab', rfl, rfl⟩, -⟩ := (hg.succ k a b).mp hab
          exact ⟨a', b', hab', (target_cons ..).symm, (target_cons ..).symm⟩
        · rintro ⟨a, b, hab, rfl, rfl⟩
          refine ⟨target [m] s a, target [m] s b, (hg.succ k _ _).mpr ⟨⟨a, b, hab, rfl, rfl⟩, ?_⟩,
            target_cons .., target_cons ..⟩
          rintro ⟨he, rfl⟩
          exact hne ⟨by rw [← target_cons, he, target_cons], rfl⟩

/-- the full invariant, and where `getSuperNode` leads -/
theorem Inv.collapse (w : Walk) {s : NodeID} (l : List NodeID) (h : Inv g) (hnd : l.Nodup)
    (hs : g.superOf s = none) (hsl : s < g.nodeNum)
    (hl : ∀ n ∈ l, n < g.nodeNum ∧ g.superOf n = none) :
    Inv (g.collapseSCCTo w l s) ∧ Collapsed g (g.collapseSCCTo w l s) l s := by
  have hq := (h.edgesOk.collapse w l hnd hs fun n hn => (hl n hn).2).2
  suffices hg : Inv (g.collapseSCCTo w l s) ∧
      ∀ n, (g.collapseSCCTo w l s).getSuperNode n = target l s (g.getSuperNode n) from
    ⟨hg.1, hq.nodeNum, hq.kind, hq.superOf, hq.indirect, hq.succ, hg.2⟩
  clear hq
  induction l generalizing g with
  | nil => exact ⟨h, fun n => (target_of_notMem s List.not_mem_nil).symm⟩
  | cons m l ih =>
    obtain ⟨hml, hnd'⟩ := List.nodup_cons.mp hnd
    obtain ⟨hmlt, hm⟩ := hl m (List.mem_cons_self ..)
    rw [collapseSCCTo_cons]
    by_cases hms : m = s
    · obtain ⟨h1, h2⟩ := ih h hnd' hs hsl fun n hn => hl n (List.mem_cons_of_mem _ hn)
      rw [if_pos hms]
      refine ⟨h1, fun n => ?_⟩
      rw [h2, hms, target_cons_self]
    · rw [if_neg hms]
      have hg := (h.edgesOk.mergeInto w hs hms).2.1
      have h1 := h.mergeInto w hs hms hmlt hsl
      have hsup : ∀ n, n ≠ m → (g.mergeInto w m s).superOf n = g.superOf n := by
        intro n hn
        rw [hg.superOf, Forward.link_of_ne hn]
      obtain ⟨h2, h3⟩ := ih h1 hnd' ((hsup s (Ne.symm hms)).trans hs) (hg.nodeNum ▸ hsl) (by
        intro n hn
        have hnm : n ≠ m := fun e => hml (e ▸ hn)
        rw [hg.nodeNum, hsup n hnm]
        exact hl n (List.mem_cons_of_mem _ hn))
      refine ⟨h2, fun n => ?_⟩
      rw [h3, h.getSuperNode_merged h1 hm hs hms hg, target_cons]

end ConsGraph

end AserPTA
