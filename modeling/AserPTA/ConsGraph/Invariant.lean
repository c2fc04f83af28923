import AserPTA.ConsGraph.Quotient

/-!
# The representation invariant of every reachable graph

Every call of the graph's interface keeps `Inv` (`Inv.apply`), so it holds of every graph that a
sequence of calls builds (`Reachable.inv`).
-/

namespace AserPTA

variable {Obj Val : Type}

namespace ConsGraph

variable {g g' : ConsGraph Obj Val}

/-! ## new nodes -/

section addNewNode
variable (kind : NodeKind Obj Val)

@[simp] theorem nodeNum_addNewNode : (g.addNewNode kind).nodeNum = g.nodeNum + 1 := rfl

theorem kind_addNewNode (n : NodeID) :
    (g.addNewNode kind).kind n = if n = g.nodeNum then kind else g.kind n := by
  by_cases h : n = g.nodeNum <;> simp [addNewNode, ConsGraph.kind, h]

theorem superOf_addNewNode (n : NodeID) :
    (g.addNewNode kind).superOf n = if n = g.nodeNum then none else g.superOf n := by
  by_cases h : n = g.nodeNum <;> simp [addNewNode, superOf, h]

theorem succ_addNewNode (k : Constraints) (n : NodeID) :
    (g.addNewNode kind).succ k n = if n = g.nodeNum then ∅ else g.succ k n := by
  by_cases h : n = g.nodeNum <;> simp [addNewNode, succ, h]

theorem pred_addNewNode (k : Constraints) (n : NodeID) :
    (g.addNewNode kind).pred k n = if n = g.nodeNum then ∅ else g.pred k n := by
  by_cases h : n = g.nodeNum <;> simp [addNewNode, pred, h]

theorem indirect_addNewNode (n : NodeID) :
    (g.addNewNode kind).indirect n = if n = g.nodeNum then ∅ else g.indirect n := by
  by_cases h : n = g.nodeNum <;> simp [addNewNode, indirect, h]

end addNewNode

/-- no edge touches the next node, which is not merged -/
theorem Inv.fresh (h : Inv g) :
    g.superOf g.nodeNum = none ∧ (∀ k, g.succ k g.nodeNum = ∅) ∧ ∀ k, g.pred k g.nodeNum = ∅ := by
  refine ⟨?_, fun k => ?_, fun k => ?_⟩
  · cases hs : g.superOf g.nodeNum with
    | none => rfl
    | some s => exact absurd (h.sup_lt _ _ hs).1 (lt_irrefl _)
  · refine Finset.eq_empty_of_forall_notMem fun v hv => ?_
    exact absurd (h.edge_lt k _ v hv).1 (lt_irrefl _)
  · refine Finset.eq_empty_of_forall_notMem fun u hu => ?_
    exact absurd (h.pred_lt hu).2 (lt_irrefl _)

/-- the new node has no edge and is not merged, so the three maps are as before -/
theorem Inv.maps_addNewNode (h : Inv g) (kind : NodeKind Obj Val) :
    (g.addNewNode kind).superOf = g.superOf ∧ (g.addNewNode kind).succ = g.succ ∧
      (g.addNewNode kind).pred = g.pred := by
  obtain ⟨h1, h2, h3⟩ := h.fresh
  refine ⟨funext fun n => ?_, funext fun k => funext fun n => ?_, funext fun k => funext fun n => ?_⟩
  · rw [superOf_addNewNode]
    split
    · rename_i hn; rw [hn, h1]
    · rfl
  · rw [succ_addNewNode]
    split
    · rename_i hn; rw [hn, h2]
    · rfl
  · rw [pred_addNewNode]
    split
    · rename_i hn; rw [hn, h3]
    · rfl

theorem Inv.addNewNode (h : Inv g) (kind : NodeKind Obj Val) : Inv (g.addNewNode kind) := by
  obtain ⟨h1, h2, h3⟩ := h.maps_addNewNode kind
  refine ⟨?_, ?_, ?_, h1 ▸ h.acyclic, ?_, ?_, h.asserts⟩
  · intro k u v
    rw [h2, h3, h.agree]
  · intro u s hu
    rw [h2]
    exact h.merged u s (h1 ▸ hu)
  · intro u
    rw [h2]
    exact h.noSelf u
  · intro u s hu
    have := h.sup_lt u s (h1 ▸ hu)
    exact ⟨Nat.lt_succ_of_lt this.1, Nat.lt_succ_of_lt this.2⟩
  · intro k u v huv
    rw [h2] at huv
    have := h.edge_lt k u v huv
    exact ⟨Nat.lt_succ_of_lt this.1, Nat.lt_succ_of_lt this.2⟩

/-- convention: the node after an object node is anonymous -/
def AddrNodes (g : ConsGraph Obj Val) : Prop :=
  ∀ n o, g.kind n = .objNode o → n < g.nodeNum → n + 1 < g.nodeNum ∧ g.kind (n + 1) = .ptrNode none

theorem AddrNodes.of_eq (h : AddrNodes g) (hn : g'.nodeNum = g.nodeNum)
    (hk : ∀ n, g'.kind n = g.kind n) : AddrNodes g' := by
  intro n o
  rw [hn, hk, hk]
  exact h n o

/-! ## the three calls -/

/-- the graph after `addCGNode`: the new nodes carry no edge but the one of kind `addrOf` -/
structure NodeAdded (g g' : ConsGraph Obj Val) (kind : NodeKind Obj Val) : Prop where
  lt : g.nodeNum < g'.nodeNum
  nodeNum : g'.nodeNum = g.nodeNum + match kind with | .ptrNode _ => 1 | .objNode _ => 2
  kind_old : ∀ n, n < g.nodeNum → g'.kind n = g.kind n
  kind_new : g'.kind g.nodeNum = kind
  kind_addr : ∀ n, g.nodeNum < n → n < g'.nodeNum → g'.kind n = .ptrNode none
  superOf : g'.superOf = g.superOf
  getSuperNode : ∀ n, g'.getSuperNode n = g.getSuperNode n
  indirect : ∀ n, n < g.nodeNum → g'.indirect n = g.indirect n
  indirect_new : ∀ n, g.nodeNum ≤ n → n < g'.nodeNum → g'.indirect n = ∅
  succ : ∀ k, k ≠ .addrOf → ∀ n, g'.succ k n = g.succ k n

theorem Inv.addCGNode (h : Inv g) (kind : NodeKind Obj Val) :
    Inv (g.addCGNode kind) ∧ NodeAdded g (g.addCGNode kind) kind := by
  cases kind with
  | ptrNode p =>
    have h1 := h.addNewNode (.ptrNode p)
    obtain ⟨hsup, hsucc, -⟩ := h.maps_addNewNode (.ptrNode p)
    refine ⟨h1, Nat.lt_succ_self _, rfl, fun n hn => ?_, ?_, fun n hn hn' => ?_, hsup, fun n => ?_,
      fun n hn => ?_, fun n hn hn' => ?_, fun k _ n => ?_⟩
    · exact (kind_addNewNode ..).trans (if_neg hn.ne)
    · exact (kind_addNewNode ..).trans (if_pos rfl)
    · exact absurd (Nat.lt_succ_iff.mp hn') (Nat.not_le_of_lt hn)
    · exact h1.getSuperNode_eq (hsup ▸ h.root n)
    · exact (indirect_addNewNode ..).trans (if_neg hn.ne)
    · have hn'' : n < g.nodeNum + 1 := hn'
      exact (indirect_addNewNode ..).trans (if_pos (by lia))
    · exact congrFun (congrFun hsucc k) n
  | objNode o =>
    set g1 := g.addNewNode (.objNode o) with hg1
    set g2 := g1.addNewNode (.ptrNode none) with hg2
    have h1 : Inv g1 := h.addNewNode (.objNode o)
    have h2 : Inv g2 := h1.addNewNode (.ptrNode none)
    have h3 : Inv (g2.insertConstraint g.nodeNum (g.nodeNum + 1) .addrOf).1 :=
      h2.insertConstraint (show g.nodeNum < g.nodeNum + 2 by omega) (Nat.lt_succ_self _) _
    obtain ⟨hsup1, hsucc1, -⟩ := h.maps_addNewNode (.objNode o)
    obtain ⟨hsup2, hsucc2, -⟩ := h1.maps_addNewNode (.ptrNode none)
    have hs := insertConstraint_sameNodes (g := g2) g.nodeNum (g.nodeNum + 1) .addrOf
    have hsup : (g2.insertConstraint g.nodeNum (g.nodeNum + 1) .addrOf).1.superOf = g.superOf :=
      (funext hs.superOf).trans (hsup2.trans hsup1)
    have hnum : (g2.insertConstraint g.nodeNum (g.nodeNum + 1) .addrOf).1.nodeNum = g.nodeNum + 2 :=
      hs.nodeNum
    have hk : ∀ n, (g2.insertConstraint g.nodeNum (g.nodeNum + 1) .addrOf).1.kind n =
        if n = g.nodeNum + 1 then .ptrNode none
        else if n = g.nodeNum then .objNode o else g.kind n := by
      intro n
      rw [hs.kind, kind_addNewNode, kind_addNewNode]
      rfl
    have hi : ∀ n, (g2.insertConstraint g.nodeNum (g.nodeNum + 1) .addrOf).1.indirect n =
        if n = g.nodeNum + 1 then ∅ else if n = g.nodeNum then ∅ else g.indirect n := by
      intro n
      rw [hs.indirect, indirect_addNewNode, indirect_addNewNode]
      rfl
    refine ⟨h3, ?_, hnum, fun n hn => ?_, ?_, fun n hn hn' => ?_, hsup, fun n => ?_,
      fun n hn => ?_, fun n hn hn' => ?_, fun k hk' n => ?_⟩
    · exact lt_of_lt_of_eq (show g.nodeNum < g.nodeNum + 2 by omega) hnum.symm
    · exact (hk n).trans (by rw [if_neg (by lia), if_neg (by lia)])
    · exact (hk g.nodeNum).trans (by rw [if_neg (by lia), if_pos rfl])
    · have hn'' : n < g.nodeNum + 2 := lt_of_lt_of_eq hn' hnum
      exact (hk n).trans (if_pos (by lia))
    · exact h3.getSuperNode_eq (hsup ▸ h.root n)
    · exact (hi n).trans (by rw [if_neg (by lia), if_neg (by lia)])
    · have hn'' : n < g.nodeNum + 2 := lt_of_lt_of_eq hn' hnum
      refine (hi n).trans ?_
      split
      · rfl
      · exact if_pos (by lia)
    · ext v
      show v ∈ (g2.insertConstraint _ _ _).1.succ k n ↔ _
      rw [mem_succ_insertConstraint, hsucc2, hsucc1]
      simp [hk']

theorem AddrNodes.addCGNode (ha : AddrNodes g) (h : Inv g) (kind : NodeKind Obj Val) :
    AddrNodes (g.addCGNode kind) := by
  have hadd := (h.addCGNode kind).2
  have hnum := hadd.nodeNum
  intro n o hn hlt
  rcases lt_trichotomy n g.nodeNum with hnn | rfl | hnn
  · rw [hadd.kind_old n hnn] at hn
    obtain ⟨h1, h2⟩ := ha n o hn hnn
    exact ⟨h1.trans hadd.lt, (hadd.kind_old _ h1).trans h2⟩
  · obtain rfl : kind = .objNode o := hadd.kind_new.symm.trans hn
    have h1 : g.nodeNum + 1 < (g.addCGNode (.objNode o)).nodeNum :=
      lt_of_lt_of_eq (Nat.lt_succ_self _) hnum.symm
    exact ⟨h1, hadd.kind_addr _ (Nat.lt_succ_self _) h1⟩
  · rw [hadd.kind_addr n hnn hlt] at hn
    cases hn

theorem addConstraints_fst (src dst : NodeID) (c : Constraints) :
    (g.addConstraints src dst c).1 =
      (g.insertConstraint (if c = .addrOf then src + 1 else src) dst
        (if c = .addrOf then .copy else c)).1 := by
  rw [addConstraints]
  split
  · rename_i h
    rw [h.1, h.2]
    simp [insertConstraint]
  · split <;> rfl

theorem Inv.addConstraints (h : Inv g) (ha : AddrNodes g) {src dst : NodeID} {c : Constraints}
    (hsrc : src < g.nodeNum) (hdst : dst < g.nodeNum)
    (ho : c = .addrOf → ∃ o, g.kind src = .objNode o) : Inv (g.addConstraints src dst c).1 := by
  rw [addConstraints_fst]
  refine h.insertConstraint ?_ hdst _
  split
  · rename_i hc
    obtain ⟨o, ho⟩ := ho hc
    exact (ha src o ho hsrc).1
  · exact hsrc

/-! ## function pointers -/

/-- only the call nodes of one node change -/
theorem maps_setIndirectCallNode (n : NodeID) (c : CallNodeID) :
    (g.setIndirectCallNode n c).kind = g.kind ∧ (g.setIndirectCallNode n c).superOf = g.superOf ∧
      (g.setIndirectCallNode n c).succ = g.succ ∧ (g.setIndirectCallNode n c).pred = g.pred := by
  refine ⟨funext fun m => ?_, funext fun m => ?_, funext fun k => funext fun m => ?_,
    funext fun k => funext fun m => ?_⟩
  all_goals
    by_cases h : m = n
    · simp [setIndirectCallNode, modify, ConsGraph.kind, superOf, succ, pred, h]
    · simp [setIndirectCallNode, modify, ConsGraph.kind, superOf, succ, pred, h]

theorem indirect_setIndirectCallNode (n : NodeID) (c : CallNodeID) (m : NodeID) :
    (g.setIndirectCallNode n c).indirect m =
      if m = n then insert c (g.indirect m) else g.indirect m := by
  by_cases h : m = n <;> simp [setIndirectCallNode, modify, indirect, h]

theorem getSuperNode_setIndirectCallNode (n : NodeID) (c : CallNodeID) (m : NodeID) :
    (g.setIndirectCallNode n c).getSuperNode m = g.getSuperNode m := by
  rw [getSuperNode, (maps_setIndirectCallNode n c).2.1]
  rfl

theorem Inv.setIndirectCallNode (h : Inv g) (n : NodeID) (c : CallNodeID) :
    Inv (g.setIndirectCallNode n c) := by
  obtain ⟨-, h2, h3, h4⟩ := maps_setIndirectCallNode (g := g) n c
  refine ⟨?_, ?_, ?_, h2 ▸ h.acyclic, ?_, ?_, h.asserts⟩
  · rw [Agree, h3, h4]
    exact h.agree
  · rw [h2, h3]
    exact h.merged
  · rw [h3]
    exact h.noSelf
  · rw [h2]
    exact h.sup_lt
  · rw [h3]
    exact h.edge_lt

end ConsGraph

/-- one call keeps the invariant -/
theorem Op.inv_apply (w : Walk) {g : ConsGraph Obj Val} (op : Op Obj Val) (hop : op.Legal g)
    (h : g.Inv) (ha : g.AddrNodes) : (op.apply w g).Inv ∧ (op.apply w g).AddrNodes := by
  cases op with
  | addCGNode kind => exact ⟨(h.addCGNode kind).1, ha.addCGNode h kind⟩
  | addConstraints src dst c =>
    obtain ⟨hsrc, hdst, ho⟩ := hop
    refine ⟨h.addConstraints ha hsrc hdst ho, ?_⟩
    have hs := ConsGraph.insertConstraint_sameNodes (g := g) (if c = .addrOf then src + 1 else src)
      dst (if c = .addrOf then .copy else c)
    rw [← ConsGraph.addConstraints_fst] at hs
    exact ha.of_eq hs.nodeNum hs.kind
  | collapseSCCTo scc superNode =>
    obtain ⟨hnd, hmem, hscc⟩ := hop
    have hs := hscc superNode hmem
    obtain ⟨h1, h2⟩ := h.collapse w scc hnd hs.2 hs.1 hscc
    exact ⟨h1, ha.of_eq h2.nodeNum h2.kind⟩

theorem ConsGraph.Inv.empty : (({} : ConsGraph Obj Val)).Inv := by
  refine ⟨fun k u v => ?_, fun u s hu => ?_, fun u hu => ?_, fun n hn => ?_, fun u s hu => ?_,
    fun k u v huv => ?_, rfl⟩
  · simp [ConsGraph.succ, ConsGraph.pred]
  · simp [ConsGraph.superOf] at hu
  · simp [ConsGraph.succ] at hu
  · obtain ⟨m, hm, -⟩ := Relation.TransGen.head'_iff.mp hn
    simp [Forward.Fwd, ConsGraph.superOf] at hm
  · simp [ConsGraph.superOf] at hu
  · simp [ConsGraph.succ] at huv

theorem Reachable.inv {w : Walk} {g : ConsGraph Obj Val} (h : Reachable w g) :
    g.Inv ∧ g.AddrNodes := by
  induction h with
  | empty => exact ⟨.empty, fun n o hn _ => by cases hn⟩
  | step op _ hop ih => exact op.inv_apply w hop ih.1 ih.2

/-! ## the invariant in full -/

/-- In every reachable graph both sets store every edge, a merged node has no edge, no node has a
copy edge to itself, the super node pointers are acyclic and `getSuperNode` follows them to their
end, and no assertion on the two sets has failed. -/
theorem Reachable.representation {w : Walk} {g : ConsGraph Obj Val} (h : Reachable w g) :
    (∀ k u v, v ∈ g.succ k u ↔ u ∈ g.pred k v) ∧
    (∀ n, g.hasSuperNode n = true → ∀ k, g.succ k n = ∅ ∧ g.pred k n = ∅ ∧
      ∀ u, n ∉ g.succ k u ∧ n ∉ g.pred k u) ∧
    (∀ n, n ∉ g.succ .copy n) ∧
    Forward.Acyclic g.superOf ∧
    (∀ n, Forward.Root g.superOf n (g.getSuperNode n) ∧ g.hasSuperNode (g.getSuperNode n) = false) ∧
    g.asserts = true := by
  obtain ⟨hinv, -⟩ := h.inv
  refine ⟨hinv.agree, ?_, hinv.noSelf, hinv.acyclic, fun n => ⟨hinv.root n, ?_⟩, hinv.asserts⟩
  · intro n hn k
    obtain ⟨s, hs⟩ := Option.isSome_iff_exists.mp hn
    have hm := hinv.merged n s hs
    refine ⟨Finset.eq_empty_of_forall_notMem fun v => (hm k v).1,
      Finset.eq_empty_of_forall_notMem fun v hv => (hm k v).2 ((hinv.agree ..).mpr hv),
      fun u => ⟨(hm k u).2, fun hu => (hm k u).1 ((hinv.agree ..).mpr hu)⟩⟩
  · rw [ConsGraph.hasSuperNode, hinv.superOf_getSuperNode]
    rfl

/-- two pointers that copy each other, collapsed; then an edge from the merged one to a third -/
def twoCycle : List (Op Unit Unit) :=
  [.addCGNode (.ptrNode none), .addCGNode (.ptrNode none), .addConstraints 0 1 .copy,
    .addConstraints 1 0 .copy, .collapseSCCTo [0, 1] 0, .addCGNode (.ptrNode none),
    .addConstraints 1 2 .copy]

theorem reachable_twoCycle : Reachable .ascending (twoCycle.foldl (Op.apply .ascending) {}) := by
  rw [twoCycle]
  simp only [List.foldl_cons, List.foldl_nil]
  refine .step _ (.step _ (.step _ (.step _ (.step _ (.step _ (.step _ .empty ?_) ?_) ?_) ?_) ?_)
    ?_) ?_
  · trivial
  · trivial
  · exact ⟨by decide, by decide, by simp⟩
  · exact ⟨by decide, by decide, by simp⟩
  · exact ⟨by decide, by decide, by simp [Op.apply]; decide⟩
  · trivial
  · exact ⟨by decide, by decide, by simp⟩

theorem representation_twoCycle :
    let g := twoCycle.foldl (Op.apply .ascending) {}
    g.getSuperNode 1 = 0 ∧ g.hasSuperNode (g.getSuperNode 1) = false ∧ g.asserts = true :=
  ⟨by decide, ((Reachable.representation reachable_twoCycle).2.2.2.2.1 1).2,
    (Reachable.representation reachable_twoCycle).2.2.2.2.2⟩

/-! ## a collapse in full -/

/-- What `collapseSCCTo` does to the edges, super nodes and call sets of a graph whose two sets agree
and in which no merged node has an edge and no node a copy edge to itself; `scc` is any list of
distinct nodes that are not merged and `superNode` any of them. -/
theorem ConsGraph.collapseSCCTo_quotient (w : Walk) {g : ConsGraph Obj Val} {scc : List NodeID}
    {superNode : NodeID} (hagree : g.Agree)
    (hmerged : ∀ u s, g.superOf u = some s → ∀ k v, v ∉ g.succ k u ∧ u ∉ g.succ k v)
    (hself : ∀ u, u ∉ g.succ .copy u) (hnd : scc.Nodup)
    (hscc : ∀ m ∈ scc, m < g.nodeNum ∧ g.superOf m = none) (hmem : superNode ∈ scc) :
    let g' := g.collapseSCCTo w scc superNode
    g'.Agree ∧
    (∀ k u v, u ∉ scc → v ∉ scc → (v ∈ g'.succ k u ↔ v ∈ g.succ k u)) ∧
    (∀ k u, u ∉ scc → (superNode ∈ g'.succ k u ↔ ∃ m ∈ scc, m ∈ g.succ k u)) ∧
    (∀ k v, v ∉ scc → (v ∈ g'.succ k superNode ↔ ∃ m ∈ scc, v ∈ g.succ k m)) ∧
    (∀ k, k ≠ .copy →
      (superNode ∈ g'.succ k superNode ↔ ∃ m ∈ scc, ∃ m' ∈ scc, m' ∈ g.succ k m)) ∧
    superNode ∉ g'.succ .copy superNode ∧
    (∀ m ∈ scc, m ≠ superNode →
      (∀ k, g'.succ k m = ∅ ∧ g'.pred k m = ∅ ∧ ∀ u, m ∉ g'.succ k u ∧ m ∉ g'.pred k u) ∧
      g'.superOf m = some superNode ∧ g'.getSuperNode m = superNode) ∧
    (∀ c, c ∈ g'.indirect superNode ↔ ∃ m ∈ scc, c ∈ g.indirect m) := by
  intro g'
  have hin := fun n (hn : n ∈ scc) => target_of_mem superNode hn
  have hout := fun n (hn : n ∉ scc) => target_of_notMem superNode hn
  have hto : ∀ n x, x ∉ scc → target scc superNode n = x → n = x := by
    intro n x hx hn
    by_cases hns : n ∈ scc
    · rw [hin n hns] at hn
      exact absurd (hn ▸ hmem) hx
    · rwa [hout n hns] at hn
  have hto' : ∀ n, target scc superNode n = superNode → n ∈ scc := by
    intro n hn
    by_contra hns
    rw [hout n hns] at hn
    exact hns (hn ▸ hmem)
  obtain ⟨⟨hagree', hmerged', hself'⟩, hq⟩ := EdgesOk.collapse w scc ⟨hagree, hmerged, hself⟩ hnd
    (hscc superNode hmem).2 fun n hn => (hscc n hn).2
  refine ⟨hagree', fun k u v hu hv => ?_, fun k u hu => ?_, fun k v hv => ?_, fun k hk => ?_,
    hself' superNode, fun m hm hne => ?_, fun c => ?_⟩
  · rw [hq.succ]
    constructor
    · rintro ⟨⟨a, b, hab, ha, hb⟩, -⟩
      rwa [hto a u hu ha, hto b v hv hb] at hab
    · intro huv
      refine ⟨⟨u, v, huv, hout u hu, hout v hv⟩, ?_⟩
      rintro ⟨rfl, rfl⟩
      exact hself u huv
  · rw [hq.succ]
    constructor
    · rintro ⟨⟨a, b, hab, ha, hb⟩, -⟩
      rw [hto a u hu ha] at hab
      exact ⟨b, hto' b hb, hab⟩
    · rintro ⟨m, hm, hum⟩
      refine ⟨⟨u, m, hum, hout u hu, hin m hm⟩, ?_⟩
      rintro ⟨rfl, -⟩
      exact hu hmem
  · rw [hq.succ]
    constructor
    · rintro ⟨⟨a, b, hab, ha, hb⟩, -⟩
      rw [hto b v hv hb] at hab
      exact ⟨a, hto' a ha, hab⟩
    · rintro ⟨m, hm, hmv⟩
      refine ⟨⟨m, v, hmv, hin m hm, hout v hv⟩, ?_⟩
      rintro ⟨rfl, -⟩
      exact hv hmem
  · rw [hq.succ]
    constructor
    · rintro ⟨⟨a, b, hab, ha, hb⟩, -⟩
      exact ⟨a, hto' a ha, b, hto' b hb, hab⟩
    · rintro ⟨m, hm, m', hm', hmm⟩
      exact ⟨⟨m, m', hmm, hin m hm, hin m' hm'⟩, fun h => hk h.2⟩
  · have hsup : g'.superOf m = some superNode := (hq.superOf m).trans (if_pos ⟨hm, hne⟩)
    have hsup' : g'.superOf superNode = none :=
      (hq.superOf superNode).trans ((if_neg fun h => h.2 rfl).trans (hscc superNode hmem).2)
    have hedge := hmerged' m superNode hsup
    refine ⟨fun k => ⟨?_, ?_, fun u => ⟨(hedge k u).2, ?_⟩⟩, hsup, ?_⟩
    · exact Finset.eq_empty_of_forall_notMem fun v => (hedge k v).1
    · exact Finset.eq_empty_of_forall_notMem fun v hv => (hedge k v).2 ((hagree' ..).mpr hv)
    · exact fun hu => (hedge k u).1 ((hagree' ..).mpr hu)
    · obtain ⟨n, hn⟩ := Nat.exists_eq_succ_of_ne_zero (Nat.ne_zero_of_lt (hscc m hm).1)
      rw [ConsGraph.getSuperNode, hq.nodeNum, hn, Nat.succ_eq_add_one, Forward.root, hsup]
      exact Forward.root_of_none hsup' n
  · rw [hq.indirect]
    constructor
    · rintro (⟨-, m, rfl | hm, hc⟩ | ⟨h, -⟩)
      · exact ⟨m, hmem, hc⟩
      · exact ⟨m, hm, hc⟩
      · exact absurd rfl h
    · rintro ⟨m, hm, hc⟩
      exact .inl ⟨rfl, m, .inr hm, hc⟩

/-- the two pointers of `twoCycle` before their collapse, with a load and an offset between them -/
def twoPtrs : List (Op Unit Unit) :=
  [.addCGNode (.ptrNode none), .addCGNode (.ptrNode none), .addConstraints 0 1 .copy,
    .addConstraints 1 0 .copy, .addConstraints 1 1 .load, .addConstraints 0 1 .offset]

theorem reachable_twoPtrs : Reachable .ascending (twoPtrs.foldl (Op.apply .ascending) {}) := by
  rw [twoPtrs]
  simp only [List.foldl_cons, List.foldl_nil]
  refine .step _ (.step _ (.step _ (.step _ (.step _ (.step _ .empty ?_) ?_) ?_) ?_) ?_) ?_
  · trivial
  · trivial
  · exact ⟨by decide, by decide, by simp⟩
  · exact ⟨by decide, by decide, by simp⟩
  · exact ⟨by decide, by decide, by simp⟩
  · exact ⟨by decide, by decide, by simp⟩

theorem collapseSCCTo_quotient_twoPtrs :
    let g := twoPtrs.foldl (Op.apply .ascending) {}
    1 ∈ g.succ .load 1 ∧ 0 ∈ (g.collapseSCCTo .ascending [1, 0] 0).succ .load 0 ∧
      0 ∉ (g.collapseSCCTo .ascending [1, 0] 0).succ .copy 0 := by
  obtain ⟨hinv, -⟩ := reachable_twoPtrs.inv
  obtain ⟨-, -, -, -, hload, hcopy, -⟩ := ConsGraph.collapseSCCTo_quotient .ascending hinv.agree
    hinv.merged hinv.noSelf (show [1, 0].Nodup by decide) (by decide)
    (show (0 : NodeID) ∈ [1, 0] by decide)
  exact ⟨by decide, (hload .load (by decide)).mpr ⟨1, by decide, 1, by decide, by decide⟩, hcopy⟩

end AserPTA
