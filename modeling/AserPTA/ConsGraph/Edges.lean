import AserPTA.ConsGraph.Graph

/-!
# What the methods of a node do to the edges

Membership in the two sets of every edge kind after `insertConstraint`, after a sequence of them
(`insertAll`), and after `clearConstraints`.  `Agree` says that the two sets store the same edges:
under it every assertion on them holds, and every method keeps it.
-/

namespace AserPTA.ConsGraph

variable {Obj Val : Type} (g g' : ConsGraph Obj Val)

/-- `g'` has the nodes of `g`, with the same super nodes; the edges may differ -/
structure SameNodes : Prop where
  nodeNum : g'.nodeNum = g.nodeNum
  kind : ∀ n, g'.kind n = g.kind n
  superOf : ∀ n, g'.superOf n = g.superOf n
  indirect : ∀ n, g'.indirect n = g.indirect n

/-- the two sets of an edge kind store the same edges -/
def Agree : Prop := ∀ k u v, v ∈ g.succ k u ↔ u ∈ g.pred k v

variable {g g'}

namespace SameNodes

theorem refl (g : ConsGraph Obj Val) : SameNodes g g :=
  ⟨rfl, fun _ => rfl, fun _ => rfl, fun _ => rfl⟩

theorem trans {g₁ g₂ g₃ : ConsGraph Obj Val} (h : SameNodes g₁ g₂) (h' : SameNodes g₂ g₃) :
    SameNodes g₁ g₃ where
  nodeNum := h'.nodeNum.trans h.nodeNum
  kind n := (h'.kind n).trans (h.kind n)
  superOf n := (h'.superOf n).trans (h.superOf n)
  indirect n := (h'.indirect n).trans (h.indirect n)

theorem getSuperNode (h : SameNodes g g') (n : NodeID) : g'.getSuperNode n = g.getSuperNode n := by
  have hs : g'.superOf = g.superOf := funext h.superOf
  rw [ConsGraph.getSuperNode, ConsGraph.getSuperNode, hs, h.nodeNum]

/-- a write that keeps the fields other than the two edge sets -/
theorem modify (g : ConsGraph Obj Val) (n : NodeID) (f : CGNode Obj Val → CGNode Obj Val)
    (hf : ∀ x, (f x).kind = x.kind ∧ (f x).superNode = x.superNode ∧
      (f x).indirectNodes = x.indirectNodes) :
    SameNodes g (g.modify n f) := by
  refine ⟨rfl, fun m => ?_, fun m => ?_, fun m => ?_⟩
  all_goals
    by_cases h : m = n
    · simp [ConsGraph.modify, ConsGraph.kind, ConsGraph.superOf, ConsGraph.indirect,
        h, hf]
    · simp [ConsGraph.modify, ConsGraph.kind, ConsGraph.superOf, ConsGraph.indirect, h]

theorem foldl {α : Type} (f : ConsGraph Obj Val → α → ConsGraph Obj Val)
    (hf : ∀ g a, SameNodes g (f g a)) (l : List α) (g : ConsGraph Obj Val) :
    SameNodes g (l.foldl f g) := by
  induction l generalizing g with
  | nil => exact refl g
  | cons a l ih => exact (hf g a).trans (ih (f g a))

end SameNodes

theorem getSuperNode_of_none {n : NodeID} (h : g.superOf n = none) : g.getSuperNode n = n :=
  Forward.root_of_none h _

/-! ## inserting an edge -/

theorem insertSucc_sameNodes (n v : NodeID) (k : Constraints) : SameNodes g (g.insertSucc n k v) :=
  SameNodes.modify g n _ fun _ => ⟨rfl, rfl, rfl⟩

theorem insertPred_sameNodes (n v : NodeID) (k : Constraints) : SameNodes g (g.insertPred n k v) :=
  SameNodes.modify g n _ fun _ => ⟨rfl, rfl, rfl⟩

@[simp] theorem succ_insertPred (n v u : NodeID) (k k' : Constraints) :
    (g.insertPred n k v).succ k' u = g.succ k' u := by
  by_cases h : u = n <;> simp [insertPred, modify, succ, h]

@[simp] theorem pred_insertSucc (n v u : NodeID) (k k' : Constraints) :
    (g.insertSucc n k v).pred k' u = g.pred k' u := by
  by_cases h : u = n <;> simp [insertSucc, modify, pred, h]

theorem mem_succ_insertSucc (n v u x : NodeID) (k k' : Constraints) :
    x ∈ (g.insertSucc n k v).succ k' u ↔ x ∈ g.succ k' u ∨ (k' = k ∧ u = n ∧ x = v) := by
  by_cases hu : u = n
  · by_cases hk : k' = k
    · simp [insertSucc, modify, succ, hu, hk, or_comm]
    · simp [insertSucc, modify, succ, hu, hk]
  · simp [insertSucc, modify, succ, hu]

theorem mem_pred_insertPred (n v u x : NodeID) (k k' : Constraints) :
    x ∈ (g.insertPred n k v).pred k' u ↔ x ∈ g.pred k' u ∨ (k' = k ∧ u = n ∧ x = v) := by
  by_cases hu : u = n
  · by_cases hk : k' = k
    · simp [insertPred, modify, pred, hu, hk, or_comm]
    · simp [insertPred, modify, pred, hu, hk]
  · simp [insertPred, modify, pred, hu]

theorem insertConstraint_sameNodes (a b : NodeID) (k : Constraints) :
    SameNodes g (g.insertConstraint a b k).1 := by
  rw [insertConstraint]
  split
  · exact .refl g
  · have h1 := insertSucc_sameNodes (g := g) (g.getSuperNode a) (g.getSuperNode b) k
    have h2 := h1.trans (insertPred_sameNodes (g.getSuperNode b) (g.getSuperNode a) k)
    exact ⟨h2.nodeNum, h2.kind, h2.superOf, h2.indirect⟩

/-- the edge goes from super node to super node; a copy edge from a node to itself is left out -/
theorem mem_succ_insertConstraint (a b : NodeID) (k k' : Constraints) (u v : NodeID) :
    v ∈ (g.insertConstraint a b k).1.succ k' u ↔ v ∈ g.succ k' u ∨
      (k' = k ∧ u = g.getSuperNode a ∧ v = g.getSuperNode b ∧ ¬ (u = v ∧ k = .copy)) := by
  rw [insertConstraint]
  split
  · rename_i h
    constructor
    · exact .inl
    · rintro (h1 | ⟨-, rfl, rfl, h1⟩)
      · exact h1
      · exact absurd h h1
  · rename_i h
    show v ∈ ((g.insertSucc _ k _).insertPred _ k _).succ k' u ↔ _
    rw [succ_insertPred, mem_succ_insertSucc]
    refine or_congr_right ⟨?_, ?_⟩
    · rintro ⟨h1, rfl, rfl⟩
      exact ⟨h1, rfl, rfl, h⟩
    · rintro ⟨h1, h2, h3, -⟩
      exact ⟨h1, h2, h3⟩

theorem mem_pred_insertConstraint (a b : NodeID) (k k' : Constraints) (u v : NodeID) :
    u ∈ (g.insertConstraint a b k).1.pred k' v ↔ u ∈ g.pred k' v ∨
      (k' = k ∧ u = g.getSuperNode a ∧ v = g.getSuperNode b ∧ ¬ (u = v ∧ k = .copy)) := by
  rw [insertConstraint]
  split
  · rename_i h
    constructor
    · exact .inl
    · rintro (h1 | ⟨-, rfl, rfl, h1⟩)
      · exact h1
      · exact absurd h h1
  · rename_i h
    show u ∈ ((g.insertSucc _ k _).insertPred _ k _).pred k' v ↔ _
    rw [mem_pred_insertPred, pred_insertSucc]
    refine or_congr_right ⟨?_, ?_⟩
    · rintro ⟨h1, rfl, rfl⟩
      exact ⟨h1, rfl, rfl, h⟩
    · rintro ⟨h1, h2, h3, -⟩
      exact ⟨h1, h3, h2⟩

/-- the returned value says whether the edge is new -/
theorem insertConstraint_snd (a b : NodeID) (k : Constraints) :
    (g.insertConstraint a b k).2 = true ↔
      g.getSuperNode b ∉ g.succ k (g.getSuperNode a) ∧
        ¬ (g.getSuperNode a = g.getSuperNode b ∧ k = .copy) := by
  rw [insertConstraint]
  split
  · rename_i h
    simp [h]
  · rename_i h
    simp [h]

theorem Agree.insertConstraint (h : Agree g) (a b : NodeID) (k : Constraints) :
    Agree (g.insertConstraint a b k).1 := by
  intro k' u v
  rw [mem_succ_insertConstraint, mem_pred_insertConstraint, h k' u v]

/-- under `Agree` the two insertions return the same -/
theorem Agree.asserts_insertConstraint (h : Agree g) (a b : NodeID) (k : Constraints) :
    (g.insertConstraint a b k).1.asserts = g.asserts := by
  rw [ConsGraph.insertConstraint]
  split
  · rfl
  · show (g.asserts && _) = _
    rw [pred_insertSucc]
    have := h k (g.getSuperNode a) (g.getSuperNode b)
    simp [this]

/-- a sequence of insertions -/
def insertAll (g : ConsGraph Obj Val) (l : List (Constraints × NodeID × NodeID)) :
    ConsGraph Obj Val :=
  l.foldl (fun g e => (g.insertConstraint e.2.1 e.2.2 e.1).1) g

theorem insertAll_sameNodes (l : List (Constraints × NodeID × NodeID)) :
    SameNodes g (g.insertAll l) :=
  SameNodes.foldl _ (fun _ _ => insertConstraint_sameNodes ..) l g

theorem Agree.insertAll (h : Agree g) (l : List (Constraints × NodeID × NodeID)) :
    Agree (g.insertAll l) ∧ (g.insertAll l).asserts = g.asserts := by
  induction l generalizing g with
  | nil => exact ⟨h, rfl⟩
  | cons e l ih =>
    obtain ⟨h1, h2⟩ := ih (h.insertConstraint e.2.1 e.2.2 e.1)
    exact ⟨h1, h2.trans (h.asserts_insertConstraint ..)⟩

theorem mem_succ_insertAll (l : List (Constraints × NodeID × NodeID))
    (hl : ∀ e ∈ l, g.superOf e.2.1 = none ∧ g.superOf e.2.2 = none) (k : Constraints)
    (u v : NodeID) :
    v ∈ (g.insertAll l).succ k u ↔
      v ∈ g.succ k u ∨ ((k, u, v) ∈ l ∧ ¬ (u = v ∧ k = .copy)) := by
  induction l generalizing g with
  | nil => simp [insertAll]
  | cons e l ih =>
    obtain ⟨ha, hb⟩ := hl e (List.mem_cons_self ..)
    have hs := insertConstraint_sameNodes (g := g) e.2.1 e.2.2 e.1
    have hl' : ∀ e' ∈ l, (g.insertConstraint e.2.1 e.2.2 e.1).1.superOf e'.2.1 = none ∧
        (g.insertConstraint e.2.1 e.2.2 e.1).1.superOf e'.2.2 = none := by
      intro e' he'
      rw [hs.superOf, hs.superOf]
      exact hl e' (List.mem_cons_of_mem _ he')
    show v ∈ (insertAll (g.insertConstraint e.2.1 e.2.2 e.1).1 l).succ k u ↔ _
    rw [ih hl', mem_succ_insertConstraint, getSuperNode_of_none ha, getSuperNode_of_none hb,
      List.mem_cons, or_assoc]
    refine or_congr_right ?_
    constructor
    · rintro (⟨rfl, rfl, rfl, h⟩ | ⟨h1, h2⟩)
      · exact ⟨.inl rfl, h⟩
      · exact ⟨.inr h1, h2⟩
    · rintro ⟨rfl | h1, h2⟩
      · exact .inl ⟨rfl, rfl, rfl, h2⟩
      · exact .inr ⟨h1, h2⟩

/-! ## erasing edges -/

theorem erasePred_sameNodes (n v : NodeID) (k : Constraints) : SameNodes g (g.erasePred n k v) := by
  have h := SameNodes.modify g n (fun x : CGNode Obj Val =>
    { x with predCons := fun k' => if k' = k then (x.predCons k').erase v else x.predCons k' })
    fun _ => ⟨rfl, rfl, rfl⟩
  exact ⟨h.nodeNum, h.kind, h.superOf, h.indirect⟩

theorem eraseSucc_sameNodes (n v : NodeID) (k : Constraints) : SameNodes g (g.eraseSucc n k v) := by
  have h := SameNodes.modify g n (fun x : CGNode Obj Val =>
    { x with succCons := fun k' => if k' = k then (x.succCons k').erase v else x.succCons k' })
    fun _ => ⟨rfl, rfl, rfl⟩
  exact ⟨h.nodeNum, h.kind, h.superOf, h.indirect⟩

@[simp] theorem succ_erasePred (n v u : NodeID) (k k' : Constraints) :
    (g.erasePred n k v).succ k' u = g.succ k' u := by
  by_cases h : u = n <;> simp [erasePred, modify, succ, h]

@[simp] theorem pred_eraseSucc (n v u : NodeID) (k k' : Constraints) :
    (g.eraseSucc n k v).pred k' u = g.pred k' u := by
  by_cases h : u = n <;> simp [eraseSucc, modify, pred, h]

theorem mem_pred_erasePred (n v u x : NodeID) (k k' : Constraints) :
    x ∈ (g.erasePred n k v).pred k' u ↔ x ∈ g.pred k' u ∧ ¬ (k' = k ∧ u = n ∧ x = v) := by
  by_cases hu : u = n
  · by_cases hk : k' = k
    · simp [erasePred, modify, pred, hu, hk, and_comm]
    · simp [erasePred, modify, pred, hu, hk]
  · simp [erasePred, modify, pred, hu]

theorem mem_succ_eraseSucc (n v u x : NodeID) (k k' : Constraints) :
    x ∈ (g.eraseSucc n k v).succ k' u ↔ x ∈ g.succ k' u ∧ ¬ (k' = k ∧ u = n ∧ x = v) := by
  by_cases hu : u = n
  · by_cases hk : k' = k
    · simp [eraseSucc, modify, succ, hu, hk, and_comm]
    · simp [eraseSucc, modify, succ, hu, hk]
  · simp [eraseSucc, modify, succ, hu]

/-- the first loop of `clearKind` -/
theorem foldl_erasePred (n : NodeID) (k : Constraints) (l : List NodeID) (hl : l.Nodup)
    (hn : ∀ t ∈ l, n ∈ g.pred k t) :
    let g1 := l.foldl (fun g t => g.erasePred t k n) g
    g1.asserts = g.asserts ∧ (∀ k' u, g1.succ k' u = g.succ k' u) ∧
      ∀ k' u x, x ∈ g1.pred k' u ↔ x ∈ g.pred k' u ∧ ¬ (k' = k ∧ u ∈ l ∧ x = n) := by
  induction l generalizing g with
  | nil => simp
  | cons t l ih =>
    obtain ⟨ht, hnd⟩ := List.nodup_cons.mp hl
    have hn' : ∀ t' ∈ l, n ∈ (g.erasePred t k n).pred k t' := by
      intro t' ht'
      rw [mem_pred_erasePred]
      exact ⟨hn t' (List.mem_cons_of_mem _ ht'), fun h => ht (h.2.1 ▸ ht')⟩
    obtain ⟨h1, h2, h3⟩ := ih hnd hn'
    refine ⟨?_, fun k' u => ?_, fun k' u x => ?_⟩
    · refine h1.trans ?_
      show (g.asserts && decide (n ∈ g.pred k t)) = g.asserts
      simp [hn t (List.mem_cons_self ..)]
    · exact (h2 k' u).trans (succ_erasePred ..)
    · show x ∈ (l.foldl (fun g t => g.erasePred t k n) (g.erasePred t k n)).pred k' u ↔ _
      rw [h3, mem_pred_erasePred, List.mem_cons]
      tauto

/-- the second loop of `clearKind` -/
theorem foldl_eraseSucc (n : NodeID) (k : Constraints) (l : List NodeID) (hl : l.Nodup)
    (hn : ∀ t ∈ l, n ∈ g.succ k t) :
    let g1 := l.foldl (fun g t => g.eraseSucc t k n) g
    g1.asserts = g.asserts ∧ (∀ k' u, g1.pred k' u = g.pred k' u) ∧
      ∀ k' u x, x ∈ g1.succ k' u ↔ x ∈ g.succ k' u ∧ ¬ (k' = k ∧ u ∈ l ∧ x = n) := by
  induction l generalizing g with
  | nil => simp
  | cons t l ih =>
    obtain ⟨ht, hnd⟩ := List.nodup_cons.mp hl
    have hn' : ∀ t' ∈ l, n ∈ (g.eraseSucc t k n).succ k t' := by
      intro t' ht'
      rw [mem_succ_eraseSucc]
      exact ⟨hn t' (List.mem_cons_of_mem _ ht'), fun h => ht (h.2.1 ▸ ht')⟩
    obtain ⟨h1, h2, h3⟩ := ih hnd hn'
    refine ⟨?_, fun k' u => ?_, fun k' u x => ?_⟩
    · refine h1.trans ?_
      show (g.asserts && decide (n ∈ g.succ k t)) = g.asserts
      simp [hn t (List.mem_cons_self ..)]
    · exact (h2 k' u).trans (pred_eraseSucc ..)
    · show x ∈ (l.foldl (fun g t => g.eraseSucc t k n) (g.eraseSucc t k n)).succ k' u ↔ _
      rw [h3, mem_succ_eraseSucc, List.mem_cons]
      tauto

theorem clearKind_sameNodes (w : Walk) (n : NodeID) (k : Constraints) :
    SameNodes g (g.clearKind w n k) := by
  let g1 := (w.walk (g.succ k n)).foldl (fun g t => g.erasePred t k n) g
  let g2 := (w.walk (g1.pred k n)).foldl (fun g t => g.eraseSucc t k n) g1
  have h1 : SameNodes g g1 := SameNodes.foldl _ (fun _ _ => erasePred_sameNodes ..) _ g
  have h2 : SameNodes g1 g2 := SameNodes.foldl _ (fun _ _ => eraseSucc_sameNodes ..) _ g1
  have h3 : SameNodes g2 (g.clearKind w n k) :=
    SameNodes.modify g2 n (fun x => { x with
      succCons := fun k' => if k' = k then ∅ else x.succCons k'
      predCons := fun k' => if k' = k then ∅ else x.predCons k' }) fun _ => ⟨rfl, rfl, rfl⟩
  exact h1.trans (h2.trans h3)

/-- `clearKind` takes away exactly the edges of kind `k` that touch `n`, and its assertions hold -/
theorem Agree.clearKind (h : Agree g) (w : Walk) (n : NodeID) (k : Constraints) :
    (g.clearKind w n k).asserts = g.asserts ∧
      (∀ k' u v, v ∈ (g.clearKind w n k).succ k' u ↔
        v ∈ g.succ k' u ∧ ¬ (k' = k ∧ (u = n ∨ v = n))) ∧
      ∀ k' u v, u ∈ (g.clearKind w n k).pred k' v ↔
        u ∈ g.pred k' v ∧ ¬ (k' = k ∧ (u = n ∨ v = n)) := by
  obtain ⟨a1, s1, p1⟩ := foldl_erasePred (g := g) n k (w.walk (g.succ k n)) (w.nodup_walk _)
    fun t ht => (h k n t).mp ((w.mem_walk _ _).mp ht)
  set g1 := (w.walk (g.succ k n)).foldl (fun g t => g.erasePred t k n) g with hg1
  have hp1 : ∀ t, t ∈ g1.pred k n → n ∈ g1.succ k t := by
    intro t ht
    rw [s1, h]
    exact ((p1 k n t).mp ht).1
  obtain ⟨a2, p2, s2⟩ := foldl_eraseSucc (g := g1) n k (w.walk (g1.pred k n)) (w.nodup_walk _)
    fun t ht => hp1 t ((w.mem_walk _ _).mp ht)
  set g2 := (w.walk (g1.pred k n)).foldl (fun g t => g.eraseSucc t k n) g1 with hg2
  have hfin : g.clearKind w n k = g2.modify n fun x =>
      { x with
        succCons := fun k' => if k' = k then ∅ else x.succCons k'
        predCons := fun k' => if k' = k then ∅ else x.predCons k' } := rfl
  refine ⟨a2.trans a1, fun k' u v => ?_, fun k' u v => ?_⟩
  · have hsucc : v ∈ (g.clearKind w n k).succ k' u ↔ v ∈ g2.succ k' u ∧ ¬ (k' = k ∧ u = n) := by
      rw [hfin]
      by_cases hu : u = n <;> by_cases hk : k' = k <;> simp [modify, succ, hu, hk]
    rw [hsucc, s2, s1, w.mem_walk, p1]
    have hh := h k u n
    rw [w.mem_walk, h]
    grind
  · have hpred : u ∈ (g.clearKind w n k).pred k' v ↔ u ∈ g2.pred k' v ∧ ¬ (k' = k ∧ v = n) := by
      rw [hfin]
      by_cases hv : v = n <;> by_cases hk : k' = k <;> simp [modify, pred, hv, hk]
    rw [hpred, p2, p1, w.mem_walk]
    have hh := h k n v
    grind

theorem Agree.of_clearKind (h : Agree g) (w : Walk) (n : NodeID) (k : Constraints) :
    Agree (g.clearKind w n k) := by
  obtain ⟨-, hs, hp⟩ := h.clearKind w n k
  intro k' u v
  rw [hs, hp, h]

theorem clearConstraints_sameNodes (w : Walk) (n : NodeID) :
    SameNodes g (g.clearConstraints w n) :=
  SameNodes.foldl _ (fun _ _ => clearKind_sameNodes ..) _ g

/-- `clearConstraints` takes away exactly the edges that touch `n`, and no assertion fails -/
theorem Agree.clearConstraints (h : Agree g) (w : Walk) (n : NodeID) :
    (g.clearConstraints w n).asserts = g.asserts ∧
      (∀ k u v, v ∈ (g.clearConstraints w n).succ k u ↔ v ∈ g.succ k u ∧ u ≠ n ∧ v ≠ n) ∧
      Agree (g.clearConstraints w n) := by
  have hfold : ∀ (l : List Constraints) (g : ConsGraph Obj Val), Agree g →
      (l.foldl (fun g k => g.clearKind w n k) g).asserts = g.asserts ∧
      (∀ k u v, v ∈ (l.foldl (fun g k => g.clearKind w n k) g).succ k u ↔
        v ∈ g.succ k u ∧ ¬ (k ∈ l ∧ (u = n ∨ v = n))) ∧
      Agree (l.foldl (fun g k => g.clearKind w n k) g) := by
    intro l
    induction l with
    | nil => intro g h; exact ⟨rfl, by simp, h⟩
    | cons k l ih =>
      intro g h
      obtain ⟨a1, s1, -⟩ := h.clearKind w n k
      obtain ⟨a2, s2, h2⟩ := ih _ (h.of_clearKind w n k)
      refine ⟨a2.trans a1, fun k' u v => ?_, h2⟩
      show v ∈ (l.foldl (fun g k => g.clearKind w n k) (g.clearKind w n k)).succ k' u ↔ _
      rw [s2, s1, List.mem_cons]
      tauto
  obtain ⟨h1, h2, h3⟩ := hfold [.load, .store, .copy, .addrOf, .offset] g h
  refine ⟨h1, fun k u v => ?_, h3⟩
  have hk : k ∈ [Constraints.load, .store, .copy, .addrOf, .offset] := by cases k <;> decide
  rw [ConsGraph.clearConstraints, h2]
  tauto

end AserPTA.ConsGraph
