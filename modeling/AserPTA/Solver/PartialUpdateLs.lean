import AserPTA.Solver.PartialUpdateCopy

/-!
# The load, store and offset edges in PartialUpdateSolver

* `LsRun`              what going through load, store and offset edges does to the state: the copy
                       edges that are not satisfied any more are marked in the worklists, and a
                       worklist that has changed leaves work to do (`Noisy`);
* `loadEdges_run`, `storeEdges_run`, `offsetEdges_run`
                       the edges of one node are closed by such a run;
* `lsPhase_spec`       the whole phase.
-/

namespace AserPTA

open Relation Loop

namespace PartialUpdate

open AserPTA.Core ConsGraph State

variable {Obj Val : Type} [DecidableEq Obj] {F : Config Obj Val} {s s₀ : St Obj Val}
  {I A : Prop} {G : NodeID → Prop}

/-- the next test of the loop of `runSolver` will hold, once the lists are resized -/
def Noisy (s : St Obj Val) : Prop :=
  (∃ i < s.self.copyWorkList.size, s.self.copyWorkList.test i = false) ∨
    s.self.copyWorkList.size < s.core.graph.nodeNum

/-- The worklists mark the copy edge: as a new one, or, where objects are inserted at once (`I`),
as one from a changed node.  In the solver the lists have a bit for every target (`A`). -/
def Marked (F : Config Obj Val) (I A : Prop) (s : St Obj Val) (u v : NodeID) : Prop :=
  (u < s.self.copyWorkList.size → s.self.copyWorkList.test u = false) ∧
    ((I ∧ u < s.self.lsWorkList.size ∧ s.self.lsWorkList.test u = false) ∨
      ((A → v < s.self.targetList.size) ∧
        (v < s.self.targetList.size → s.self.targetList.test v = false) ∧
        F.hashEdge u v ∈ s.self.requiredEdge))

structure LsRun (F : Config Obj Val) (I A : Prop) (s₀ s : St Obj Val) : Prop where
  ext : s₀.core.Extends F.mem F.walk s.core
  copySize : s.self.copyWorkList.size = s₀.self.copyWorkList.size
  targetSize : s.self.targetList.size = s₀.self.targetList.size
  lsSize : s.self.lsWorkList.size = s₀.self.lsWorkList.size
  copyBit : ∀ x, s.self.copyWorkList.test x = true → s₀.self.copyWorkList.test x = true
  targetBit : ∀ x, s.self.targetList.test x = true → s₀.self.targetList.test x = true
  lsBit : ∀ x, s.self.lsWorkList.test x = true → s₀.self.lsWorkList.test x = true
  required : s₀.self.requiredEdge ⊆ s.self.requiredEdge
  lsList : ¬ I → s.self.lsWorkList = s₀.self.lsWorkList
  noisy : s.self = s₀.self ∨ Noisy s
  pts : ∀ m < s₀.core.graph.nodeNum, s.core.pts m = s₀.core.pts m ∨
    (I ∧ s.self.copyWorkList.test m = false ∧ s.self.lsWorkList.test m = false)
  unsat : ∀ G, s₀.core.Shape G → ∀ u v, s.core.Unsat u v → s₀.core.Unsat u v ∨ Marked F I A s u v

theorem eq_false_of_imp {a b : Bool} (h : a = true → b = true) (hb : b = false) : a = false := by
  cases a with
  | false => rfl
  | true => rw [h rfl] at hb; cases hb

omit [DecidableEq Obj] in
theorem Noisy.of_self {s' : St Obj Val} (h : Noisy s) (hs : s'.self = s.self)
    (hn : s.core.graph.nodeNum ≤ s'.core.graph.nodeNum) : Noisy s' := by
  rw [Noisy, hs]
  exact h.imp_right fun h1 => h1.trans_le hn

namespace LsRun

theorem refl (F : Config Obj Val) (I A : Prop) (s : St Obj Val) :
    LsRun F I A s s :=
  ⟨.refl .., rfl, rfl, rfl, fun _ h => h, fun _ h => h, fun _ h => h, Finset.Subset.refl _,
    fun _ => rfl, .inl rfl, fun _ _ => .inl rfl, fun _ _ _ _ h => .inl h⟩

/-- marks stay -/
theorem marked (h : LsRun F I A s₀ s) {u v : NodeID} (hm : Marked F I A s₀ u v) :
    Marked F I A s u v := by
  refine ⟨fun hu => eq_false_of_imp (h.copyBit u) (hm.1 (h.copySize ▸ hu)), hm.2.imp (fun h1 =>
    ⟨h1.1, h.lsSize ▸ h1.2.1, eq_false_of_imp (h.lsBit u) h1.2.2⟩) fun h1 =>
    ⟨fun hf => h.targetSize ▸ h1.1 hf, fun hv => ?_, h.required h1.2.2⟩⟩
  exact eq_false_of_imp (h.targetBit v) (h1.2.1 (h.targetSize ▸ hv))

theorem trans {s₁ s₂ s₃ : St Obj Val} (h : LsRun F I A s₁ s₂) (h' : LsRun F I A s₂ s₃) :
    LsRun F I A s₁ s₃ where
  ext := h.ext.trans h'.ext
  copySize := h'.copySize.trans h.copySize
  targetSize := h'.targetSize.trans h.targetSize
  lsSize := h'.lsSize.trans h.lsSize
  copyBit x hx := h.copyBit x (h'.copyBit x hx)
  targetBit x hx := h.targetBit x (h'.targetBit x hx)
  lsBit x hx := h.lsBit x (h'.lsBit x hx)
  required := h.required.trans h'.required
  lsList hi := (h'.lsList hi).trans (h.lsList hi)
  noisy := by
    rcases h'.noisy with h1 | h1
    · rcases h.noisy with h2 | h2
      · exact .inl (h1.trans h2)
      · exact .inr (h2.of_self h1 h'.ext.nodeNum)
    · exact .inr h1
  pts m hm := by
    rcases h'.pts m (hm.trans_le h.ext.nodeNum) with h1 | h1
    · rcases h.pts m hm with h2 | ⟨h2, h3, h4⟩
      · exact .inl (h1.trans h2)
      · exact .inr ⟨h2, eq_false_of_imp (h'.copyBit m) h3, eq_false_of_imp (h'.lsBit m) h4⟩
    · exact .inr h1
  unsat G hsh u v huv := by
    rcases h'.unsat G (hsh.run h.ext.steps) u v huv with h1 | h1
    · exact (h.unsat G hsh u v h1).imp_right h'.marked
    · exact .inr h1

end LsRun

/-! ## one turn -/

omit [DecidableEq Obj] in
/-- the copy edges after an insertion between nodes that are not merged -/
theorem unsat_insert {c : Core Obj Val} {a b u v : NodeID} (ha : c.graph.superOf a = none)
    (hb : c.graph.superOf b = none)
    (h : Core.Unsat { c with graph := (c.graph.insertConstraint a b .copy).1 } u v) :
    c.Unsat u v ∨ (u = a ∧ v = b) := by
  have hmem := (mem_succ_insertConstraint (g := c.graph) a b .copy .copy u v).mp h.1
  rw [getSuperNode_of_none ha, getSuperNode_of_none hb] at hmem
  rcases hmem with h1 | ⟨-, h1, h2, -⟩
  · exact .inl ⟨h1, h.2⟩
  · exact .inr ⟨h1, h2⟩

omit [DecidableEq Obj] in
theorem noisy_recordCopyEdge {a b : NodeID} (h : a < s.core.graph.nodeNum) :
    Noisy (recordCopyEdge F a b s) := by
  by_cases ha : a < s.self.copyWorkList.size
  · refine .inl ⟨a, ?_, ?_⟩
    · show a < (if _ then _ else _ : BitVector).size
      rwa [if_pos ha]
    · show (if _ then _ else _ : BitVector).test a = false
      rw [if_pos ha, BitVector.test_reset, if_pos rfl]
  · right
    show (if _ then _ else _ : BitVector).size < s.core.graph.nodeNum
    rw [if_neg ha]
    exact (not_lt.mp ha).trans_lt h

omit [DecidableEq Obj] in
/-- what `recordCopyEdge` marks -/
theorem marked_recordCopyEdge {a b : NodeID} (hb : A → b < s.self.targetList.size) :
    Marked F I A (recordCopyEdge F a b s) a b := by
  refine ⟨?_, .inr ⟨fun hf => ?_, ?_, Finset.mem_insert_self _ _⟩⟩
  · show a < (if _ then _ else _ : BitVector).size → (if _ then _ else _ : BitVector).test a = false
    split
    · exact fun _ => if_pos rfl
    · exact fun h => absurd h ‹_›
  · show b < (if b < s.self.targetList.size then _ else _ : BitVector).size
    rw [if_pos (hb hf)]
    exact hb hf
  · show b < (if _ then _ else _ : BitVector).size → (if _ then _ else _ : BitVector).test b = false
    split
    · exact fun _ => if_pos rfl
    · exact fun h => absurd h ‹_›

omit [DecidableEq Obj] in
theorem size_recordCopyEdge {a b : NodeID} :
    (recordCopyEdge F a b s).self.copyWorkList.size = s.self.copyWorkList.size ∧
      (recordCopyEdge F a b s).self.targetList.size = s.self.targetList.size := by
  constructor
  · show (if _ then _ else _ : BitVector).size = _
    split <;> rfl
  · show (if _ then _ else _ : BitVector).size = _
    split <;> rfl

omit [DecidableEq Obj] in
/-- `recordCopyEdge` only unsets bits -/
theorem test_recordCopyEdge {a b x : NodeID} :
    ((recordCopyEdge F a b s).self.copyWorkList.test x = true →
        s.self.copyWorkList.test x = true) ∧
      ((recordCopyEdge F a b s).self.targetList.test x = true →
        s.self.targetList.test x = true) := by
  have hbit : ∀ (l : BitVector) (i : NodeID),
      (if i < l.size then l.reset i else l).test x = true → l.test x = true := by
    intro l i
    split
    · rw [BitVector.test_reset]
      split
      · exact fun h => by cases h
      · exact fun h => h
    · exact fun h => h
  exact ⟨hbit _ a, hbit _ b⟩

/-- an edge is inserted and recorded -/
theorem LsRun.record (I A : Prop) {a b : NodeID}
    (hs : Step F.mem F.walk s.core { s.core with
      graph := (s.core.graph.insertConstraint a b .copy).1 })
    (ha : a < s.core.graph.nodeNum) (hb : A → b < s.self.targetList.size)
    (hroot : ∀ G, s.core.Shape G → s.core.graph.superOf a = none ∧ s.core.graph.superOf b = none) :
    LsRun F I A s
      (recordCopyEdge F a b (s.withGraph (s.core.graph.insertConstraint a b .copy).1)) := by
  have hn := insertConstraint_sameNodes (g := s.core.graph) a b .copy
  refine ⟨.insert hs, size_recordCopyEdge.1, size_recordCopyEdge.2, rfl,
    fun _ => test_recordCopyEdge.1, fun _ => test_recordCopyEdge.2, fun _ h => h,
    Finset.subset_insert _ _, fun _ => rfl, .inr (noisy_recordCopyEdge (hn.nodeNum.symm ▸ ha)),
    fun _ _ => .inl rfl, fun G hsh u v huv => ?_⟩
  refine (unsat_insert (hroot G hsh).1 (hroot G hsh).2 huv).imp_right ?_
  rintro ⟨rfl, rfl⟩
  exact marked_recordCopyEdge hb

/-- an edge is recorded that is there already -/
theorem LsRun.recordOnly {a b : NodeID} (ha : a < s.core.graph.nodeNum) :
    LsRun F I A s (recordCopyEdge F a b s) :=
  ⟨.refl .., size_recordCopyEdge.1, size_recordCopyEdge.2, rfl, fun _ => test_recordCopyEdge.1,
    fun _ => test_recordCopyEdge.2, fun _ h => h, Finset.subset_insert _ _, fun _ => rfl,
    .inr (noisy_recordCopyEdge ha), fun _ _ => .inl rfl, fun _ _ _ _ huv => .inl huv⟩

/-- an edge that is there already is inserted -/
theorem LsRun.insert_old (I A : Prop) {a b : NodeID}
    (hs : Step F.mem F.walk s.core { s.core with
      graph := (s.core.graph.insertConstraint a b .copy).1 })
    (hold : (s.core.graph.insertConstraint a b .copy).2 = false) :
    LsRun F I A s (s.withGraph (s.core.graph.insertConstraint a b .copy).1) := by
  refine ⟨.insert hs, rfl, rfl, rfl, fun _ h => h, fun _ h => h, fun _ h => h, Finset.Subset.refl _,
    fun _ => rfl, .inl rfl, fun _ _ => .inl rfl, fun _ _ u v huv => .inl ⟨?_, huv.2⟩⟩
  rcases (mem_succ_insertConstraint a b .copy .copy u v).mp huv.1 with h | ⟨-, h1, h2, h3⟩
  · exact h
  · have hnew := insertConstraint_snd (g := s.core.graph) a b .copy
    rw [hold, ← h1, ← h2] at hnew
    by_contra hno
    exact Bool.false_ne_true (hnew.mpr ⟨hno, h3⟩)

/-- the node of a field object is made -/
theorem LsRun.field (I A : Prop) (hg : s.core.graph.Inv) {f : Obj}
    (hs : Step F.mem F.walk s.core (s.core.addCGNode (.objNode f))) :
    LsRun F I A s { s with core := s.core.addCGNode (.objNode f) } := by
  refine ⟨.field hg hs, rfl, rfl, rfl, fun _ h => h, fun _ h => h, fun _ h => h,
    Finset.Subset.refl _, fun _ => rfl, .inl rfl,
    fun m hm => .inl (Shape.pts_addCGNode_of_lt hm), fun G hsh u v huv => .inl ?_⟩
  obtain ⟨hedge, hsub⟩ := huv
  have hedge' : v ∈ s.core.graph.succ .copy u := (hsh.nodeAdded _).succ .copy (by decide) u ▸ hedge
  obtain ⟨hu, hv⟩ := hg.edge_lt _ _ _ hedge'
  rw [Shape.pts_addCGNode_of_lt hu, Shape.pts_addCGNode_of_lt hv] at hsub
  exact ⟨hedge', hsub⟩

/-- an address edge is inserted, and with it the object -/
theorem LsRun.insertField {i d : NodeID} (h : s.core.Sane)
    (hs : Step F.mem F.walk s.core { s.core with
      graph := (s.core.graph.insertConstraint (i + 1) d .copy).1 })
    (ho : Offered F.mem { s.core with
      graph := (s.core.graph.insertConstraint (i + 1) d .copy).1 } i d)
    (hls : d < s.self.lsWorkList.size) (hgep : ∀ G, s.core.Shape G → G d) :
    LsRun F True A s
      (PartialUpdate.insertField i d
        (s.withGraph (s.core.graph.insertConstraint (i + 1) d .copy).1)) := by
  have hn := insertConstraint_sameNodes (g := s.core.graph) (i + 1) d .copy
  obtain ⟨x, o, f, gep, hx, hkx, hkd, hf, hi, hif, -⟩ := id ho
  have hd : d < s.core.graph.nodeNum := (h.handled_lt d x hx).1
  set t := PartialUpdate.insertField i d
    (s.withGraph (s.core.graph.insertConstraint (i + 1) d .copy).1) with ht
  have hpts : ∀ m, t.core.pts m = if m = d then insert i (s.core.pts d) else s.core.pts m :=
    fun m => rfl
  have hgrow : ∀ m, s.core.pts m ⊆ t.core.pts m := by
    intro m
    rw [hpts]
    split
    · rename_i hm
      rw [hm]
      exact Finset.subset_insert _ _
    · exact Finset.Subset.refl _
  have hcopy : ∀ m, t.self.copyWorkList.test m =
      if m = d then false else s.self.copyWorkList.test m := fun m => rfl
  have hbits : ∀ m, t.self.lsWorkList.test m =
      if m = d then false else s.self.lsWorkList.test m := fun m => rfl
  have hbit : ∀ {m : NodeID} {b : Bool}, (if m = d then false else b) = true → b = true := by
    intro m b hb
    split at hb
    · cases hb
    · exact hb
  refine ⟨(Extends.insert hs).trans (PtsGrow.extends ⟨.single (.insert d x i o f gep hx hkx hkd hf
    hi hif), rfl, rfl, hgrow⟩), rfl, rfl, rfl, fun m hm => ?_, fun _ h => h, fun m hm => ?_,
    Finset.Subset.refl _, fun h => absurd trivial h, .inr ?_, fun m _ => ?_, fun G hsh u v huv => ?_⟩
  · rw [hcopy] at hm
    exact hbit hm
  · rw [hbits] at hm
    exact hbit hm
  · by_cases hsize : d < s.self.copyWorkList.size
    · exact .inl ⟨d, hsize, if_pos rfl⟩
    · exact .inr ((not_lt.mp hsize).trans_lt (hn.nodeNum.symm ▸ hd))
  · by_cases hm : m = d
    · right
      rw [hcopy, hbits, if_pos hm, if_pos hm]
      exact ⟨trivial, rfl, rfl⟩
    · left
      rw [hpts, if_neg hm]
  · by_cases hu : u = d
    · right
      refine ⟨fun _ => ?_, .inl ⟨trivial, hu ▸ hls, ?_⟩⟩
      · rw [hcopy, if_pos hu]
      · rw [hbits, if_pos hu]
    · left
      obtain ⟨hedge, hsub⟩ := huv
      have hi' : i < s.core.graph.nodeNum := hn.nodeNum ▸ hi
      have hif' : s.core.graph.kind i = .objNode f := (hn.kind i).symm.trans hif
      have hia := Shape.isAddr_succ hi' hif'
      have hold : ¬ s.core.pts u ⊆ s.core.pts v := by
        intro h1
        refine hsub ?_
        rw [hpts u, if_neg hu]
        exact h1.trans (hgrow v)
      rcases unsat_insert (hsh.addr_fixed _ hia).1 (hsh.gep_fixed d (hgep G hsh)).1
        ⟨hedge, hold⟩ with h1 | ⟨rfl, rfl⟩
      · exact h1
      · -- the address node holds the object that was inserted
        refine absurd ?_ hsub
        rw [hpts, hpts, if_neg hu, if_pos rfl, hsh.pts_addr i f hi' hif']
        exact Finset.singleton_subset_iff.mpr (Finset.mem_insert_self _ _)

/-! ## the edges of one node -/

/-- if the lists have changed, the measure has gone down -/
def Progress (F : Config Obj Val) (s₀ s : St Obj Val) : Prop :=
  s.self = s₀.self ∨ s.core.measure F.mem < s₀.core.measure F.mem

theorem Progress.trans {s₁ s₂ s₃ : St Obj Val} (h : Progress F s₁ s₂) (h' : Progress F s₂ s₃)
    (h₂ : s₂.core.measure F.mem ≤ s₁.core.measure F.mem)
    (h₃ : s₃.core.measure F.mem ≤ s₂.core.measure F.mem) : Progress F s₁ s₃ := by
  rcases h' with h1 | h1
  · rcases h with h2 | h2
    · exact .inl (h1.trans h2)
    · exact .inr (h₃.trans_lt h2)
  · exact .inr (h1.trans_le h₂)

omit [DecidableEq Obj] in
theorem neutral_recordCopyEdge : Neutral (recordCopyEdge F) := fun _ _ _ => rfl

theorem addCopies_run (h : s.core.Sane) {ends : ConsGraph Obj Val → NodeID → NodeID × NodeID}
    {l : List NodeID} (hE : Ends F.mem F.walk s.core ends l)
    (hb : ∀ x ∈ l, A → (ends s.core.graph x).2 < s.self.targetList.size) :
    let r := addCopies noop (recordCopyEdge F) ends l (s, false)
    LsRun F I A s r.1 ∧ Progress F s r.1 := by
  intro r
  have hrun : LsRun F I A s r.1 ∧ (r.1.self = s.self ∨ r.2 = true) := by
    refine foldl_inv
      (I := fun t : St Obj Val × Bool => LsRun F I A s t.1 ∧ (t.1.self = s.self ∨ t.2 = true))
      (fun t x hx ⟨h1, h2⟩ => ?_) ⟨.refl .., .inl rfl⟩
    obtain ⟨h3, h4⟩ := hE.root x hx
    have hs := hE.step _ h1.ext x hx
    rw [hE.same _ h1.ext, addCopyThen_eq]
    dsimp only [noop]
    cases hi : (t.1.core.graph.insertConstraint (ends s.core.graph x).1 (ends s.core.graph x).2
      .copy).2 with
    | false => exact ⟨h1.trans (.insert_old I A hs hi), h2⟩
    | true =>
      refine ⟨h1.trans (.record I A hs ((hE.lt x hx).1.trans_le h1.ext.nodeNum)
        (fun hf => h1.targetSize.symm ▸ hb x hx hf) fun _ _ => ?_), .inr rfl⟩
      exact ⟨(h1.ext.superOf _).trans h3, (h1.ext.superOf _).trans h4⟩
  have hmeas := (addCopies_spec h hE neutral_noop (neutral_recordCopyEdge (F := F)).tame).2.2.1
  exact ⟨hrun.1, hrun.2.imp_right hmeas⟩

/-- one object is indexed, with either callback -/
theorem offsetStep_run {callBack : CallBack Obj Val Work} {d x : NodeID} {gep : Val}
    (r : St Obj Val × Bool) (hr : r.1.core.Sane)
    (hd : r.1.core.graph.kind d = .ptrNode (some gep)) (hx : x ∈ r.1.core.handledGEPMap d)
    (hcb : ∀ i t, LsRun F I A r.1 t →
      Step F.mem F.walk t.core { t.core with
        graph := (t.core.graph.insertConstraint (i + 1) d .copy).1 } →
      Offered F.mem { t.core with
        graph := (t.core.graph.insertConstraint (i + 1) d .copy).1 } i d →
      LsRun F I A t
        (callBack i d (t.withGraph (t.core.graph.insertConstraint (i + 1) d .copy).1))) :
    LsRun F I A r.1 (offsetStep F.mem noop callBack d gep r x).1 := by
  obtain ⟨hdlt, hxlt⟩ := hr.handled_lt d x hx
  rcases offsetStep_cases noop callBack F.mem d gep r x with
    ⟨heq, -⟩ | ⟨o, f, i, c, ho, hf, hc, heq⟩
  · rw [heq]
    exact .refl ..
  · obtain ⟨hrun, hh, hi, hif⟩ : LsRun F I A r.1 { r.1 with core := c } ∧
        c.handledGEPMap = r.1.core.handledGEPMap ∧ i < c.graph.nodeNum ∧
        c.graph.kind i = .objNode f := by
      rcases hc with ⟨rfl, hfo⟩ | ⟨rfl, hfo, rfl⟩
      · obtain ⟨h1, h2⟩ := findObj_eq_some hfo
        exact ⟨.refl .., rfl, h1, h2⟩
      · have hadd := (hr.inv.addCGNode (.objNode f)).2
        exact ⟨.field I A hr.inv (.field d x o f gep hx ho hd hf hfo), rfl, hadd.lt,
          hadd.kind_new⟩
    have hkx := (hrun.ext.kind x hxlt).trans ho
    have hkd := (hrun.ext.kind d hdlt).trans hd
    have hxc : x ∈ c.handledGEPMap d := by rwa [hh]
    rw [heq]
    split
    · exact hrun
    · have hs := Step.addrOf (M := F.mem) (w := F.walk) (c := c) d x i o f gep hxc hkx hkd hf
        hi hif
      have hins := Extends.insert hs
      have hself := covers_insertConstraint_self (g := c.graph) (i + 1) d .copy
      refine hrun.trans ?_
      have heq' : (addAddrOf { r.1 with core := c } noop i d).1 =
          ({ r.1 with core := c } : St Obj Val).withGraph
            (c.graph.insertConstraint (i + 1) d .copy).1 := by
        rw [addAddrOf_eq]
        dsimp only [noop]
        exact ite_self _
      rw [heq']
      exact hcb i { r.1 with core := c } hrun hs
        ⟨x, o, f, gep, hxc, (hins.kind x (hxlt.trans_le hrun.ext.nodeNum)).trans hkx,
          (hins.kind d (hdlt.trans_le hrun.ext.nodeNum)).trans hkd, hf, hi.trans_le hins.nodeNum,
          (hins.kind i hi).trans hif, hself⟩

theorem processOffset_run {callBack : CallBack Obj Val Work} (h : s.core.Sane) {u d : NodeID}
    (hd : d ∈ s.core.graph.succ .offset u)
    (hcb : ∀ i t, LsRun F I A s t →
      Step F.mem F.walk t.core { t.core with
        graph := (t.core.graph.insertConstraint (i + 1) d .copy).1 } →
      Offered F.mem { t.core with
        graph := (t.core.graph.insertConstraint (i + 1) d .copy).1 } i d →
      LsRun F I A t
        (callBack i d (t.withGraph (t.core.graph.insertConstraint (i + 1) d .copy).1))) :
    LsRun F I A s (s.processOffset F.mem noop callBack u d).1 := by
  have hdlt := (h.inv.edge_lt _ _ _ hd).2
  rw [processOffset]
  split
  swap
  · exact .refl ..
  rename_i gep hgep
  set new := s.core.pts u \ s.core.handledGEPMap d with hnew
  set c₁ : Core Obj Val := { s.core with
    handledGEPMap := fun m =>
      if m = d then s.core.handledGEPMap m ∪ new else s.core.handledGEPMap m } with hc₁
  have hext₁ : s.core.Extends F.mem F.walk c₁ := .note hd Finset.sdiff_subset
  have hrun₁ : LsRun F I A s { s with core := c₁ } :=
    ⟨hext₁, rfl, rfl, rfl, fun _ h => h, fun _ h => h, fun _ h => h, Finset.Subset.refl _,
      fun _ => rfl, .inl rfl, fun _ _ => .inl rfl, fun _ _ _ _ h => .inl h⟩
  have hsane₁ := (h.run hext₁.steps).1
  have hhd : c₁.handledGEPMap d = s.core.handledGEPMap d ∪ new := if_pos rfl
  suffices hI : LsRun F I A { s with core := c₁ }
      ((bits new).foldl (offsetStep F.mem noop callBack d gep) ({ s with core := c₁ }, false)).1
    from hrun₁.trans hI
  refine (foldl_inv (I := fun t : St Obj Val × Bool => LsRun F I A { s with core := c₁ } t.1)
    (fun t x hx hI => ?_) (.refl ..))
  refine hI.trans (offsetStep_run t (hsane₁.run hI.ext.steps).1 ((hI.ext.kind d hdlt).trans hgep)
    (hI.ext.handled d ?_) fun i t' ht' hs' ho' => hcb i t' (hrun₁.trans (hI.trans ht')) hs' ho')
  rw [hhd]
  exact Finset.mem_union_right _ ((mem_bits _ _).mp hx)

/-- the address edges are recorded -/
theorem recordAddrOf_run (h : s.core.Sane) {u d : NodeID} (hd : d ∈ s.core.graph.succ .offset u)
    (hb : A → d < s.self.targetList.size) :
    LsRun F I A s (s.processOffset F.mem noop (recordAddrOf F) u d).1 :=
  processOffset_run h hd fun i t ht hst ho => by
    obtain ⟨x, o, f, gep, hx, -, -, -, hi, hif, -⟩ := ho
    have htn := insertConstraint_sameNodes (g := t.core.graph) (i + 1) d .copy
    have hts := (h.run ht.ext.steps).1
    have hi' : i < t.core.graph.nodeNum := htn.nodeNum ▸ hi
    have hif' : t.core.graph.kind i = .objNode f := (htn.kind i).symm.trans hif
    refine .record I A hst (hts.addrNodes i f hif' hi').1 (fun hf => ht.targetSize ▸ hb hf)
      fun G hsh => ⟨(hsh.addr_fixed _ (Shape.isAddr_succ hi' hif')).1, ?_⟩
    refine (hsh.gep_fixed d (hsh.wf.gep_target u d ?_)).1
    rwa [ht.ext.succ .offset (by decide) (by decide)]

/-- every object is indexed, if the newly handled ones are taken -/
theorem LsRun.allIndexed (h : LsRun F I A s₀ s) (hsh : s₀.core.Shape G)
    (hi : s₀.core.AllIndexed F.mem)
    (ht : ∀ e, ∀ x ∈ s.core.handledGEPMap e, x ∈ s₀.core.handledGEPMap e ∨
      s.core.graph.IsGep e ∧ s.core.Taken F.mem e x) : s.core.AllIndexed F.mem := by
  intro e x hx
  rcases ht e x hx with h1 | ⟨⟨u, hu⟩, h2⟩
  · exact hsh.indexed_run h.ext.steps (hsh.handled_gep e x h1) (hsh.handled_lt e x h1) (hi e x h1)
  · have hsh' := hsh.run h.ext.steps
    exact hsh'.indexed_of_taken (hsh'.wf.gep_target u e hu) h2

/-! ## the two loops -/

/-- What holds in the loops of the phase.  The objects that were handled in them have been taken. -/
structure LsLoop (F : Config Obj Val) (I : Prop) (s₀ s : St Obj Val) : Prop where
  run : LsRun F I True s₀ s
  progress : Progress F s₀ s
  taken : ∀ e, ∀ x ∈ s.core.handledGEPMap e, x ∈ s₀.core.handledGEPMap e ∨
    s.core.graph.IsGep e ∧ s.core.Taken F.mem e x

namespace LsLoop

theorem refl (F : Config Obj Val) (I : Prop) (s : St Obj Val) : LsLoop F I s s :=
  ⟨.refl .., .inl rfl, fun _ _ hx => .inl hx⟩

/-- the turns over a list -/
theorem fold (h : LsLoop F I s₀ s) {l : List NodeID} {f : St Obj Val → NodeID → St Obj Val}
    {Q : NodeID → St Obj Val → Prop}
    (hf : ∀ t, LsLoop F I s₀ t → ∀ e ∈ l, LsLoop F I s₀ (f t e) ∧
      LsRun F I True t (f t e) ∧ Q e (f t e))
    (hQ : ∀ e (t t' : St Obj Val), LsRun F I True t t' → Q e t → Q e t') :
    LsLoop F I s₀ (l.foldl f s) ∧ LsRun F I True s (l.foldl f s) ∧ ∀ e ∈ l, Q e (l.foldl f s) := by
  have hall := foldl_all (f := f) (l := l) (s := s)
    (I := fun t => LsLoop F I s₀ t ∧ LsRun F I True s t) (Q := Q)
    (fun t e he hI => by
      obtain ⟨h1, h2, -⟩ := hf t hI.1 e he
      exact ⟨h1, hI.2.trans h2⟩)
    (fun t e he hI => (hf t hI.1 e he).2.2)
    (fun t e he e' hI => hQ e' t _ (hf t hI.1 e he).2.1)
    ⟨h, .refl ..⟩
  exact ⟨hall.1.1, hall.1.2, hall.2⟩

section
variable (hsane : s₀.core.Sane) (h : LsLoop F I s₀ s) {n : NodeID}
include hsane h

theorem sane : s.core.Sane := (hsane.run h.run.ext.steps).1

/-- a run that handles no object -/
theorem next {s' : St Obj Val} (hr : LsRun F I True s s') (hp : Progress F s s')
    (hh : s'.core.handledGEPMap = s.core.handledGEPMap) : LsLoop F I s₀ s' := by
  have hs := h.sane hsane
  refine ⟨h.run.trans hr, h.progress.trans hp (hsane.run h.run.ext.steps).2 (hs.run hr.ext.steps).2,
    fun e x hx => ?_⟩
  rw [hh] at hx
  obtain ⟨he, hxn⟩ := hs.handled_lt e x hx
  refine (h.taken e x hx).imp_right fun ⟨⟨u, hu⟩, h1⟩ => ⟨⟨u, ?_⟩, h1.extends hr.ext he hxn⟩
  rwa [hr.ext.succ .offset (by decide) (by decide)]

theorem processOffset {callBack : CallBack Obj Val Work} {d : NodeID}
    (hd : d ∈ s.core.graph.succ .offset n)
    (hrun : LsRun F I True s (s.processOffset F.mem noop callBack n d).1)
    (hcb : ∀ i (t : St Obj Val), t.core.Offered F.mem i d →
      t.core.PtsGrow F.mem F.walk (callBack i d t).core) :
    let s' := (s.processOffset F.mem noop callBack n d).1
    LsLoop F I s₀ s' ∧ ((∃ gep, s.core.graph.kind d = .ptrNode (some gep)) →
      s.core.pts n ⊆ s'.core.handledGEPMap d) := by
  intro s'
  have hs := h.sane hsane
  obtain ⟨-, hprog, -, hall, htaken⟩ := processOffset_spec (M := F.mem) (w := F.walk) callBack hs
    neutral_noop hd fun i t _ => hcb i t
  refine ⟨⟨h.run.trans hrun, ?_, fun e x hx => ?_⟩, hall⟩
  · refine h.progress.trans (hprog.imp_left fun h1 => ?_) (hsane.run h.run.ext.steps).2
      (hs.run hrun.ext.steps).2
    rw [show s' = s from h1]
  · have hgep : ∀ e, s.core.graph.IsGep e → s'.core.graph.IsGep e := fun e ⟨u, hu⟩ =>
      ⟨u, by rwa [hrun.ext.succ .offset (by decide) (by decide)]⟩
    rcases htaken e x hx with h1 | ⟨rfl, -, h2⟩
    · obtain ⟨he, hxn⟩ := hs.handled_lt e x h1
      exact (h.taken e x h1).imp_right fun ⟨h3, h4⟩ => ⟨hgep e h3, h4.extends hrun.ext he hxn⟩
    · exact .inr ⟨hgep e ⟨n, hd⟩, h2⟩

end

end LsLoop

/-! ## the first loop -/

namespace LsLoop

section
variable (hsane : s₀.core.Sane) (hsize : s₀.self.targetList.size = s₀.core.graph.nodeNum)
  (h : LsLoop F False s₀ s) {n : NodeID}
include h

theorem pts_eq (hn : n < s₀.core.graph.nodeNum) : s.core.pts n = s₀.core.pts n :=
  (h.run.pts n hn).resolve_right fun h1 => h1.1

include hsane hsize

theorem load {v : NodeID} (hv : v ∈ s₀.core.graph.succ .load n) :
    let s' := (s.processLoad noop (recordCopyEdge F) v (s.core.pts n)).1
    LsLoop F False s₀ s' ∧ LsRun F False True s s' ∧
      ∀ x ∈ s₀.core.pts n, s'.core.graph.Covers .copy x v := by
  intro s'
  have hs := h.sane hsane
  obtain ⟨hn, hvn⟩ := hsane.inv.edge_lt _ _ _ hv
  have hv' : v ∈ s.core.graph.succ .load n := by
    rwa [h.run.ext.succ .load (by decide) (by decide)]
  have hE := ends_load (M := F.mem) (w := F.walk) hs hv' (Finset.Subset.refl _)
  obtain ⟨h1, h2⟩ := addCopies_run (F := F) (I := False) (A := True) hs hE
    fun _ _ _ => h.run.targetSize.symm ▸ hsize.symm ▸ hvn
  obtain ⟨-, h3, -, h4⟩ := processLoad_spec (M := F.mem) (w := F.walk) hs neutral_noop
    (neutral_recordCopyEdge (F := F)).tame hv' (Finset.Subset.refl _)
  exact ⟨h.next hsane h1 h2 h3, h1, fun x hx => h4 x (h.pts_eq hn ▸ hx)⟩

theorem store {u : NodeID} (hu : n ∈ s₀.core.graph.succ .store u) :
    let s' := (s.processStore noop (recordCopyEdge F) u (s.core.pts n)).1
    LsLoop F False s₀ s' ∧ LsRun F False True s s' ∧
      ∀ x ∈ s₀.core.pts n, s'.core.graph.Covers .copy u x := by
  intro s'
  have hs := h.sane hsane
  obtain ⟨-, hn⟩ := hsane.inv.edge_lt _ _ _ hu
  have hu' : n ∈ s.core.graph.succ .store u := by
    rwa [h.run.ext.succ .store (by decide) (by decide)]
  have hE := ends_store (M := F.mem) (w := F.walk) hs hu' (Finset.Subset.refl _)
  obtain ⟨h1, h2⟩ := addCopies_run (F := F) (I := False) (A := True) hs hE fun x hx _ => by
    rw [h.run.targetSize, hsize, h.run.ext.getSuperNode]
    refine hsane.inv.getSuperNode_lt (hsane.pts_lt n x ?_)
    rw [← h.pts_eq hn]
    exact (mem_bits _ _).mp hx
  obtain ⟨-, h3, -, h4⟩ := processStore_spec (M := F.mem) (w := F.walk) hs neutral_noop
    (neutral_recordCopyEdge (F := F)).tame hu' (Finset.Subset.refl _)
  exact ⟨h.next hsane h1 h2 h3, h1, fun x hx => h4 x (h.pts_eq hn ▸ hx)⟩

theorem offset {d : NodeID} (hd : d ∈ s₀.core.graph.succ .offset n) :
    let s' := (s.processOffset F.mem noop (recordAddrOf F) n d).1
    LsLoop F False s₀ s' ∧ LsRun F False True s s' ∧
      ((∃ gep, s₀.core.graph.kind d = .ptrNode (some gep)) →
        s₀.core.pts n ⊆ s'.core.handledGEPMap d) := by
  intro s'
  have hs := h.sane hsane
  obtain ⟨hn, hdn⟩ := hsane.inv.edge_lt _ _ _ hd
  have hd' : d ∈ s.core.graph.succ .offset n := by
    rwa [h.run.ext.succ .offset (by decide) (by decide)]
  have hrun : LsRun F False True s s' := recordAddrOf_run hs hd' fun _ => by
    rw [h.run.targetSize, hsize]
    exact hdn
  obtain ⟨h1, h2⟩ := h.processOffset hsane hd' hrun fun _ t _ => .refl ..
  refine ⟨h1, hrun, fun hg => ?_⟩
  rw [← h.pts_eq hn]
  exact h2 (hg.imp fun gep h1 => (h.run.ext.kind d hdn).trans h1)

theorem loadEdges (n : NodeID) :
    LsLoop F False s₀ (loadEdges F s n) ∧ LsRun F False True s (PartialUpdate.loadEdges F s n) ∧
      ∀ v ∈ s₀.core.graph.succ .load n, ∀ x ∈ s₀.core.pts n,
        (PartialUpdate.loadEdges F s n).core.graph.Covers .copy x v := by
  have hsucc := h.run.ext.succ .load (by decide) (by decide) n
  obtain ⟨h1, h2, h3⟩ := h.fold
    (l := F.walk.walk (s.core.graph.succ .load n))
    (f := fun s dst => (s.processLoad noop (recordCopyEdge F) dst (s.core.pts n)).1)
    (Q := fun v t => ∀ x ∈ s₀.core.pts n, t.core.graph.Covers .copy x v)
    (fun t ht e he => ht.load hsane hsize (hsucc ▸ (F.walk.mem_walk _ _).mp he))
    (fun e t t' he hq x hx => he.ext.covers (by decide) (hq x hx))
  exact ⟨h1, h2, fun v hv => h3 v ((F.walk.mem_walk _ _).mpr (hsucc.symm ▸ hv))⟩

theorem storeEdges (n : NodeID) :
    LsLoop F False s₀ (storeEdges F s n) ∧ LsRun F False True s (PartialUpdate.storeEdges F s n) ∧
      ∀ u, n ∈ s₀.core.graph.succ .store u → ∀ x ∈ s₀.core.pts n,
        (PartialUpdate.storeEdges F s n).core.graph.Covers .copy u x := by
  have hpred : ∀ u, u ∈ s.core.graph.pred .store n ↔ n ∈ s₀.core.graph.succ .store u := fun u => by
    rw [← (h.sane hsane).inv.agree, h.run.ext.succ .store (by decide) (by decide)]
  obtain ⟨h1, h2, h3⟩ := h.fold
    (l := F.walk.walk (s.core.graph.pred .store n))
    (f := fun s src => (s.processStore noop (recordCopyEdge F) src (s.core.pts n)).1)
    (Q := fun u t => ∀ x ∈ s₀.core.pts n, t.core.graph.Covers .copy u x)
    (fun t ht e he => ht.store hsane hsize ((hpred e).mp ((F.walk.mem_walk _ _).mp he)))
    (fun e t t' he hq x hx => he.ext.covers (by decide) (hq x hx))
  exact ⟨h1, h2, fun u hu => h3 u ((F.walk.mem_walk _ _).mpr ((hpred u).mpr hu))⟩

theorem offsetEdges (n : NodeID) :
    LsLoop F False s₀ (offsetEdges F (recordAddrOf F) s n) ∧
      LsRun F False True s (PartialUpdate.offsetEdges F (recordAddrOf F) s n) ∧
      ∀ d ∈ s₀.core.graph.succ .offset n, (∃ gep, s₀.core.graph.kind d = .ptrNode (some gep)) →
        s₀.core.pts n ⊆
          (PartialUpdate.offsetEdges F (recordAddrOf F) s n).core.handledGEPMap d := by
  have hsucc := h.run.ext.succ .offset (by decide) (by decide) n
  obtain ⟨h1, h2, h3⟩ := h.fold
    (l := F.walk.walk (s.core.graph.succ .offset n))
    (f := fun s dst => (s.processOffset F.mem noop (recordAddrOf F) n dst).1)
    (Q := fun d t => (∃ gep, s₀.core.graph.kind d = .ptrNode (some gep)) →
      s₀.core.pts n ⊆ t.core.handledGEPMap d)
    (fun t ht e he => ht.offset hsane hsize (hsucc ▸ (F.walk.mem_walk _ _).mp he))
    (fun e t t' he hq hg => (hq hg).trans (he.ext.handled e))
  exact ⟨h1, h2, fun v hv => h3 v ((F.walk.mem_walk _ _).mpr (hsucc.symm ▸ hv))⟩

end

/-- the edges of `n` that the first loop goes through are closed -/
structure Done (F : Config Obj Val) (s₀ : St Obj Val) (n : NodeID) (s : St Obj Val) : Prop where
  load : ∀ v ∈ s₀.core.graph.succ .load n, ∀ x ∈ s₀.core.pts n, s.core.graph.Covers .copy x v
  store : ∀ u, n ∈ s₀.core.graph.succ .store u → ∀ x ∈ s₀.core.pts n, s.core.graph.Covers .copy u x
  offset : F.noAddrOfForOffset = false → ∀ d ∈ s₀.core.graph.succ .offset n,
    (∃ gep, s₀.core.graph.kind d = .ptrNode (some gep)) → s₀.core.pts n ⊆ s.core.handledGEPMap d

theorem processLsNode (hsane : s₀.core.Sane)
    (hsize : s₀.self.targetList.size = s₀.core.graph.nodeNum) (h : LsLoop F False s₀ s)
    (n : NodeID) :
    LsLoop F False s₀ (processLsNode F s n) ∧
      LsRun F False True s (PartialUpdate.processLsNode F s n) ∧
      Done F s₀ n (PartialUpdate.processLsNode F s n) := by
  obtain ⟨h1, e1, q1⟩ := h.storeEdges hsane hsize n
  obtain ⟨h2, e2, q2⟩ := h1.loadEdges hsane hsize n
  rw [PartialUpdate.processLsNode]
  split
  · rename_i hcfg
    refine ⟨h2, e1.trans e2, q2, fun u hu x hx => e2.ext.covers (by decide) (q1 u hu x hx),
      fun h => ?_⟩
    rw [hcfg] at h
    cases h
  · obtain ⟨h3, e3, q3⟩ := h2.offsetEdges hsane hsize n
    exact ⟨h3, e1.trans (e2.trans e3), fun v hv x hx => e3.ext.covers (by decide) (q2 v hv x hx),
      fun u hu x hx => (e2.trans e3).ext.covers (by decide) (q1 u hu x hx), fun _ => q3⟩

theorem first (hsane : s₀.core.Sane)
    (hsize : s₀.self.targetList.size = s₀.core.graph.nodeNum) (l : List NodeID) :
    LsLoop F False s₀ (l.foldl (PartialUpdate.processLsNode F) s₀) ∧
      ∀ n ∈ l, Done F s₀ n (l.foldl (PartialUpdate.processLsNode F) s₀) := by
  obtain ⟨h1, -, h2⟩ := (LsLoop.refl F False s₀).fold (l := l)
    (f := PartialUpdate.processLsNode F)
    (Q := Done F s₀) (fun t ht n _ => ht.processLsNode hsane hsize n)
    (fun n t t' he hq => ⟨fun v hv x hx => he.ext.covers (by decide) (hq.load v hv x hx),
      fun u hu x hx => he.ext.covers (by decide) (hq.store u hu x hx),
      fun hc d hd hg => (hq.offset hc d hd hg).trans (he.ext.handled d)⟩)
  exact ⟨h1, h2⟩

end LsLoop

/-! ## the second loop -/

/-- a set that has changed is noted in the lists -/
theorem LsRun.pts_eq (h : LsRun F I True s₀ s) {n : NodeID} (hn : n < s₀.core.graph.nodeNum)
    (hb : s.self.lsWorkList.test n = true) : s.core.pts n = s₀.core.pts n := by
  refine (h.pts n hn).resolve_right fun h1 => ?_
  rw [h1.2.2] at hb
  cases hb

/-- unless `n` is to be visited again, its offset edge to `d` is closed -/
structure OffsetDone (n d : NodeID) (s : St Obj Val) : Prop where
  lt : n < s.core.graph.nodeNum ∧ d < s.core.graph.nodeNum
  handled : s.self.lsWorkList.test n = true →
    (∃ gep, s.core.graph.kind d = .ptrNode (some gep)) → s.core.pts n ⊆ s.core.handledGEPMap d

theorem OffsetDone.run {n d : NodeID} (h : OffsetDone n d s₀) (hr : LsRun F I True s₀ s) :
    OffsetDone n d s := by
  refine ⟨⟨h.lt.1.trans_le hr.ext.nodeNum, h.lt.2.trans_le hr.ext.nodeNum⟩, fun hb hg => ?_⟩
  rw [hr.pts_eq h.lt.1 hb]
  exact (h.handled (hr.lsBit n hb) (hg.imp fun gep h1 => (hr.ext.kind d h.lt.2).symm.trans h1)).trans
    (hr.ext.handled d)

namespace LsLoop

section
variable (hsane : s₀.core.Sane)
  (hlt : ∀ n d, d ∈ s₀.core.graph.succ .offset n → d < s₀.self.lsWorkList.size)
  (h : LsLoop F True s₀ s)
include hsane hlt h

/-- the offset edge from `n` to `d`, where `n` may be given the object at once -/
theorem insertOffset {n d : NodeID} (hd : d ∈ s₀.core.graph.succ .offset n) :
    let s' := (s.processOffset F.mem noop insertField n d).1
    LsLoop F True s₀ s' ∧ LsRun F True True s s' ∧
      OffsetDone n d s' := by
  intro s'
  have hs := h.sane hsane
  have hd' : d ∈ s.core.graph.succ .offset n := by
    rwa [h.run.ext.succ .offset (by decide) (by decide)]
  obtain ⟨hn, hdn⟩ := hs.inv.edge_lt _ _ _ hd'
  have hrun : LsRun F True True s s' := processOffset_run hs hd' fun i t ht hst ho =>
    .insertField (hs.run ht.ext.steps).1 hst ho
      (by rw [ht.lsSize, h.run.lsSize]; exact hlt n d hd)
      fun G hsh => hsh.wf.gep_target n d (by rwa [ht.ext.succ .offset (by decide) (by decide)])
  obtain ⟨h1, h2⟩ := h.processOffset hsane hd' hrun fun i t ho => by
    obtain ⟨x, o, f, gep, hx, hkx, hkd, hf, hi, hif, -⟩ := ho
    refine ⟨.single (.insert d x i o f gep hx hkx hkd hf hi hif), rfl, rfl, fun m => ?_⟩
    show _ ⊆ (if m = d then insert i (t.core.pts d) else t.core.pts m)
    split
    · rename_i hm
      rw [hm]
      exact Finset.subset_insert _ _
    · exact Finset.Subset.refl _
  refine ⟨h1, hrun, ⟨hn.trans_le hrun.ext.nodeNum, hdn.trans_le hrun.ext.nodeNum⟩,
    fun hb hg => ?_⟩
  rw [hrun.pts_eq hn hb]
  exact h2 (hg.imp fun gep h1 => (hrun.ext.kind d hdn).symm.trans h1)

theorem insertEdges (n : NodeID) :
    LsLoop F True s₀ (PartialUpdate.offsetEdges F insertField s n) ∧
      LsRun F True True s (PartialUpdate.offsetEdges F insertField s n) ∧
      ∀ d ∈ s₀.core.graph.succ .offset n,
        OffsetDone n d (PartialUpdate.offsetEdges F insertField s n) := by
  have hsucc := h.run.ext.succ .offset (by decide) (by decide) n
  obtain ⟨h1, h2, h3⟩ := h.fold (Q := OffsetDone n)
    (l := F.walk.walk (s.core.graph.succ .offset n))
    (f := fun s dst => (s.processOffset F.mem noop insertField n dst).1)
    (fun t ht e he => ht.insertOffset hsane hlt (hsucc ▸ (F.walk.mem_walk _ _).mp he))
    (fun _ _ _ he hq => hq.run he)
  exact ⟨h1, h2, fun v hv => h3 v ((F.walk.mem_walk _ _).mpr (hsucc.symm ▸ hv))⟩

omit h in
theorem second (l : List NodeID) :
    LsLoop F True s₀ (l.foldl (PartialUpdate.offsetEdges F insertField) s₀) ∧
      ∀ n ∈ l, ∀ d ∈ s₀.core.graph.succ .offset n,
        OffsetDone n d (l.foldl (PartialUpdate.offsetEdges F insertField) s₀) := by
  obtain ⟨h1, -, h2⟩ := (LsLoop.refl F True s₀).fold (l := l)
    (f := PartialUpdate.offsetEdges F insertField)
    (Q := fun n t => ∀ d ∈ s₀.core.graph.succ .offset n, OffsetDone n d t)
    (fun t ht n _ => ht.insertEdges hsane hlt n) (fun n t t' he hq d hd => (hq d hd).run he)
  exact ⟨h1, h2⟩

end

end LsLoop

/-! ## the whole phase -/

/-- the lists of the copy edges are the same -/
structure Quiet (s₀ s : St Obj Val) : Prop where
  copyWL : s.self.copyWorkList = s₀.self.copyWorkList
  target : s.self.targetList = s₀.self.targetList
  required : s.self.requiredEdge = s₀.self.requiredEdge

/-- how the phase ends: nothing is left to do, or the loop of `runSolver` goes on and the measure has
gone down -/
structure LsExit (F : Config Obj Val) (s₀ s : St Obj Val) : Prop where
  ext : s₀.core.Extends F.mem F.walk s.core
  copySize : s.self.copyWorkList.size = s₀.self.copyWorkList.size
  targetSize : s.self.targetList.size = s₀.self.targetList.size
  lsSize : s₀.core.graph.nodeNum ≤ s.self.lsWorkList.size
  exit : (Quiet s₀ s ∧ ∀ x, s.self.lsWorkList.test x = true) ∨
    (Noisy s ∧ s.core.measure F.mem < s₀.core.measure F.mem)

theorem LsLoop.quiet (h : LsLoop F I s₀ s) :
    s.self = s₀.self ∨ (Noisy s ∧ s.core.measure F.mem < s₀.core.measure F.mem) := by
  rcases h.run.noisy with h1 | h1
  · exact .inl h1
  · exact h.progress.imp_right fun h2 => ⟨h1, h2⟩

/-- the state between the two loops -/
def clearLs (s : St Obj Val) : St Obj Val :=
  { s with self := { s.self with lsWorkList := s.self.lsWorkList.setAll } }

/-- the state after the first loop, if there is no second one -/
def resizeLs (s : St Obj Val) : St Obj Val :=
  { s with self := { s.self with
      lsWorkList := (s.self.lsWorkList.resize s.core.graph.nodeNum true).setAll } }

theorem lsPhase_of_addrOf (hcfg : F.noAddrOfForOffset = false) (s : St Obj Val) :
    lsPhase F s = resizeLs (s.self.lsWorkList.unsetBits.foldl (processLsNode F) s) := by
  rw [lsPhase, hcfg]
  rfl

theorem lsPhase_of_insert (hcfg : F.noAddrOfForOffset = true) (s : St Obj Val) :
    lsPhase F s =
      let t := s.self.lsWorkList.unsetBits.foldl (processLsNode F) s
      t.self.lsWorkList.unsetBits.foldl (PartialUpdate.offsetEdges F insertField) (clearLs t) := by
  rw [lsPhase, hcfg]
  rfl

theorem LsLoop.offset_lt (h : LsLoop F False s₀ s) (hg : s₀.core.graph.Inv)
    (hlsize : s₀.self.lsWorkList.size = s₀.core.graph.nodeNum) (n d : NodeID)
    (hd : d ∈ (clearLs s).core.graph.succ .offset n) : d < (clearLs s).self.lsWorkList.size := by
  have hd' : d ∈ s.core.graph.succ .offset n := hd
  rw [h.run.ext.succ .offset (by decide) (by decide)] at hd'
  show d < s.self.lsWorkList.size
  rw [h.run.lsSize, hlsize]
  exact (hg.edge_lt _ _ _ hd').2

theorem lsPhase_exit (hsane : s₀.core.Sane)
    (hsize : s₀.self.targetList.size = s₀.core.graph.nodeNum)
    (hlsize : s₀.self.lsWorkList.size = s₀.core.graph.nodeNum) :
    LsExit F s₀ (lsPhase F s₀) := by
  obtain ⟨h1, -⟩ := LsLoop.first (F := F) hsane hsize s₀.self.lsWorkList.unsetBits
  set t := s₀.self.lsWorkList.unsetBits.foldl (processLsNode F) s₀ with ht
  cases hcfg : F.noAddrOfForOffset with
  | false =>
    rw [lsPhase_of_addrOf hcfg]
    refine ⟨h1.run.ext, h1.run.copySize, h1.run.targetSize, h1.run.ext.nodeNum, ?_⟩
    rcases h1.quiet with h2 | h2
    · refine .inl ⟨⟨?_, ?_, ?_⟩, fun _ => rfl⟩
      · show t.self.copyWorkList = _
        rw [h2]
      · show t.self.targetList = _
        rw [h2]
      · show t.self.requiredEdge = _
        rw [h2]
    · exact .inr h2
  | true =>
    rw [lsPhase_of_insert hcfg]
    have hsane₁ : (clearLs t).core.Sane := (hsane.run h1.run.ext.steps).1
    obtain ⟨h2, -⟩ := LsLoop.second (F := F) hsane₁
      (h1.offset_lt hsane.inv hlsize) t.self.lsWorkList.unsetBits
    set r := t.self.lsWorkList.unsetBits.foldl (PartialUpdate.offsetEdges F insertField) (clearLs t)
      with hr
    refine ⟨h1.run.ext.trans h2.run.ext, h2.run.copySize.trans h1.run.copySize,
      h2.run.targetSize.trans h1.run.targetSize, ?_, ?_⟩
    · rw [h2.run.lsSize, show (clearLs t).self.lsWorkList.size = _ from h1.run.lsSize, hlsize]
    rcases h2.quiet with h3 | h3
    · rcases h1.quiet with h4 | ⟨h4, h5⟩
      · refine .inl ⟨⟨?_, ?_, ?_⟩, fun x => ?_⟩
        · exact (congrArg Work.copyWorkList h3).trans (show t.self.copyWorkList = _ by rw [h4])
        · exact (congrArg Work.targetList h3).trans (show t.self.targetList = _ by rw [h4])
        · exact (congrArg Work.requiredEdge h3).trans (show t.self.requiredEdge = _ by rw [h4])
        · rw [show r.self = _ from h3]
          rfl
      · refine .inr ⟨?_, (hsane₁.run h2.run.ext.steps).2.trans_lt h5⟩
        have h6 : Noisy (clearLs t) := h4
        exact h6.of_self h3 h2.run.ext.nodeNum
    · exact .inr ⟨h3.1, h3.2.trans_le (hsane.run h1.run.ext.steps).2⟩

/-- After the first loop the edges that it goes through are closed, at every node. -/
theorem LsLoop.closed (h : LsLoop F False s₀ s) (hsh : s₀.core.Shape G)
    (hsize : s₀.self.lsWorkList.size = s₀.core.graph.nodeNum)
    (hls : ∀ n, s₀.self.lsWorkList.test n = true → s₀.core.LsClosed n)
    (hdone : ∀ n ∈ s₀.self.lsWorkList.unsetBits, Done F s₀ n s) (n : NodeID) :
    (∀ v, v ∈ s.core.graph.succ .load n → ∀ x ∈ s.core.pts n, s.core.graph.Covers .copy x v) ∧
    (∀ u, n ∈ s.core.graph.succ .store u → ∀ x ∈ s.core.pts n, s.core.graph.Covers .copy u x) ∧
    (F.noAddrOfForOffset = false ∨ s₀.self.lsWorkList.test n = true →
      ∀ d, d ∈ s.core.graph.succ .offset n → s.core.pts n ⊆ s.core.handledGEPMap d) := by
  rw [h.run.ext.succ .load (by decide) (by decide), h.run.ext.succ .offset (by decide) (by decide)]
  simp only [h.run.ext.succ .store (by decide) (by decide)]
  by_cases hn : n < s₀.core.graph.nodeNum
  · rw [h.pts_eq hn]
    cases hb : s₀.self.lsWorkList.test n with
    | true =>
      have h1 := (hls n hb).of_extends h.run.ext (h.pts_eq hn)
      have h2 := h1.load
      have h3 := h1.store
      have h4 := h1.offset
      rw [h.run.ext.succ .load (by decide) (by decide), h.pts_eq hn] at h2
      simp only [h.run.ext.succ .store (by decide) (by decide)] at h3
      rw [h.pts_eq hn] at h3
      rw [h.run.ext.succ .offset (by decide) (by decide), h.pts_eq hn] at h4
      exact ⟨h2, h3, fun _ => h4⟩
    | false =>
      have h1 := hdone n (BitVector.mem_unsetBits.mpr ⟨hsize ▸ hn, hb⟩)
      refine ⟨h1.load, h1.store, fun h2 d hd => ?_⟩
      exact h1.offset (h2.resolve_right Bool.false_ne_true) d hd
        (hsh.wf.gep_kind d (hsh.wf.gep_target n d hd)).2
  · refine ⟨fun v hv => ?_, fun u hu => ?_, fun _ d hd => ?_⟩
    · exact absurd (hsh.inv.edge_lt _ _ _ hv).1 hn
    · exact absurd (hsh.inv.edge_lt _ _ _ hu).2 hn
    · exact absurd (hsh.inv.edge_lt _ _ _ hd).1 hn

/-- After the phase the copy edges that are not satisfied are marked, and the other edges are closed
at the nodes that are not to be visited again. -/
theorem lsPhase_spec (hsh : s₀.core.Shape G)
    (hsize : s₀.self.targetList.size = s₀.core.graph.nodeNum)
    (hlsize : s₀.self.lsWorkList.size = s₀.core.graph.nodeNum)
    (hunsat : ∀ u v, ¬ s₀.core.Unsat u v)
    (hls : ∀ n, s₀.self.lsWorkList.test n = true → s₀.core.LsClosed n)
    (hi : s₀.core.AllIndexed F.mem) :
    (∀ u v, (lsPhase F s₀).core.Unsat u v → Marked F True True (lsPhase F s₀) u v) ∧
    (∀ n, (lsPhase F s₀).self.lsWorkList.test n = true → (lsPhase F s₀).core.LsClosed n) ∧
    (lsPhase F s₀).core.AllIndexed F.mem := by
  obtain ⟨h1, hdone⟩ := LsLoop.first (F := F) hsh.sane hsize s₀.self.lsWorkList.unsetBits
  set t := s₀.self.lsWorkList.unsetBits.foldl (processLsNode F) s₀ with ht
  have hclosed := h1.closed hsh hlsize hls hdone
  have hidx := h1.run.allIndexed hsh hi h1.taken
  have hmarked : ∀ u v, t.core.Unsat u v → Marked F False True t u v := fun u v huv =>
    (h1.run.unsat G hsh u v huv).resolve_left (hunsat u v)
  cases hcfg : F.noAddrOfForOffset with
  | false =>
    rw [lsPhase_of_addrOf hcfg]
    refine ⟨fun u v huv => ?_, fun n _ => ?_, hidx⟩
    · obtain ⟨h2, h3⟩ := hmarked u v huv
      exact ⟨h2, .inr (h3.resolve_left fun h4 => h4.1)⟩
    · obtain ⟨h2, h3, h4⟩ := hclosed n
      exact ⟨h2, h3, h4 (.inl hcfg)⟩
  | true =>
    rw [lsPhase_of_insert hcfg]
    have hsh₁ : (clearLs t).core.Shape G := hsh.run h1.run.ext.steps
    obtain ⟨h2, hdone₂⟩ := LsLoop.second (F := F) hsh₁.sane
      (h1.offset_lt hsh.inv hlsize) t.self.lsWorkList.unsetBits
    set r := t.self.lsWorkList.unsetBits.foldl (PartialUpdate.offsetEdges F insertField) (clearLs t)
      with hr
    refine ⟨fun u v huv => ?_, fun n hb => ?_, h2.run.allIndexed hsh₁ hidx h2.taken⟩
    · rcases h2.run.unsat G hsh₁ u v huv with h3 | h3
      · obtain ⟨h4, h5⟩ := hmarked u v h3
        exact h2.run.marked (I := True) (A := True) ⟨h4, .inr (h5.resolve_left fun h6 => h6.1)⟩
      · exact h3
    · obtain ⟨h3, h4, h5⟩ := hclosed n
      have hpts : n < t.core.graph.nodeNum → r.core.pts n = t.core.pts n := fun hn =>
        h2.run.pts_eq hn hb
      refine ⟨fun v hv x hx => ?_, fun u hu x hx => ?_, fun d hd => ?_⟩
      · rw [h2.run.ext.succ .load (by decide) (by decide)] at hv
        rw [hpts (hsh₁.inv.edge_lt _ _ _ hv).1] at hx
        exact h2.run.ext.covers (by decide) (h3 v hv x hx)
      · rw [h2.run.ext.succ .store (by decide) (by decide)] at hu
        rw [hpts (hsh₁.inv.edge_lt _ _ _ hu).2] at hx
        exact h2.run.ext.covers (by decide) (h4 u hu x hx)
      · rw [h2.run.ext.succ .offset (by decide) (by decide)] at hd
        obtain ⟨hn, hdn⟩ := hsh₁.inv.edge_lt _ _ _ hd
        cases hb₀ : s₀.self.lsWorkList.test n with
        | true =>
          rw [hpts hn]
          exact (h5 (.inr hb₀) d hd).trans (h2.run.ext.handled d)
        | false =>
          have hlist := h1.run.lsList id
          have hmem : n ∈ t.self.lsWorkList.unsetBits := by
            rw [hlist]
            refine BitVector.mem_unsetBits.mpr ⟨?_, hb₀⟩
            have hd₀ : d ∈ t.core.graph.succ .offset n := hd
            rw [h1.run.ext.succ .offset (by decide) (by decide)] at hd₀
            exact hlsize ▸ (hsh.inv.edge_lt _ _ _ hd₀).1
          refine (hdone₂ n hmem d hd).handled hb ?_
          have hgep := (hsh₁.wf.gep_kind d (hsh₁.wf.gep_target n d hd)).2
          exact hgep.imp fun gep h6 => (h2.run.ext.kind d hdn).trans h6

end PartialUpdate

end AserPTA
