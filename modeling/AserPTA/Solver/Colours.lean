import AserPTA.Solver.DeepPropagation

/-!
# Colours

`deepPropagate` colours the nodes of its path black or grey, and `unmarkBlack` resets the black ones.

* `ReachesStop`          the path of a call comes to an edge into `stop`;
* `deepPropagate_colour` then its nodes become grey, and if not, they become black;
* `Tidy`, `Greyed`       no node is grey, or one is that `unmarkBlack` does not know;
* `unmarked`, `stopMissed`   what is asked for after, and of, the work at an edge;
* `uncoloured_iff`       all nodes have the default colour after every call of `unmarkBlack` iff no path
                         comes to an edge into `stop`;
* `grey_left`            a run in which one does.
-/

namespace AserPTA

open Loop

namespace DeepPropagation

open AserPTA.Core ConsGraph State Wave

variable {Obj Val : Type}

/-- every node has the colour `DEFAULT` -/
def Uncoloured (s : St Obj Val) : Prop := ∀ n, s.self.color n = .default

/-- The path of a call starts at `start` and follows the first copy edges, as long as the nodes lack
something of what is propagated and are not coloured.  It comes to an edge into `stop`: the first copy
edge of a node that lacks something, or any copy edge of one that does not. -/
inductive ReachesStop (w : Walk) (stop : NodeID) : St Obj Val → NodeID → Finset NodeID → Prop
  | held {s start diff} : s.self.color start = .default → diff \ s.core.pts start = ∅ →
      stop ∈ s.core.graph.succ .copy start → ReachesStop w stop s start diff
  | first {s start diff rest} : s.self.color start = .default → diff \ s.core.pts start ≠ ∅ →
      w.walk (s.core.graph.succ .copy start) = stop :: rest → ReachesStop w stop s start diff
  | next {s start diff next rest} : s.self.color start = .default → diff \ s.core.pts start ≠ ∅ →
      w.walk (s.core.graph.succ .copy start) = next :: rest →
      ReachesStop w stop (grow start (diff \ s.core.pts start) s) next (diff \ s.core.pts start) →
      ReachesStop w stop s start diff

/-- nothing is grey, and what is black will be reset -/
structure Tidy (s : St Obj Val) : Prop where
  grey : ∀ n, s.self.color n ≠ .grey
  black : ∀ n, s.self.color n = .black ↔ n ∈ s.self.blackNodes

/-- a node is grey that will not be reset -/
def Greyed (s : St Obj Val) : Prop := ∃ n, s.self.color n = .grey ∧ n ∉ s.self.blackNodes

variable {w : Walk} {s : St Obj Val} {r : Flagged Obj Val Fields} {start stop : NodeID}
  {diff : Finset NodeID}

/-! ## one call -/

theorem Tidy.of_uncoloured (h : Uncoloured s) (hb : s.self.blackNodes = []) : Tidy s := by
  refine ⟨fun n => ?_, fun n => ?_⟩
  · rw [h n]
    decide
  · rw [h n, hb]
    exact iff_of_false (by decide) List.not_mem_nil

theorem Tidy.blacken (h : Tidy s) (n : NodeID) : Tidy (blacken n s) := by
  have hcol : ∀ m, (DeepPropagation.blacken n s).self.color m =
      if m = n then .black else s.self.color m := fun m => rfl
  have hmem : ∀ m, m ∈ (DeepPropagation.blacken n s).self.blackNodes ↔
      m ∈ s.self.blackNodes ∨ m = n := by
    intro m
    show m ∈ s.self.blackNodes ++ [n] ↔ _
    rw [List.mem_append, List.mem_singleton]
  refine ⟨fun m => ?_, fun m => ?_⟩ <;> rw [hcol]
  · split
    · decide
    · exact h.grey m
  · rw [hmem]
    split
    · next hm => exact iff_of_true rfl (.inr hm)
    · next hm => exact (h.black m).trans (or_iff_left hm).symm

theorem Tidy.unmarkBlack (h : Tidy s) : Uncoloured (unmarkBlack s) := by
  intro n
  show (if n ∈ s.self.blackNodes then _ else _) = _
  split
  · rfl
  · next hn =>
    cases hc : s.self.color n with
    | default => rfl
    | grey => exact absurd hc (h.grey n)
    | black => exact absurd ((h.black n).mp hc) hn

theorem Greyed.unmarkBlack (h : Greyed s) : ¬ Uncoloured (unmarkBlack s) := by
  obtain ⟨n, hn, hb⟩ := h
  intro hu
  have hc : (DeepPropagation.unmarkBlack s).self.color n = s.self.color n := if_neg hb
  rw [hu n, hn] at hc
  cases hc

/-- The call returns true iff its path comes to an edge into `stop`.  Then its start is grey and no node
is noted for `unmarkBlack`; else everything it colours is black.  The induction is on the fuel, which
is enough (`deepPropagate_fuel`). -/
theorem deepPropagate_colour (fuel : Nat) (r : Flagged Obj Val Fields) (start stop : NodeID)
    (diff : Finset NodeID) (hg : r.1.core.graph.Inv) (hlt : start < r.1.core.graph.nodeNum)
    (hfuel : (lacking diff r.1.core).card < fuel) (ht : Tidy r.1) :
    let r' := deepPropagate w fuel r start stop diff
    (r'.2 = true ∧ ReachesStop w stop r.1 start diff ∧ r'.1.1.self.color start = .grey ∧
        r'.1.1.self.blackNodes = r.1.self.blackNodes) ∨
      (r'.2 = false ∧ ¬ ReachesStop w stop r.1 start diff ∧ Tidy r'.1.1) := by
  induction fuel generalizing r start diff with
  | zero => exact absurd hfuel (Nat.not_lt_zero _)
  | succ fuel ih =>
    intro r'
    have hr' : r' = deepPropagate w (fuel + 1) r start stop diff := rfl
    rw [deepPropagate] at hr'
    have hgrey : ∀ t : St Obj Val, (setColor start .grey t).self.color start = .grey := fun _ =>
      if_pos rfl
    cases hc : r.1.self.color start with
    | grey => exact absurd hc (ht.grey start)
    | black =>
      simp only [hc] at hr'
      rw [hr']
      refine .inr ⟨rfl, fun h => ?_, ht⟩
      cases h <;> simp_all
    | default =>
      simp only [hc] at hr'
      by_cases hnew : diff \ r.1.core.pts start = ∅
      · rw [if_pos hnew] at hr'
        by_cases hstop : stop ∈ r.1.core.graph.succ .copy start
        · rw [if_pos hstop] at hr'
          rw [hr']
          exact .inl ⟨rfl, .held hc hnew hstop, hgrey _, rfl⟩
        · rw [if_neg hstop] at hr'
          rw [hr']
          refine .inr ⟨rfl, fun h => ?_, ht.blacken start⟩
          cases h with
          | held _ _ h => exact hstop h
          | first _ h _ => exact h hnew
          | next _ h _ _ => exact h hnew
      · rw [if_neg hnew, graph_grow] at hr'
        cases hw : w.walk (r.1.core.graph.succ .copy start) with
        | nil =>
          simp only [hw] at hr'
          rw [hr']
          refine .inr ⟨rfl, fun h => ?_, Tidy.blacken (s := grow start _ r.1) ⟨ht.grey, ht.black⟩ start⟩
          cases h with
          | held _ h _ => exact hnew h
          | first _ _ h => rw [hw] at h; cases h
          | next _ _ h _ => rw [hw] at h; cases h
        | cons next rest =>
          simp only [hw] at hr'
          by_cases hs : next = stop
          · rw [if_pos hs, if_pos rfl] at hr'
            rw [hr']
            exact .inl ⟨rfl, .first hc hnew (hs ▸ hw), hgrey _, rfl⟩
          · rw [if_neg hs] at hr'
            have hedge : next ∈ r.1.core.graph.succ .copy start :=
              (w.mem_walk _ _).mp (hw ▸ List.mem_cons_self ..)
            have hless := lacking_grow hlt hnew
            have hrec := ih (grow start (diff \ r.1.core.pts start) r.1, true) next
              (diff \ r.1.core.pts start) (by rw [graph_grow]; exact hg)
              (by rw [graph_grow]; exact (hg.edge_lt _ _ _ hedge).2)
              (hless.trans_le (Nat.le_of_lt_succ hfuel)) ⟨ht.grey, ht.black⟩
            rcases hrec with ⟨h1, h2, -, h4⟩ | ⟨h1, h2, h3⟩
            · rw [if_pos h1] at hr'
              rw [hr']
              exact .inl ⟨rfl, .next hc hnew hw h2, hgrey _, h4⟩
            · rw [if_neg (by rw [h1]; exact Bool.false_ne_true)] at hr'
              rw [hr']
              refine .inr ⟨rfl, fun h => ?_, h3.blacken start⟩
              cases h with
              | held _ h _ => exact hnew h
              | first _ _ h =>
                rw [hw] at h
                exact hs (List.cons.inj h).1
              | next _ _ h h' =>
                rw [hw] at h
                obtain ⟨rfl, -⟩ := List.cons.inj h
                exact h2 h'

/-- a call does not touch a node that is grey -/
theorem Greyed.deepPropagate (fuel : Nat) (r : Flagged Obj Val Fields) (start stop : NodeID)
    (diff : Finset NodeID) (h : Greyed r.1) :
    Greyed (deepPropagate w fuel r start stop diff).1.1 := by
  obtain ⟨n, hn⟩ := h
  refine ⟨n, ?_⟩
  induction fuel generalizing r start diff with
  | zero => exact hn
  | succ fuel ih =>
    rw [DeepPropagation.deepPropagate]
    cases hc : r.1.self.color start with
    | grey => exact hn
    | black => exact hn
    | default =>
      have hne : n ≠ start := by
        rintro rfl
        rw [hc] at hn
        cases hn.1
      have hset : ∀ (t : St Obj Val) (col : Color), t.self.color n = .grey ∧ n ∉ t.self.blackNodes →
          (setColor start col t).self.color n = .grey ∧
            n ∉ (setColor start col t).self.blackNodes := fun t col ht =>
        ⟨(if_neg hne).trans ht.1, ht.2⟩
      have hblack : ∀ t : St Obj Val, t.self.color n = .grey ∧ n ∉ t.self.blackNodes →
          (blacken start t).self.color n = .grey ∧ n ∉ (blacken start t).self.blackNodes := by
        intro t ht
        refine ⟨(hset t .black ht).1, fun hmem => ?_⟩
        rcases List.mem_append.mp hmem with hmem | hmem
        · exact ht.2 hmem
        · exact hne (List.mem_singleton.mp hmem)
      dsimp only
      split
      · split
        · exact hset _ _ hn
        · exact hblack _ hn
      · split
        · exact hblack _ hn
        · next next rest _ =>
          have hgrow : (grow start (diff \ r.1.core.pts start) r.1).self = r.1.self := rfl
          by_cases hs : next = stop
          · rw [if_pos hs, if_pos rfl]
            exact hset _ _ (hgrow ▸ hn)
          · rw [if_neg hs]
            have hrec := ih (grow start (diff \ r.1.core.pts start) r.1, true) next
              (diff \ r.1.core.pts start) (hgrow ▸ hn)
            split
            · exact hset _ _ hrec
            · exact hblack _ hrec

/-- only points-to sets change, and what is new in them comes from `diff` -/
theorem deepPropagate_core (fuel : Nat) (r : Flagged Obj Val Fields) (start stop : NodeID)
    (diff : Finset NodeID) :
    let r' := (deepPropagate w fuel r start stop diff).1
    r'.1.core.graph = r.1.core.graph ∧ r'.1.core.handledGEPMap = r.1.core.handledGEPMap ∧
      ∀ n, ∀ x ∈ r'.1.core.pts n, x ∈ r.1.core.pts n ∨ x ∈ diff := by
  induction fuel generalizing r start diff with
  | zero => exact ⟨rfl, rfl, fun _ _ hx => .inl hx⟩
  | succ fuel ih =>
    have hgrow : ∀ n, ∀ x ∈ (grow start (diff \ r.1.core.pts start) r.1).core.pts n,
        x ∈ r.1.core.pts n ∨ x ∈ diff := by
      intro n x hx
      rw [pts_grow] at hx
      split at hx
      · exact (Finset.mem_union.mp hx).imp_right fun h => (Finset.mem_sdiff.mp h).1
      · exact .inl hx
    rcases deepPropagate_cases (w := w) fuel r start stop diff with
      ⟨-, h⟩ | ⟨-, -, ⟨-, h⟩ | ⟨next, -, -, -, h⟩⟩
    · intro r'
      rw [h.core]
      exact ⟨rfl, rfl, fun _ _ hx => .inl hx⟩
    · intro r'
      rw [h.core]
      exact ⟨graph_grow _, handledGEPMap_unionPts .., hgrow⟩
    · intro r'
      rw [h.core]
      obtain ⟨h1, h2, h3⟩ := ih (grow start (diff \ r.1.core.pts start) r.1, true) next
        (diff \ r.1.core.pts start)
      refine ⟨h1.trans (graph_grow _), h2.trans (handledGEPMap_unionPts ..), fun n x hx => ?_⟩
      rcases h3 n x hx with hx | hx
      · exact hgrow n x hx
      · exact .inr (Finset.mem_sdiff.mp hx).1

theorem deepPropagate_sane (fuel : Nat) (r : Flagged Obj Val Fields) (start stop : NodeID)
    (diff : Finset NodeID) (h : r.1.core.Sane)
    (hdiff : ∀ x ∈ diff, x < r.1.core.graph.nodeNum) :
    (deepPropagate w fuel r start stop diff).1.1.core.Sane := by
  obtain ⟨h1, h2, h3⟩ := deepPropagate_core (w := w) fuel r start stop diff
  exact h.of_pts h1 h2 fun n x hx => (h3 n x hx).elim (h.pts_lt n x) (hdiff x)

/-! ## load edges -/

/-- the path of the call at a load edge does not come to an edge into the target -/
def LoadMissed (w : Walk) (curNode : NodeID) (r : Flagged Obj Val Fields) (dst : NodeID) : Prop :=
  let a := addLoads curNode dst r.1
  ¬ ReachesStop w dst a.1 dst (a.2 \ a.1.core.pts dst)

/-- What holds before the work at every edge: `N` is the number of nodes when the edges were listed. -/
structure Starts (N : Nat) (r : Flagged Obj Val Fields) : Prop where
  sane : r.1.core.Sane
  num : N ≤ r.1.core.graph.nodeNum
  color : Uncoloured r.1
  black : r.1.self.blackNodes = []

variable {N : Nat}

/-- an edge between nodes is added -/
theorem sane_addCopy (h : s.core.Sane) {a b : NodeID} (ha : a < s.core.graph.nodeNum)
    (hb : b < s.core.graph.nodeNum) : (s.addCopy noop a b).1.core.Sane ∧
      (s.addCopy noop a b).1.core.graph.nodeNum = s.core.graph.nodeNum ∧
      (s.addCopy noop a b).1.core.pts = s.core.pts ∧ (s.addCopy noop a b).1.self = s.self := by
  rw [addCopy_noop]
  exact ⟨h.insert ha hb, (insertConstraint_sameNodes ..).nodeNum, rfl, rfl⟩

/-- the edges of a load edge are added, and the colours stay as they are -/
theorem addLoads_starts {u v : NodeID} (h : Starts N r) (hv : v < N) :
    Starts N ((addLoads u v r.1).1, r.2) ∧
      ∀ x ∈ (addLoads u v r.1).2, x < (addLoads u v r.1).1.core.graph.nodeNum := by
  have hinv := foldl_inv (f := loadStep v) (l := bits (newLoads u v r.1))
    (s := (cacheEdge u v .load (newLoads u v r.1) r.1, ∅))
    (I := fun a : St Obj Val × Finset NodeID => (Starts N (a.1, r.2) ∧
      a.1.core.graph.nodeNum = r.1.core.graph.nodeNum) ∧
        ∀ x ∈ a.2, x < a.1.core.graph.nodeNum) (fun a x hx ha => ?_)
    ⟨⟨⟨h.sane, h.num, h.color, h.black⟩, rfl⟩, fun x hx => absurd hx (Finset.notMem_empty x)⟩
  · exact ⟨hinv.1.1, hinv.2⟩
  · obtain ⟨⟨ha, hn⟩, hlt⟩ := ha
    have hx' : x ∈ r.1.core.pts u := (Finset.mem_sdiff.mp ((mem_bits _ _).mp hx)).1
    have hxlt : x < a.1.core.graph.nodeNum := (h.sane.pts_lt u x hx').trans_eq hn.symm
    obtain ⟨h1, h2, -, h4⟩ := sane_addCopy ha.sane hxlt (hv.trans_le ha.num)
    have hstart : Starts N ((a.1.addCopy noop x v).1, r.2) :=
      ⟨h1, ha.num.trans_eq h2.symm, fun n => by rw [h4]; exact ha.color n, by rw [h4]; exact ha.black⟩
    rw [loadStep]
    split
    · refine ⟨⟨hstart, h2.trans hn⟩, fun y hy => ?_⟩
      rcases Finset.mem_union.mp hy with hy | hy
      · exact (hlt y hy).trans_eq h2.symm
      · exact h1.pts_lt x y hy
    · exact ⟨⟨hstart, h2.trans hn⟩, fun y hy => (hlt y hy).trans_eq h2.symm⟩

/-- the last step at a load or store edge -/
theorem unmarkBlack_starts {r : Flagged Obj Val Fields} (hs : r.1.core.Sane)
    (hn : N ≤ r.1.core.graph.nodeNum) (hu : Uncoloured (unmarkBlack r.1)) :
    Starts N (unmarkBlack r.1, r.2) := ⟨hs, hn, hu, rfl⟩

theorem loadEdge_starts {u v : NodeID} (h : Starts N r) (hv : v < N) :
    (Uncoloured (loadEdge w u r v).1 ↔ LoadMissed w u r v) ∧
      (LoadMissed w u r v → Starts N (loadEdge w u r v)) := by
  obtain ⟨ha, hlt⟩ := addLoads_starts (u := u) h hv
  set a := addLoads u v r.1 with hadef
  have hpaint := deepPropagate_colour (w := w) (depth a.1) (a.1, r.2) v v (a.2 \ a.1.core.pts v)
    ha.sane.inv (hv.trans_le ha.num) (Nat.lt_succ_of_le (card_lacking_le _ _))
    (.of_uncoloured ha.color ha.black)
  have hsane := deepPropagate_sane (w := w) (depth a.1) (a.1, r.2) v v (a.2 \ a.1.core.pts v) ha.sane
    fun x hx => hlt x (Finset.mem_sdiff.mp hx).1
  have hcore := deepPropagate_core (w := w) (depth a.1) (a.1, r.2) v v (a.2 \ a.1.core.pts v)
  rcases hpaint with ⟨-, h2, h3, h4⟩ | ⟨-, h2, h3⟩
  · have hgrey : Greyed (deepPropagate w (depth a.1) (a.1, r.2) v v (a.2 \ a.1.core.pts v)).1.1 := by
      refine ⟨v, h3, ?_⟩
      rw [h4, ha.black]
      exact List.not_mem_nil
    exact ⟨iff_of_false hgrey.unmarkBlack fun hm => hm h2, fun hm => absurd h2 hm⟩
  · have hu := h3.unmarkBlack
    refine ⟨iff_of_true hu h2, fun _ => unmarkBlack_starts hsane ?_ hu⟩
    rw [hcore.1]
    exact ha.num

/-! ## store edges -/

/-- the path of the call for one object does not come to an edge into the source -/
def StoreStepMissed (w : Walk) (src : NodeID) (r : Flagged Obj Val Fields) (v : NodeID) : Prop :=
  let b := r.1.addCopy noop src v
  b.2 = true → ¬ ReachesStop w src b.1 v (b.1.core.pts src \ b.1.core.pts v)

def StoreMissed (w : Walk) (curNode : NodeID) (r : Flagged Obj Val Fields) (src : NodeID) : Prop :=
  let newEdgePTS := newStores curNode src r.1
  FoldOk (StoreStepMissed w src) (storeStep w src) (bits newEdgePTS)
    (cacheEdge src curNode .store newEdgePTS r.1, r.2)

theorem Greyed.storeStep {u x : NodeID} (h : Greyed r.1) : Greyed (storeStep w u r x).1 := by
  rw [DeepPropagation.storeStep, addCopy_noop]
  dsimp only
  split
  · exact Greyed.deepPropagate _ _ _ _ _ h
  · exact h

/-- a call that comes to an edge into the source leaves a node grey, any other one does not -/
theorem storeStep_colour {u x : NodeID} (h : r.1.core.Sane) (ht : Tidy r.1)
    (hu : u < r.1.core.graph.nodeNum) (hx : x < r.1.core.graph.nodeNum) :
    ((storeStep w u r x).1.core.Sane ∧
      (storeStep w u r x).1.core.graph.nodeNum = r.1.core.graph.nodeNum) ∧
    (StoreStepMissed w u r x → Tidy (storeStep w u r x).1) ∧
    (¬ StoreStepMissed w u r x → Greyed (storeStep w u r x).1) := by
  obtain ⟨h1, h2, -, h4⟩ := sane_addCopy h hu hx
  rw [StoreStepMissed, storeStep]
  set b := r.1.addCopy noop u x with hb
  have htb : Tidy b.1 := ⟨fun n => by rw [h4]; exact ht.grey n, fun n => by rw [h4]; exact ht.black n⟩
  dsimp only
  cases hnew : b.2 with
  | false =>
    rw [if_neg Bool.false_ne_true]
    exact ⟨⟨h1, h2⟩, fun _ => htb, fun hm => absurd (fun h => absurd h Bool.false_ne_true) hm⟩
  | true =>
    rw [if_pos rfl]
    have hpaint := deepPropagate_colour (w := w) (depth b.1) (b.1, r.2) x u
      (b.1.core.pts u \ b.1.core.pts x) h1.inv (hx.trans_eq h2.symm)
      (Nat.lt_succ_of_le (card_lacking_le _ _)) htb
    have hsane := deepPropagate_sane (w := w) (depth b.1) (b.1, r.2) x u
      (b.1.core.pts u \ b.1.core.pts x) h1
      fun y hy => h1.pts_lt u y (Finset.mem_sdiff.mp hy).1
    have hcore := deepPropagate_core (w := w) (depth b.1) (b.1, r.2) x u
      (b.1.core.pts u \ b.1.core.pts x)
    refine ⟨⟨hsane, (congrArg nodeNum hcore.1).trans h2⟩, fun hm => ?_, fun hm => ?_⟩
    · rcases hpaint with ⟨-, h5, -⟩ | ⟨-, -, h5⟩
      · exact absurd h5 (hm rfl)
      · exact h5
    · rcases hpaint with ⟨-, h5, h6, h7⟩ | ⟨-, h5, -⟩
      · refine ⟨x, h6, ?_⟩
        rw [h7]
        refine fun hmem => ?_
        have hblack := (htb.black x).mpr hmem
        cases h5 <;> simp_all
      · exact absurd (fun _ => h5) hm

theorem storeEdge_starts {u v : NodeID} (h : Starts N r) (hu : u < N) :
    (Uncoloured (storeEdge w v r u).1 ↔ StoreMissed w v r u) ∧
      (StoreMissed w v r u → Starts N (storeEdge w v r u)) := by
  set r₁ : Flagged Obj Val Fields := (cacheEdge u v .store (newStores v u r.1) r.1, r.2) with hr₁
  have hlt : ∀ x ∈ bits (newStores v u r.1), x < r.1.core.graph.nodeNum := fun x hx =>
    h.sane.pts_lt v x (Finset.mem_sdiff.mp ((mem_bits _ _).mp hx)).1
  -- the loop over the objects, as long as nothing is grey and from then on
  have hloop : ∀ (l : List NodeID) (t : Flagged Obj Val Fields),
      (∀ x ∈ l, x < r.1.core.graph.nodeNum) → t.1.core.Sane → Tidy t.1 →
      t.1.core.graph.nodeNum = r.1.core.graph.nodeNum →
      (FoldOk (StoreStepMissed w u) (storeStep w u) l t →
        (l.foldl (storeStep w u) t).1.core.Sane ∧ Tidy (l.foldl (storeStep w u) t).1 ∧
          (l.foldl (storeStep w u) t).1.core.graph.nodeNum = r.1.core.graph.nodeNum) ∧
      (¬ FoldOk (StoreStepMissed w u) (storeStep w u) l t →
        Greyed (l.foldl (storeStep w u) t).1) := by
    intro l
    induction l with
    | nil => exact fun t _ hs ht hn => ⟨fun _ => ⟨hs, ht, hn⟩, fun hm => absurd trivial hm⟩
    | cons x l ih =>
      intro t hl hs ht hn
      obtain ⟨⟨h1, h2⟩, h3, h4⟩ := storeStep_colour (w := w) hs ht
        ((hu.trans_le h.num).trans_eq hn.symm) ((hl x List.mem_cons_self).trans_eq hn.symm)
      have hl' := fun y hy => hl y (List.mem_cons_of_mem x hy)
      refine ⟨fun hok => (ih _ hl' h1 (h3 hok.1) (h2.trans hn)).1 hok.2, fun hm => ?_⟩
      by_cases hx : StoreStepMissed w u t x
      · exact (ih _ hl' h1 (h3 hx) (h2.trans hn)).2 fun hok => hm ⟨hx, hok⟩
      · have hg := foldl_inv (f := storeStep w u) (l := l) (s := storeStep w u t x)
          (I := fun t : Flagged Obj Val Fields => Greyed t.1) (fun t y _ hg => hg.storeStep)
        exact hg (h4 hx)
  obtain ⟨h1, h2⟩ := hloop (bits (newStores v u r.1)) r₁ hlt h.sane (.of_uncoloured h.color h.black)
    rfl
  by_cases hok : StoreMissed w v r u
  · obtain ⟨h3, h4, h5⟩ := h1 hok
    have hun := h4.unmarkBlack
    exact ⟨iff_of_true hun hok, fun _ => unmarkBlack_starts h3 (h.num.trans_eq h5.symm) hun⟩
  · exact ⟨iff_of_false (h2 hok).unmarkBlack hok, fun h => absurd h hok⟩

/-! ## offset edges -/

section
variable [DecidableEq Obj] {M : MemModel Obj Val}

/-- taking a field of an object keeps the colours -/
theorem offsetStep_starts {d x : NodeID} {gep : Val} (h : Starts N r) (hd : d < N) :
    Starts N (offsetStep M noop copyAddrOf d gep r x) := by
  rcases offsetStep_cases noop copyAddrOf M d gep r x with
    ⟨heq, -⟩ | ⟨o, f, i, c, -, -, hc, heq⟩
  · rw [heq]
    exact h
  · obtain ⟨hs, hn, hi, hif⟩ : c.Sane ∧ r.1.core.graph.nodeNum ≤ c.graph.nodeNum ∧
        i < c.graph.nodeNum ∧ c.graph.kind i = .objNode f := by
      rcases hc with ⟨rfl, hfo⟩ | ⟨rfl, -, rfl⟩
      · obtain ⟨h1, h2⟩ := findObj_eq_some hfo
        exact ⟨h.sane, le_rfl, h1, h2⟩
      · have hadd := (h.sane.inv.addCGNode (.objNode f)).2
        exact ⟨h.sane.addCGNode _, hadd.lt.le, hadd.lt, hadd.kind_new⟩
    have hdlt := hd.trans_le (h.num.trans hn)
    rw [heq]
    split
    · exact ⟨hs, h.num.trans hn, h.color, h.black⟩
    · rw [copyAddrOf_addAddrOf]
      have hins := hs.insert (hs.addrNodes i f hif hi).1 hdlt
      have hnum := (insertConstraint_sameNodes (g := c.graph) (i + 1) d .copy).nodeNum
      refine ⟨hins.of_pts (graph_unionPts ..) (handledGEPMap_unionPts ..) fun n y hy => ?_, ?_,
        h.color, h.black⟩
      · rw [pts_copyAlong] at hy
        split at hy
        · exact (Finset.mem_union.mp hy).elim (hins.pts_lt n y) (hins.pts_lt (i + 1) y)
        · exact hins.pts_lt n y hy
      · rw [graph_copyAlong, hnum]
        exact h.num.trans hn

theorem offsetEdge_starts {u v : NodeID} (h : Starts N r) (hv : v < N) :
    Starts N (offsetEdge M u r v) := by
  suffices hprocess : Starts N (r.1.processOffset M noop copyAddrOf u v) from
    ⟨hprocess.sane, hprocess.num, hprocess.color, hprocess.black⟩
  rw [processOffset]
  split
  · refine foldl_inv (I := fun t : Flagged Obj Val Fields => Starts N t)
      (fun t x _ ht => offsetStep_starts ht hv) ⟨⟨h.sane.inv, h.sane.addrNodes, h.sane.pts_lt, ?_⟩,
        h.num, h.color, h.black⟩
    intro e x hx
    dsimp only at hx
    split at hx
    · next he =>
      rcases Finset.mem_union.mp hx with hx | hx
      · exact h.sane.handled_lt e x hx
      · exact ⟨he ▸ hv.trans_le h.num, h.sane.pts_lt u x (Finset.mem_sdiff.mp hx).1⟩
    · exact h.sane.handled_lt e x hx
  · exact ⟨h.sane, h.num, h.color, h.black⟩

end

/-! ## all edges -/

section
variable [DecidableEq Obj] (M : MemModel Obj Val) (w : Walk)

/-- after `unmarkBlack` all nodes have the default colour -/
def unmarked : NodeCond Obj Val Fields :=
  ⟨fun n r v => Uncoloured (loadEdge w n r v).1, fun n r u => Uncoloured (storeEdge w n r u).1,
    fun _ _ _ => True⟩

/-- no path of a call comes to an edge into its `stop` -/
def stopMissed : NodeCond Obj Val Fields := ⟨LoadMissed w, StoreMissed w, fun _ _ _ => True⟩

/-- the condition holds at the edges of the first `n` passes -/
def Passes (C : NodeCond Obj Val Fields) : Nat → St Obj Val → Prop
  | 0, _ => True
  | n + 1, s =>
    FoldOk ((edges M w).NodeOk C w) ((edges M w).processNode w) (List.range s.core.graph.nodeNum)
      (s, false) ∧ ((pass M w s).2 = true → Passes C n (pass M w s).1)

/-- at all load, store and offset edges of a run of `runSolver` -/
def Along (C : NodeCond Obj Val Fields) (s : St Obj Val) : Prop :=
  ∀ t ∈ firstWave w s, ∀ n, Passes M w C n t

variable {M w}

omit [DecidableEq Obj] in
theorem Starts.mono {N' : Nat} (h : Starts N' r) (hN : N ≤ N') : Starts N r :=
  ⟨h.sane, hN.trans h.num, h.color, h.black⟩

omit [DecidableEq Obj] in
/-- a loop over nodes that were there when it began -/
theorem fold_starts {f : Flagged Obj Val Fields → NodeID → Flagged Obj Val Fields}
    {P Q : Flagged Obj Val Fields → NodeID → Prop} {l : List NodeID} (h : Starts N r)
    (hl : ∀ v ∈ l, v < r.1.core.graph.nodeNum)
    (hf : ∀ t v, Starts r.1.core.graph.nodeNum t → v < r.1.core.graph.nodeNum →
      (P t v ↔ Q t v) ∧ (Q t v → Starts r.1.core.graph.nodeNum (f t v))) :
    (FoldOk P f l r ↔ FoldOk Q f l r) ∧ (FoldOk Q f l r → Starts N (l.foldl f r)) := by
  obtain ⟨h1, h2⟩ := foldOk_congr (f := f) (I := Starts r.1.core.graph.nodeNum) (P := P) (Q := Q)
    (fun t v hv ht => (hf t v ht (hl v hv)).1) (fun t v hv ht hq => (hf t v ht (hl v hv)).2 hq)
    ⟨h.sane, le_rfl, h.color, h.black⟩
  exact ⟨h1, fun hok => (h2 hok).mono h.num⟩

/-- The edges of one node, from a state where all colours are the default one. -/
theorem processNode_starts {n : NodeID} (h : Starts N r) :
    ((edges M w).NodeOk (unmarked w) w r n ↔ (edges M w).NodeOk (stopMissed w) w r n) ∧
      ((edges M w).NodeOk (stopMissed w) w r n → Starts N ((edges M w).processNode w r n)) := by
  have hloads := fold_starts (f := loadEdge w n) (P := (unmarked w).load n)
    (Q := (stopMissed w).load n) (l := w.walk (r.1.core.graph.succ .load n)) h
    (fun v hv => (h.sane.inv.edge_lt _ _ _ ((w.mem_walk _ _).mp hv)).2)
    fun t v ht hv => loadEdge_starts ht hv
  have hstores := fun (t : Flagged Obj Val Fields) (ht : Starts N t) =>
    fold_starts (f := storeEdge w n) (P := (unmarked w).store n) (Q := (stopMissed w).store n)
      (l := w.walk (t.1.core.graph.pred .store n)) ht
      (fun u hu => (ht.sane.inv.edge_lt _ _ _
        ((ht.sane.inv.agree .store u n).mpr ((w.mem_walk _ _).mp hu))).1)
      fun t u ht hu => storeEdge_starts ht hu
  have hoffsets := fun (t : Flagged Obj Val Fields) (ht : Starts N t) =>
    fold_starts (f := offsetEdge M n) (P := fun _ _ => True) (Q := fun _ _ => True)
      (l := w.walk (t.1.core.graph.succ .offset n)) ht
      (fun v hv => (ht.sane.inv.edge_lt _ _ _ ((w.mem_walk _ _).mp hv)).2)
      fun t v ht hv => ⟨Iff.rfl, fun _ => offsetEdge_starts ht hv⟩
  constructor
  · refine (and_congr_left' hloads.1).trans (and_congr_right fun hok => ?_)
    exact and_congr_left' (hstores _ (hloads.2 hok)).1
  · rintro ⟨hok, hok', -⟩
    have h2 := (hstores _ (hloads.2 hok)).2 hok'
    exact (hoffsets _ h2).2 (foldOk_of_forall (fun _ _ => trivial) _ _)

theorem passes_iff (n : Nat) (hs : s.core.Sane) (hcol : Uncoloured s)
    (hblack : s.self.blackNodes = []) :
    Passes M w (unmarked w) n s ↔ Passes M w (stopMissed w) n s := by
  induction n generalizing s with
  | zero => exact Iff.rfl
  | succ n ih =>
    obtain ⟨h1, h2⟩ := fold_starts (r := (s, false)) (f := (edges M w).processNode w)
      (P := (edges M w).NodeOk (unmarked w) w) (Q := (edges M w).NodeOk (stopMissed w) w)
      (l := List.range s.core.graph.nodeNum) ⟨hs, le_rfl, hcol, hblack⟩
      (fun v hv => List.mem_range.mp hv) fun t v ht _ => processNode_starts ht
    refine (and_congr_left' h1).trans (and_congr_right fun hok => forall_congr' fun _ => ?_)
    have h := h2 hok
    exact ih h.sane h.color h.black

/-- In a run of `runSolver` that starts with the default colours, all nodes have the default colour
after every call of `unmarkBlack` iff no path of a call comes to an edge into its `stop`. -/
theorem uncoloured_iff (hs : s.core.Sane) (hpos : 0 < s.core.graph.nodeNum) (hcol : Uncoloured s)
    (hblack : s.self.blackNodes = []) :
    Along M w (unmarked w) s ↔ Along M w (stopMissed w) s := by
  obtain ⟨t, ht, hrun, -⟩ := wave_spec (M := M) (w := w)
    (s := ⟨s.core, { s.self.toCaches with cachedPTS := fun _ => ∅ }⟩) hs.inv hpos
    ⟨fun _ => Finset.empty_subset _, fun _ _ _ => Finset.empty_subset _⟩
  refine forall_congr' fun t' => forall_congr' fun ht' => forall_congr' fun n => ?_
  rw [firstWave, ht] at ht'
  obtain rfl := Option.some.inj ht'
  exact passes_iff n (hs.run hrun.steps).1 hcol hblack

theorem uncoloured_iff_sample :
    Along sampleMem .ascending (unmarked .ascending) (loadState [6]) ↔
      Along sampleMem .ascending (stopMissed .ascending) (loadState [6]) :=
  uncoloured_iff ((loadCore_built [6] (by decide)).tracks sampleMem
    (wellFormed_of_checks (loadCore_built [6] (by decide)).fresh.inv (by decide))).shape.sane
    (by decide) (fun _ => rfl) rfl

/-- What is loaded is copied to the object it is loaded from: the path from 5 comes back to 5, and both
nodes stay grey. -/
theorem grey_left : Uncoloured (loadState [0]) ∧
    ¬ Along sampleMem .ascending (unmarked .ascending) (loadState [0]) := by
  have hgrey : ∃ t ∈ firstWave .ascending (loadState [0]),
      let r := (List.range 4).foldl ((edges sampleMem .ascending).processNode .ascending) (t, false)
      Walk.ascending.walk (t.core.graph.succ .load 4) = [5] ∧
        r.1.core.graph.succ .load 4 = t.core.graph.succ .load 4 ∧ t.core.graph.nodeNum = 8 ∧
        (loadEdge .ascending 4 r 5).1.self.color 5 = .grey := by
    decide +kernel
  obtain ⟨t, ht, hgrey⟩ := hgrey
  refine ⟨fun _ => rfl, fun h => ?_⟩
  obtain ⟨hpass, -⟩ : _ ∧ _ := h t ht 1
  generalize hr : (List.range 4).foldl ((edges sampleMem .ascending).processNode .ascending)
    (t, false) = r at hgrey
  obtain ⟨hwalk, hload, hnum, hcol⟩ := hgrey
  have hsplit : List.range 8 = List.range 4 ++ [4, 5, 6, 7] := rfl
  rw [hnum, hsplit, foldOk_append, hr] at hpass
  -- the load edge of node 4
  obtain ⟨-, ⟨hnode, -⟩, -⟩ : _ ∧ (_ ∧ _) ∧ _ := hpass
  rw [hload, hwalk] at hnode
  obtain ⟨hun, -⟩ : Uncoloured (loadEdge .ascending 4 r 5).1 ∧ _ := hnode
  rw [hun 5] at hcol
  cases hcol

end

end DeepPropagation

end AserPTA
