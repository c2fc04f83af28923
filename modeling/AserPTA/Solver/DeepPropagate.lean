import AserPTA.Solver.CopyNew
import AserPTA.Solver.Wave

/-!
# Difference propagation

`deepPropagate` of `DeepPropagation` follows one path of copy edges: the loop over the successors of a
node returns in its first turn.

* `deepPropagate_fuel`   one more call than there are nodes is enough;
* `deepPropagate_run`    it only lets points-to sets grow, along copy edges;
* `PropOk`               the branches that lose something are not taken;
* `deepPropagate_sat`    then every copy edge is satisfied at the end.
-/

namespace AserPTA

open Relation Loop

/-- the colour of a node -/
inductive Color where
  | default
  | grey
  | black
  deriving DecidableEq

namespace DeepPropagation

open AserPTA.Core ConsGraph State Wave

/-- the fields of the solver, and the colours of the nodes, which no other solver uses -/
structure Fields extends Caches where
  color : NodeID → Color := fun _ => .default
  blackNodes : List NodeID := []

abbrev St (Obj Val : Type) := State Obj Val Fields

variable {Obj Val : Type}

def setColor (n : NodeID) (col : Color) (s : St Obj Val) : St Obj Val :=
  { s with self := { s.self with color := fun m => if m = n then col else s.self.color m } }

/-- the node is black until `unmarkBlack` -/
def blacken (n : NodeID) (s : St Obj Val) : St Obj Val :=
  let s := setColor n .black s
  { s with self := { s.self with blackNodes := s.self.blackNodes ++ [n] } }

def unmarkBlack (s : St Obj Val) : St Obj Val :=
  { s with self := { s.self with
      color := fun m => if m ∈ s.self.blackNodes then .default else s.self.color m
      blackNodes := [] } }

/-- the state after `pts(start) |= newPTS` -/
def grow (start : NodeID) (newPTS : Finset NodeID) (s : St Obj Val) : St Obj Val :=
  { s with core := (s.core.unionPts start newPTS).1 }

/-- The state and `changed`, and what is returned.  `fuel` bounds the depth of the recursion. -/
def deepPropagate (w : Walk) : Nat → Flagged Obj Val Fields → NodeID → NodeID → Finset NodeID →
    Flagged Obj Val Fields × Bool
  | 0, r, _, _, _ => (r, false)
  | fuel + 1, r, start, stop, diff =>
    match r.1.self.color start with
    | .grey => (r, true)
    | .black => (r, false)
    | .default =>
      let newPTS := diff \ r.1.core.pts start
      if newPTS = ∅ then
        if stop ∈ r.1.core.graph.succ .copy start then ((setColor start .grey r.1, r.2), true)
        else ((blacken start r.1, r.2), false)
      else
        let s := grow start newPTS r.1
        match w.walk (s.core.graph.succ .copy start) with
        | [] => ((blacken start s, true), false)
        | next :: _ =>
          -- both branches of the body of the loop return, so only the first successor is visited
          let r' := if next = stop then ((s, true), true)
            else deepPropagate w fuel (s, true) next stop newPTS
          if r'.2 then ((setColor start .grey r'.1.1, r'.1.2), true)
          else ((blacken start r'.1.1, r'.1.2), false)

/-- The branches that lose something are not taken: a node that is grey or black already holds
`diff`, and so does every successor that is not visited. -/
def PropOk (w : Walk) : Nat → St Obj Val → NodeID → NodeID → Finset NodeID → Prop
  | 0, _, _, _, _ => True
  | fuel + 1, s, start, stop, diff =>
    let newPTS := diff \ s.core.pts start
    newPTS = ∅ ∨ (s.self.color start = .default ∧
      match w.walk (s.core.graph.succ .copy start) with
      | [] => True
      | next :: rest => (∀ v ∈ rest, newPTS ⊆ s.core.pts v) ∧
        (next = stop ∨ PropOk w fuel (grow start newPTS s) next stop newPTS))

instance PropOk.decidable (w : Walk) : (fuel : Nat) → (s : St Obj Val) → (start stop : NodeID) →
    (diff : Finset NodeID) → Decidable (PropOk w fuel s start stop diff)
  | 0, _, _, _, _ => isTrue trivial
  | fuel + 1, s, start, stop, diff => by
    unfold PropOk
    have := PropOk.decidable w fuel (grow start (diff \ s.core.pts start) s)
    split <;> infer_instance

/-! ## one call -/

variable {M : MemModel Obj Val} {w : Walk} {s : St Obj Val} {r r₀ : Flagged Obj Val Fields}
  {start stop : NodeID} {diff : Finset NodeID}

theorem graph_grow (new : Finset NodeID) : (grow start new s).core.graph = s.core.graph :=
  graph_unionPts ..

theorem pts_grow (new : Finset NodeID) (n : NodeID) : (grow start new s).core.pts n =
    if n = start then s.core.pts n ∪ new else s.core.pts n := pts_unionPts ..

theorem subset_grow (new : Finset NodeID) (n : NodeID) :
    s.core.pts n ⊆ (grow start new s).core.pts n := pts_subset_unionPts ..

theorem pts_grow_self : s.core.pts start ∪ diff ⊆ (grow start (diff \ s.core.pts start) s).core.pts
    start := by
  rw [pts_grow, if_pos rfl, Finset.union_sdiff_self_eq_union]

/-- only colours differ -/
structure Recoloured (r₀ r : Flagged Obj Val Fields) : Prop where
  core : r.1.core = r₀.1.core
  caches : r.1.self.toCaches = r₀.1.self.toCaches
  flag : r.2 = r₀.2

/-- A call returns at once, or `diff` is added to the set of `start` and then the call ends or goes on
at the first successor. -/
theorem deepPropagate_cases (fuel : Nat) (r : Flagged Obj Val Fields) (start stop : NodeID)
    (diff : Finset NodeID) :
    let newPTS := diff \ r.1.core.pts start
    let r' := (deepPropagate w (fuel + 1) r start stop diff).1
    ((newPTS = ∅ ∨ r.1.self.color start ≠ .default) ∧ Recoloured r r') ∨
    newPTS ≠ ∅ ∧ r.1.self.color start = .default ∧
      ((∀ v ∈ (w.walk (r.1.core.graph.succ .copy start)).head?, v = stop) ∧
          Recoloured (grow start newPTS r.1, true) r' ∨
        ∃ next rest, w.walk (r.1.core.graph.succ .copy start) = next :: rest ∧ next ≠ stop ∧
          Recoloured (deepPropagate w fuel (grow start newPTS r.1, true) next stop newPTS).1 r') := by
  intro newPTS r'
  have hr' : r' = (deepPropagate w (fuel + 1) r start stop diff).1 := rfl
  rw [deepPropagate] at hr'
  cases hc : r.1.self.color start with
  | grey =>
    rw [hc] at hr'
    exact .inl ⟨.inr (by decide), hr' ▸ ⟨rfl, rfl, rfl⟩⟩
  | black =>
    rw [hc] at hr'
    exact .inl ⟨.inr (by decide), hr' ▸ ⟨rfl, rfl, rfl⟩⟩
  | default =>
    rw [hc] at hr'
    dsimp only at hr'
    by_cases hnew : newPTS = ∅
    · rw [if_pos hnew] at hr'
      refine .inl ⟨.inl hnew, ?_⟩
      split at hr' <;> exact hr' ▸ ⟨rfl, rfl, rfl⟩
    · rw [if_neg hnew, graph_grow] at hr'
      refine .inr ⟨hnew, rfl, ?_⟩
      cases hw : w.walk (r.1.core.graph.succ .copy start) with
      | nil =>
        rw [hw] at hr'
        exact .inl ⟨fun v hv => (by cases hv), hr' ▸ ⟨rfl, rfl, rfl⟩⟩
      | cons next rest =>
        rw [hw] at hr'
        dsimp only at hr'
        by_cases hs : next = stop
        · rw [if_pos hs, if_pos rfl] at hr'
          refine .inl ⟨fun v hv => ?_, hr' ▸ ⟨rfl, rfl, rfl⟩⟩
          rw [← Option.mem_some_iff.mp hv, hs]
        · rw [if_neg hs] at hr'
          refine .inr ⟨next, rest, rfl, hs, ?_⟩
          split at hr' <;> exact hr' ▸ ⟨rfl, rfl, rfl⟩

/-- points-to sets grow along copy edges -/
structure Grown [DecidableEq Obj] (M : MemModel Obj Val) (w : Walk)
    (r₀ r : Flagged Obj Val Fields) : Prop where
  core : r₀.1.core.PtsGrow M w r.1.core
  caches : r.1.self.toCaches = r₀.1.self.toCaches
  flag : r.2 = false → r₀.2 = false ∧ r.1.core.pts = r₀.1.core.pts

section
variable [DecidableEq Obj]

theorem Grown.of_recoloured {r₁ : Flagged Obj Val Fields} (h : Grown M w r₀ r₁)
    (h' : Recoloured r₁ r) : Grown M w r₀ r := by
  refine ⟨h'.core ▸ h.core, h'.caches.trans h.caches, fun hf => ?_⟩
  rw [h'.core]
  exact h.flag (h'.flag ▸ hf)

theorem Grown.refl (M : MemModel Obj Val) (w : Walk) (r : Flagged Obj Val Fields) :
    Grown M w r r := ⟨.refl .., rfl, fun h => ⟨h, rfl⟩⟩

/-- `diff` comes from nodes that reach `start` -/
theorem grown_grow (hreach : ∀ x ∈ diff, ∃ u, x ∈ s.core.pts u ∧ s.core.graph.CopyReach u start)
    (f : Bool) : Grown M w (s, f) (grow start (diff \ s.core.pts start) s, true) := by
  refine ⟨⟨.single (.unionAll start _ fun x hx => hreach x (Finset.mem_sdiff.mp hx).1),
    graph_grow _, handledGEPMap_unionPts .., subset_grow _⟩, rfl, fun h => by cases h⟩

theorem deepPropagate_run (fuel : Nat) (r : Flagged Obj Val Fields) (start stop : NodeID)
    (diff : Finset NodeID)
    (hreach : ∀ x ∈ diff, ∃ u, x ∈ r.1.core.pts u ∧ r.1.core.graph.CopyReach u start) :
    let r' := (deepPropagate w fuel r start stop diff).1
    Grown M w r r' ∧ (r'.2 = true → r.2 = true ∨ ¬ diff ⊆ r.1.core.pts start) := by
  induction fuel generalizing r start diff with
  | zero => exact ⟨.refl .., .inl⟩
  | succ fuel ih =>
    intro r'
    rcases deepPropagate_cases (w := w) fuel r start stop diff with
      ⟨-, h⟩ | ⟨hnew, -, hrest⟩
    · exact ⟨(Grown.refl ..).of_recoloured h, fun hf => .inl (h.flag ▸ hf)⟩
    · refine ⟨?_, fun _ => .inr fun hsub => hnew (Finset.sdiff_eq_empty_iff_subset.mpr hsub)⟩
      have hg := grown_grow (M := M) (w := w) hreach r.2
      rcases hrest with ⟨-, h⟩ | ⟨next, rest, hw, -, h⟩
      · exact hg.of_recoloured h
      · have hedge : next ∈ r.1.core.graph.succ .copy start :=
          (w.mem_walk _ _).mp (hw ▸ List.mem_cons_self ..)
        obtain ⟨h1, -⟩ := ih (grow start (diff \ r.1.core.pts start) r.1, true) next
          (diff \ r.1.core.pts start) fun x hx => ⟨start, pts_grow_self (Finset.mem_union_right _
            (Finset.mem_sdiff.mp hx).1), .single (graph_grow (s := r.1) _ ▸ hedge)⟩
        refine Grown.of_recoloured ⟨⟨hg.core.steps.trans h1.core.steps,
          h1.core.graph.trans hg.core.graph, h1.core.handled.trans hg.core.handled,
          fun n => (hg.core.pts n).trans (h1.core.pts n)⟩, h1.caches.trans hg.caches, fun hf => ?_⟩ h
        exact absurd (h1.flag hf).1.symm Bool.false_ne_true

end

/-! ## the fuel -/

/-- the nodes that lack something of `diff` -/
def lacking (diff : Finset NodeID) (c : Core Obj Val) : Finset NodeID :=
  (Finset.range c.graph.nodeNum).filter fun n => ¬ diff ⊆ c.pts n

theorem card_lacking_le (diff : Finset NodeID) (c : Core Obj Val) :
    (lacking diff c).card ≤ c.graph.nodeNum :=
  (Finset.card_filter_le _ _).trans_eq (Finset.card_range _)

/-- a node that gets what it lacks is one less -/
theorem lacking_grow (hlt : start < s.core.graph.nodeNum)
    (hnew : diff \ s.core.pts start ≠ ∅) :
    (lacking (diff \ s.core.pts start) (grow start (diff \ s.core.pts start) s).core).card <
      (lacking diff s.core).card := by
  refine Finset.card_lt_card (Finset.ssubset_iff_subset_ne.mpr ⟨fun n hn => ?_, fun he => ?_⟩)
  · obtain ⟨h1, h2⟩ := Finset.mem_filter.mp hn
    rw [graph_grow] at h1
    exact Finset.mem_filter.mpr ⟨h1, fun h3 =>
      h2 ((Finset.sdiff_subset.trans h3).trans (subset_grow _ n))⟩
  · have hs : start ∈ lacking diff s.core := Finset.mem_filter.mpr ⟨Finset.mem_range.mpr hlt,
      fun h => hnew (Finset.sdiff_eq_empty_iff_subset.mpr h)⟩
    rw [← he] at hs
    refine (Finset.mem_filter.mp hs).2 ?_
    rw [pts_grow, if_pos rfl]
    exact Finset.subset_union_right

/-- the fuel is not used up: a node is left behind only with what it lacked -/
theorem deepPropagate_fuel (hg : r.1.core.graph.Inv) (hlt : start < r.1.core.graph.nodeNum)
    {n m : Nat} (hn : (lacking diff r.1.core).card < n) (hm : (lacking diff r.1.core).card < m) :
    deepPropagate w n r start stop diff = deepPropagate w m r start stop diff := by
  induction n generalizing m r start diff with
  | zero => exact absurd hn (Nat.not_lt_zero _)
  | succ n ih =>
    obtain ⟨m, rfl⟩ : ∃ m', m = m' + 1 := ⟨m - 1, by omega⟩
    rw [deepPropagate, deepPropagate]
    by_cases hnew : diff \ r.1.core.pts start = ∅
    · simp only [if_pos hnew]
    · have hless := lacking_grow hlt hnew
      have hnext : ∀ next ∈ w.walk (r.1.core.graph.succ .copy start),
          deepPropagate w n (grow start (diff \ r.1.core.pts start) r.1, true) next stop
              (diff \ r.1.core.pts start) =
            deepPropagate w m (grow start (diff \ r.1.core.pts start) r.1, true) next stop
              (diff \ r.1.core.pts start) := fun next hmem => by
        have hedge := (hg.edge_lt _ _ _ ((w.mem_walk _ _).mp hmem)).2
        refine ih ?_ ?_ (hless.trans_le (Nat.le_of_lt_succ hn))
          (hless.trans_le (Nat.le_of_lt_succ hm)) <;> rw [graph_grow]
        · exact hg
        · exact hedge
      simp only [if_neg hnew, graph_grow]
      cases hw : w.walk (r.1.core.graph.succ .copy start) with
      | nil => rfl
      | cons next rest =>
        dsimp only
        rw [hnext next (hw ▸ List.mem_cons_self ..)]

/-! ## what is satisfied -/

/-- every copy edge is satisfied, except that `start` may still lack what is in `diff` -/
def Pending (c : Core Obj Val) (start : NodeID) (diff : Finset NodeID) : Prop :=
  ∀ u v, v ∈ c.graph.succ .copy u → c.pts u ⊆ c.pts v ∨ (v = start ∧ c.pts u ⊆ c.pts v ∪ diff)

theorem Pending.not_unsat {c : Core Obj Val} (h : Pending c start diff)
    (hnew : diff \ c.pts start = ∅) (u v : NodeID) : ¬ c.Unsat u v := by
  rintro ⟨hedge, hsub⟩
  rcases h u v hedge with h1 | ⟨rfl, h1⟩
  · exact hsub h1
  · exact hsub (h1.trans (Finset.union_subset (Finset.Subset.refl _)
      (Finset.sdiff_eq_empty_iff_subset.mp hnew)))

/-- `start` gets what it lacked; what its successors lack now is new -/
theorem Pending.grow (h : Pending s.core start diff) (hg : s.core.graph.Inv) {u v : NodeID}
    (huv : v ∈ s.core.graph.succ .copy u) :
    let t := grow start (diff \ s.core.pts start) s
    t.core.pts u ⊆ t.core.pts v ∨
      (u = start ∧ t.core.pts u ⊆ t.core.pts v ∪ (diff \ s.core.pts start)) := by
  intro t
  have hne : u ≠ v := fun e => hg.noSelf u (e ▸ huv)
  by_cases hu : u = start
  · subst hu
    have h1 := (h u v huv).resolve_right fun h2 => hne h2.1.symm
    right
    refine ⟨rfl, ?_⟩
    rw [pts_grow, if_pos rfl]
    exact Finset.union_subset_union_left (h1.trans (subset_grow _ v))
  · left
    rw [pts_grow, if_neg hu]
    rcases h u v huv with h1 | ⟨rfl, h1⟩
    · exact h1.trans (subset_grow _ v)
    · refine h1.trans ?_
      rw [← Finset.union_sdiff_self_eq_union, Finset.union_sdiff_self_eq_union]
      exact (Finset.union_subset_union_right (Finset.Subset.refl _)).trans pts_grow_self

/-- If the branches that lose something are not taken and `stop` already holds what is on its way,
then every copy edge is satisfied at the end. -/
theorem deepPropagate_sat (fuel : Nat) (r : Flagged Obj Val Fields) (start stop : NodeID)
    (diff : Finset NodeID) (hg : r.1.core.graph.Inv) (hlt : start < r.1.core.graph.nodeNum)
    (hfuel : (lacking diff r.1.core).card < fuel) (hpend : Pending r.1.core start diff)
    (hstop : start = stop ∨ diff ⊆ r.1.core.pts stop) (hok : PropOk w fuel r.1 start stop diff)
    (u v : NodeID) : ¬ (deepPropagate w fuel r start stop diff).1.1.core.Unsat u v := by
  induction fuel generalizing r start diff with
  | zero => exact absurd hfuel (Nat.not_lt_zero _)
  | succ fuel ih =>
    rcases deepPropagate_cases (w := w) fuel r start stop diff with
      ⟨hend, h⟩ | ⟨hnew, -, hrest⟩
    · rw [h.core]
      refine hpend.not_unsat ?_ u v
      exact hend.elim id fun hc => hok.resolve_right fun h1 => hc h1.1
    · set t := DeepPropagation.grow start (diff \ r.1.core.pts start) r.1 with ht
      have hgrow := fun u v => hpend.grow (u := u) (v := v) hg
      have hstop' : diff \ r.1.core.pts start ⊆ t.core.pts stop := by
        rcases hstop with rfl | hstop
        · exact (Finset.sdiff_subset.trans Finset.subset_union_right).trans pts_grow_self
        · exact (Finset.sdiff_subset.trans hstop).trans (subset_grow _ stop)
      obtain ⟨-, hok⟩ := hok.resolve_left hnew
      -- the other successors hold what is new already
      have hothers : ∀ next rest, w.walk (r.1.core.graph.succ .copy start) = next :: rest →
          ∀ v ∈ r.1.core.graph.succ .copy start, v = next ∨
            diff \ r.1.core.pts start ⊆ t.core.pts v := by
        intro next rest hw v hv
        rw [hw] at hok
        have hv' := (w.mem_walk _ _).mpr hv
        rw [hw, List.mem_cons] at hv'
        exact hv'.imp_right fun h1 => (hok.1 v h1).trans (subset_grow _ v)
      rcases hrest with ⟨hhead, h⟩ | ⟨next, rest, hw, hne, h⟩
      · rw [h.core]
        rintro ⟨hedge, hsub⟩
        rw [graph_grow] at hedge
        refine hsub ((hgrow u v hedge).elim id fun ⟨hu, h1⟩ => ?_)
        subst hu
        refine h1.trans (Finset.union_subset (Finset.Subset.refl _) ?_)
        cases hw : w.walk (r.1.core.graph.succ .copy u) with
        | nil =>
          have := (w.mem_walk _ _).mpr hedge
          rw [hw] at this
          cases this
        | cons next rest =>
          rw [hw] at hhead
          rcases hothers next rest hw v hedge with rfl | h2
          · rw [hhead v rfl]
            exact hstop'
          · exact h2
      · rw [h.core]
        have hedge : next ∈ r.1.core.graph.succ .copy start :=
          (w.mem_walk _ _).mp (hw ▸ List.mem_cons_self ..)
        have hless := lacking_grow hlt hnew
        refine ih (t, true) next _ ?_ ?_ (hless.trans_le (Nat.le_of_lt_succ hfuel)) (fun u v huv => ?_)
          (.inr hstop') ?_
        · rw [ht, graph_grow]
          exact hg
        · rw [ht, graph_grow]
          exact (hg.edge_lt _ _ _ hedge).2
        · rw [ht, graph_grow] at huv
          rcases hgrow u v huv with h1 | ⟨rfl, h1⟩
          · exact .inl h1
          · rcases hothers next rest hw v huv with h2 | h2
            · exact .inr ⟨h2, h1⟩
            · exact .inl (h1.trans (Finset.union_subset (Finset.Subset.refl _) h2))
        · rw [hw] at hok
          exact hok.2.resolve_left hne

end DeepPropagation

end AserPTA
