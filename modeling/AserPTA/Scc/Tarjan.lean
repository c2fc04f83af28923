import AserPTA.Scc.Iterator
import Mathlib.Algebra.Order.BigOperators.Group.Finset
import Mathlib.Tactic.Linarith

/-!
# What the SCC iterator returns

`TInv` is the invariant of the depth-first search: the numbered nodes are the ones on the node stack,
the nodes on the visit stack reach all nodes above them, every other node on the node stack reaches a
lower one, and `minVisited` bounds the numbers that the edges seen so far lead to.

* `TInv.push`, `TInv.skip`, `TInv.pop`   the three steps of the search keep it;
* `Topo`          the list of components has its edges from earlier to later components;
* `SccOrder`      what the solvers use of the stack of components;
* `sccStack_spec`, `sccStackFrom_spec`   the iterator ends and returns such a stack.
-/

namespace AserPTA

open Loop Relation

/-- `v` is a child of `u` -/
def SccGraph.Edge (G : SccGraph) (u v : NodeID) : Prop := v ∈ G.child u

/-- there is a path from `u` to `v` -/
def SccGraph.Reach (G : SccGraph) : NodeID → NodeID → Prop := ReflTransGen G.Edge

/-- the edges of a component stay in it or go to a later one -/
def Topo (G : SccGraph) : List (List NodeID) → Prop
  | [] => True
  | c :: out => (∀ u ∈ c, ∀ v ∈ G.child u, v ∈ c ∨ v ∈ out.flatten) ∧ Topo G out

theorem Topo.mem_flatten {G : SccGraph} {sccs : List (List NodeID)} (h : Topo G sccs) {u v : NodeID}
    (hu : u ∈ sccs.flatten) (huv : v ∈ G.child u) : v ∈ sccs.flatten := by
  induction sccs with
  | nil => cases hu
  | cons c sccs ih =>
    rw [List.flatten_cons, List.mem_append] at hu ⊢
    rcases hu with hu | hu
    · exact h.1 u hu v huv
    · exact .inr (ih h.2 hu)

/-- what the solvers use of the stack of components: its edges go down the stack, the members of a
component reach each other, and every node that the work list leaves unset is there or is merged -/
structure SccOrder (G : SccGraph) (workList : NodeID → Bool) (sccs : List (List NodeID)) : Prop where
  topo : Topo G sccs
  nodup : sccs.flatten.Nodup
  ne_nil : ∀ c ∈ sccs, c ≠ []
  reach : ∀ c ∈ sccs, ∀ u ∈ c, ∀ v ∈ c, G.Reach u v
  lt : ∀ c ∈ sccs, ∀ u ∈ c, u < G.nodeNum
  covers : ∀ n < G.nodeNum, workList n = false → G.hasSuperNode n = false → n ∈ sccs.flatten

namespace SCCIterator

variable {G : SccGraph} {it : SCCIterator} {out : List (List NodeID)}

/-- the visit number of a node on the node stack -/
def nm (it : SCCIterator) (n : NodeID) : Nat :=
  match it.nodeVisitNumbers n with
  | some (.num k) => k
  | _ => 0

theorem nm_of_num {n : NodeID} {k : Nat} (h : it.nodeVisitNumbers n = some (.num k)) :
    nm it n = k := by
  rw [nm, h]

/-- the invariant of the search, with the components found so far -/
structure TInv (G : SccGraph) (it : SCCIterator) (out : List (List NodeID)) : Prop where
  stack_iff : ∀ n, n ∈ it.sccNodeStack ↔ ∃ k, it.nodeVisitNumbers n = some (.num k)
  stack_sorted : it.sccNodeStack.Pairwise fun a b => nm it b < nm it a
  num_le : ∀ n ∈ it.sccNodeStack, nm it n ≤ it.visitNum
  done_iff : ∀ n, it.nodeVisitNumbers n = some .done ↔ n ∈ out.flatten
  lt : ∀ n, it.nodeVisitNumbers n ≠ none → n < G.nodeNum
  frame_stack : ∀ f ∈ it.visitStack, f.node ∈ it.sccNodeStack
  frame_sorted : it.visitStack.Pairwise fun f g => nm it g.node < nm it f.node
  frame_child : ∀ f ∈ it.visitStack, ∀ v ∈ f.nextChild, v ∈ G.child f.node
  /-- the children that have not been seen are still to be visited -/
  seen : ∀ u v, it.nodeVisitNumbers u ≠ none → v ∈ G.child u → it.nodeVisitNumbers v = none →
    ∃ f ∈ it.visitStack, f.node = u ∧ v ∈ f.nextChild
  down : ∀ f ∈ it.visitStack, ∀ u ∈ it.sccNodeStack, nm it f.node ≤ nm it u → G.Reach f.node u
  up : ∀ u ∈ it.sccNodeStack, (∃ f ∈ it.visitStack, f.node = u) ∨
    ∃ x ∈ it.sccNodeStack, nm it x < nm it u ∧ G.Reach u x
  min_le : ∀ f ∈ it.visitStack, f.minVisited ≤ nm it f.node
  min_reach : ∀ f ∈ it.visitStack, ∃ x ∈ it.sccNodeStack, nm it x = f.minVisited ∧
    G.Reach f.node x
  /-- `minVisited` of the last node of the visit stack not above `u` bounds what `u` leads to -/
  low : ∀ f ∈ it.visitStack, ∀ u ∈ it.sccNodeStack, nm it f.node ≤ nm it u →
    (∀ g ∈ it.visitStack, nm it g.node ≤ nm it u → nm it g.node ≤ nm it f.node) →
    ∀ x ∈ G.child u, x ∈ it.sccNodeStack →
      f.minVisited ≤ nm it x ∨ (u = f.node ∧ x ∈ f.nextChild)
  topo : Topo G out
  nodup : out.flatten.Nodup
  scc : ∀ c ∈ out, c ≠ [] ∧ ∀ u ∈ c, ∀ v ∈ c, G.Reach u v

namespace TInv

theorem init (G : SccGraph) (b : BitVector) (r : Option NodeID) :
    TInv G { visitedNode := b, lastRoot := r } [] := by
  constructor <;> simp [Topo]

/-- every node on the node stack reaches a node of the visit stack that is not above it -/
theorem exists_frame (h : TInv G it out) {u : NodeID} (hu : u ∈ it.sccNodeStack) :
    ∃ f ∈ it.visitStack, nm it f.node ≤ nm it u ∧ G.Reach u f.node := by
  induction hk : nm it u using Nat.strong_induction_on generalizing u with
  | _ k ih =>
    rcases h.up u hu with ⟨f, hf, rfl⟩ | ⟨x, hx, hlt, hux⟩
    · exact ⟨f, hf, le_of_eq hk, .refl⟩
    · obtain ⟨f, hf, hle, hxf⟩ := ih (nm it x) (hk ▸ hlt) hx rfl
      exact ⟨f, hf, by omega, hux.trans hxf⟩

theorem stack_nil (h : TInv G it out) (hv : it.visitStack = []) : it.sccNodeStack = [] := by
  refine List.eq_nil_iff_forall_not_mem.mpr fun u hu => ?_
  obtain ⟨f, hf, -⟩ := h.exists_frame hu
  rw [hv] at hf
  cases hf

/-- every node on the node stack reaches the top of the visit stack -/
theorem reach_top (h : TInv G it out) {f : StackElement} {st : List StackElement}
    (hv : it.visitStack = f :: st) {u : NodeID} (hu : u ∈ it.sccNodeStack) :
    G.Reach u f.node := by
  obtain ⟨g, hg, hle, hug⟩ := h.exists_frame hu
  have hfm : f ∈ it.visitStack := hv ▸ List.mem_cons_self ..
  refine hug.trans (h.down g hg f.node (h.frame_stack f hfm) ?_)
  have hs := h.frame_sorted
  rw [hv] at hg hs
  rcases List.mem_cons.mp hg with rfl | hg'
  · exact le_rfl
  · exact ((List.pairwise_cons.mp hs).1 g hg').le

/-! ## the three steps -/

/-- a child that has been seen: its number goes into `minVisited` -/
theorem skip (h : TInv G it out) {n c : NodeID} {rest : List NodeID} {m : Nat}
    {st : List StackElement} (hv : it.visitStack = ⟨n, c :: rest, m⟩ :: st) {vn : VisitNumber}
    (hc : it.nodeVisitNumbers c = some vn) :
    TInv G { it with visitStack := ⟨n, rest, updateMin m vn⟩ :: st } out := by
  have hup : updateMin m vn ≤ m := by
    cases vn with
    | num k => simp only [updateMin]; split <;> omega
    | done => exact le_rfl
  have hupc : c ∈ it.sccNodeStack → updateMin m vn ≤ nm it c := by
    intro hcs
    obtain ⟨k, hk⟩ := (h.stack_iff c).mp hcs
    rw [hk] at hc
    cases hc
    rw [nm_of_num hk]
    simp only [updateMin]
    split <;> omega
  have hn : (⟨n, c :: rest, m⟩ : StackElement) ∈ it.visitStack := hv ▸ List.mem_cons_self ..
  have hst : ∀ f ∈ st, f ∈ it.visitStack := fun f hf => hv ▸ List.mem_cons_of_mem _ hf
  have hsorted := h.frame_sorted
  rw [hv] at hsorted
  obtain ⟨hs1, hs2⟩ := List.pairwise_cons.mp hsorted
  refine { h with
    frame_stack := ?_, frame_sorted := ?_, frame_child := ?_, seen := ?_, down := ?_, up := ?_,
    min_le := ?_, min_reach := ?_, low := ?_ }
  · exact List.forall_mem_cons.mpr
      ⟨h.frame_stack ⟨n, c :: rest, m⟩ hn, fun f hf => h.frame_stack f (hst f hf)⟩
  · exact List.pairwise_cons.mpr ⟨hs1, hs2⟩
  · exact List.forall_mem_cons.mpr ⟨fun v hv' => h.frame_child _ hn v (List.mem_cons_of_mem _ hv'),
      fun f hf => h.frame_child f (hst f hf)⟩
  · intro u v hu huv hvn
    obtain ⟨f, hf, hfu, hfv⟩ := h.seen u v hu huv hvn
    rw [hv] at hf
    rcases List.mem_cons.mp hf with rfl | hf
    · refine ⟨_, List.mem_cons_self .., hfu, ?_⟩
      rcases List.mem_cons.mp hfv with rfl | hfv
      · rw [hc] at hvn; cases hvn
      · exact hfv
    · exact ⟨f, List.mem_cons_of_mem _ hf, hfu, hfv⟩
  · exact List.forall_mem_cons.mpr ⟨h.down ⟨n, c :: rest, m⟩ hn, fun f hf => h.down f (hst f hf)⟩
  · intro u hu
    rcases h.up u hu with ⟨f, hf, rfl⟩ | hx
    · rw [hv] at hf
      rcases List.mem_cons.mp hf with rfl | hf
      · exact .inl ⟨_, List.mem_cons_self .., rfl⟩
      · exact .inl ⟨f, List.mem_cons_of_mem _ hf, rfl⟩
    · exact .inr hx
  · exact List.forall_mem_cons.mpr ⟨hup.trans (h.min_le _ hn), fun f hf => h.min_le f (hst f hf)⟩
  · refine List.forall_mem_cons.mpr ⟨?_, fun f hf => h.min_reach f (hst f hf)⟩
    by_cases he : updateMin m vn = m
    · rw [he]
      exact h.min_reach ⟨n, c :: rest, m⟩ hn
    · cases vn with
      | num k =>
        refine ⟨c, (h.stack_iff c).mpr ⟨k, hc⟩, ?_, .single (h.frame_child _ hn c
          (List.mem_cons_self ..))⟩
        show nm it c = updateMin m (.num k)
        rw [nm_of_num hc]
        simp only [updateMin] at he ⊢
        split at he <;> simp_all
      | done => exact absurd rfl he
  · have howner : ∀ (f : StackElement) (u : NodeID),
        (∀ g ∈ (⟨n, rest, updateMin m vn⟩ : StackElement) :: st, nm it g.node ≤ nm it u →
          nm it g.node ≤ nm it f.node) →
        ∀ g ∈ it.visitStack, nm it g.node ≤ nm it u → nm it g.node ≤ nm it f.node := by
      intro f u ho
      rw [hv]
      exact List.forall_mem_cons.mpr ⟨(List.forall_mem_cons.mp ho).1, (List.forall_mem_cons.mp ho).2⟩
    intro f hf u hu hle ho x hx hxs
    rcases List.mem_cons.mp hf with rfl | hf
    · rcases h.low _ hn u hu hle (howner _ u ho) x hx hxs with h1 | ⟨h1, h2⟩
      · exact .inl (hup.trans h1)
      · rcases List.mem_cons.mp h2 with rfl | h2
        · exact .inl (hupc hxs)
        · exact .inr ⟨h1, h2⟩
    · exact h.low f (hst f hf) u hu hle (howner f u ho) x hx hxs

theorem nm_dfsVisitOne (c : NodeID) (x : NodeID) :
    nm (dfsVisitOne G c it) x = if x = c then it.visitNum + 1 else nm it x := by
  by_cases hx : x = c <;> simp [nm, dfsVisitOne, hx]

/-- A node that has not been seen goes onto both stacks, as a child of the top of the visit stack or
as a root. -/
theorem push (h : TInv G it out) {c : NodeID} (hc : it.nodeVisitNumbers c = none)
    (hlt : c < G.nodeNum) (st : List StackElement)
    (hnode : st.map StackElement.node = it.visitStack.map StackElement.node)
    (hedge : ∀ f ∈ it.visitStack, G.Reach f.node c)
    (hst : ∀ f ∈ st, ∃ g ∈ it.visitStack, f.node = g.node ∧ f.minVisited = g.minVisited ∧
      (∀ v ∈ f.nextChild, v ∈ g.nextChild) ∧ (∀ v ∈ g.nextChild, v = c ∨ v ∈ f.nextChild))
    (hst' : ∀ g ∈ it.visitStack, ∃ f ∈ st, f.node = g.node ∧
      (∀ v ∈ g.nextChild, v = c ∨ v ∈ f.nextChild)) :
    TInv G (dfsVisitOne G c { it with visitStack := st }) out := by
  have hcs : c ∉ it.sccNodeStack := by
    intro hcs
    obtain ⟨k, hk⟩ := (h.stack_iff c).mp hcs
    rw [hc] at hk; cases hk
  have hnum : ∀ x, (dfsVisitOne G c { it with visitStack := st }).nodeVisitNumbers x =
      if x = c then some (.num (it.visitNum + 1)) else it.nodeVisitNumbers x := fun _ => rfl
  have hnm : ∀ x, nm (dfsVisitOne G c { it with visitStack := st }) x =
      if x = c then it.visitNum + 1 else nm it x := nm_dfsVisitOne c
  have hne : ∀ x ∈ it.sccNodeStack, x ≠ c := fun x hx e => hcs (e ▸ hx)
  have hold : ∀ x ∈ it.sccNodeStack, nm (dfsVisitOne G c { it with visitStack := st }) x = nm it x :=
    fun x hx => (hnm x).trans (if_neg (hne x hx))
  have hnew : nm (dfsVisitOne G c { it with visitStack := st }) c = it.visitNum + 1 :=
    (hnm c).trans (if_pos rfl)
  have hfs : ∀ f ∈ st, f.node ∈ it.sccNodeStack := by
    intro f hf
    obtain ⟨g, hg, e, -⟩ := hst f hf
    exact e ▸ h.frame_stack g hg
  constructor
  · intro n
    rw [hnum]
    show n ∈ c :: it.sccNodeStack ↔ _
    rw [List.mem_cons, h.stack_iff]
    by_cases hn : n = c
    · simp [hn]
    · simp [hn]
  · refine List.pairwise_cons.mpr ⟨fun x hx => ?_, ?_⟩
    · rw [hnew, hold x hx]
      exact Nat.lt_succ_of_le (h.num_le x hx)
    · refine h.stack_sorted.imp_of_mem fun {a b} ha hb hab => ?_
      rwa [hold a ha, hold b hb]
  · refine List.forall_mem_cons.mpr ⟨le_of_eq hnew, fun x hx => ?_⟩
    rw [hold x hx]
    exact (h.num_le x hx).trans (Nat.le_succ _)
  · intro n
    rw [hnum, ← h.done_iff]
    by_cases hn : n = c
    · simp [hn, hc]
    · simp [hn]
  · intro n hn
    rw [hnum] at hn
    by_cases he : n = c
    · exact he ▸ hlt
    · rw [if_neg he] at hn
      exact h.lt n hn
  · refine List.forall_mem_cons.mpr ⟨List.mem_cons_self .., fun f hf => ?_⟩
    exact List.mem_cons_of_mem _ (hfs f hf)
  · refine List.pairwise_cons.mpr ⟨fun f hf => ?_, ?_⟩
    · show nm _ f.node < nm _ c
      rw [hnew, hold _ (hfs f hf)]
      exact Nat.lt_succ_of_le (h.num_le _ (hfs f hf))
    · have h1 : (st.map StackElement.node).Pairwise fun a b => nm it b < nm it a := by
        rw [hnode]
        exact List.pairwise_map.mpr h.frame_sorted
      refine (List.pairwise_map.mp h1).imp_of_mem fun {a b} ha hb hab => ?_
      rwa [hold _ (hfs a ha), hold _ (hfs b hb)]
  · refine List.forall_mem_cons.mpr ⟨fun v hv => hv, fun f hf v hv => ?_⟩
    obtain ⟨g, hg, e, -, h1, -⟩ := hst f hf
    exact e ▸ h.frame_child g hg v (h1 v hv)
  · intro u v hu huv hv
    rw [hnum] at hu hv
    have hvc : v ≠ c := by
      rintro rfl
      rw [if_pos rfl] at hv; cases hv
    rw [if_neg hvc] at hv
    by_cases hue : u = c
    · exact ⟨_, List.mem_cons_self .., hue.symm, hue ▸ huv⟩
    · rw [if_neg hue] at hu
      obtain ⟨g, hg, e, hgv⟩ := h.seen u v hu huv hv
      obtain ⟨f, hf, e', h1⟩ := hst' g hg
      exact ⟨f, List.mem_cons_of_mem _ hf, e'.trans e, (h1 v hgv).resolve_left hvc⟩
  · refine List.forall_mem_cons.mpr ⟨?_, fun f hf => List.forall_mem_cons.mpr ⟨?_, ?_⟩⟩
    · refine List.forall_mem_cons.mpr ⟨fun _ => .refl, fun x hx hle => ?_⟩
      rw [hnew, hold x hx] at hle
      exact absurd (h.num_le x hx) (by omega)
    · intro _
      obtain ⟨g, hg, e, -⟩ := hst f hf
      exact e ▸ hedge g hg
    · intro x hx hle
      obtain ⟨g, hg, e, -⟩ := hst f hf
      rw [hold _ (hfs f hf), hold x hx, e] at hle
      exact e ▸ h.down g hg x hx hle
  · refine List.forall_mem_cons.mpr ⟨.inl ⟨_, List.mem_cons_self .., rfl⟩, fun x hx => ?_⟩
    rcases h.up x hx with ⟨g, hg, rfl⟩ | ⟨y, hy, hlt', hxy⟩
    · obtain ⟨f, hf, e, -⟩ := hst' g hg
      exact .inl ⟨f, List.mem_cons_of_mem _ hf, e⟩
    · refine .inr ⟨y, List.mem_cons_of_mem _ hy, ?_, hxy⟩
      rwa [hold x hx, hold y hy]
  · refine List.forall_mem_cons.mpr ⟨le_of_eq hnew.symm, fun f hf => ?_⟩
    obtain ⟨g, hg, e, em, -⟩ := hst f hf
    rw [hold _ (hfs f hf), e, em]
    exact h.min_le g hg
  · refine List.forall_mem_cons.mpr ⟨⟨c, List.mem_cons_self .., hnew, .refl⟩, fun f hf => ?_⟩
    obtain ⟨g, hg, e, em, -⟩ := hst f hf
    obtain ⟨x, hx, hxm, hfx⟩ := h.min_reach g hg
    refine ⟨x, List.mem_cons_of_mem _ hx, ?_, e ▸ hfx⟩
    rw [hold x hx, em]
    exact hxm
  · refine List.forall_mem_cons.mpr ⟨List.forall_mem_cons.mpr ⟨?_, ?_⟩,
      fun f hf => List.forall_mem_cons.mpr ⟨?_, ?_⟩⟩
    · exact fun _ _ x hx _ => .inr ⟨rfl, hx⟩
    · intro x hx hle
      rw [hnew, hold x hx] at hle
      exact absurd (h.num_le x hx) (by omega)
    · intro _ ho
      have h1 := (List.forall_mem_cons.mp ho).1 le_rfl
      rw [hold _ (hfs f hf)] at h1
      have h2 := h.num_le _ (hfs f hf)
      have h3 : it.visitNum + 1 ≤ nm it f.node := hnew ▸ h1
      omega
    · intro u hu hle ho x hx hxs
      obtain ⟨g, hg, e, em, -, h1⟩ := hst f hf
      rw [em]
      rcases List.mem_cons.mp hxs with rfl | hxs
      · left
        rw [hnew]
        exact (h.min_le g hg).trans ((h.num_le _ (h.frame_stack g hg)).trans (Nat.le_succ _))
      · rw [hold _ (hfs f hf), hold u hu, e] at hle
        have ho' : ∀ k ∈ it.visitStack, nm it k.node ≤ nm it u → nm it k.node ≤ nm it g.node := by
          intro k hk hku
          obtain ⟨k', hk', e', -⟩ := hst' k hk
          have := ho k' (List.mem_cons_of_mem _ hk')
          rw [hold _ (hfs k' hk'), hold u hu, hold _ (hfs f hf), e', e] at this
          exact this hku
        rw [hold x hxs, e]
        rcases h.low g hg u hu hle ho' x hx hxs with h2 | ⟨h2, h3⟩
        · exact .inl h2
        · exact .inr ⟨h2, (h1 x h3).resolve_left (hne x hxs)⟩
  · exact h.topo
  · exact h.nodup
  · exact h.scc

/-- the child at the top of the visit stack has not been seen -/
theorem pushChild (h : TInv G it out) {n c : NodeID} {rest : List NodeID} {m : Nat}
    {st : List StackElement} (hv : it.visitStack = ⟨n, c :: rest, m⟩ :: st)
    (hc : it.nodeVisitNumbers c = none) (hlt : c < G.nodeNum) :
    TInv G (dfsVisitOne G c { it with visitStack := ⟨n, rest, m⟩ :: st }) out := by
  have hn : (⟨n, c :: rest, m⟩ : StackElement) ∈ it.visitStack := hv ▸ List.mem_cons_self ..
  have hnc : G.Edge n c := h.frame_child ⟨n, c :: rest, m⟩ hn c (List.mem_cons_self ..)
  refine h.push hc hlt _ (by rw [hv]; rfl) ?_ ?_ ?_
  · intro f hf
    refine ReflTransGen.tail (h.down f hf n (h.frame_stack ⟨n, c :: rest, m⟩ hn) ?_) hnc
    have hs := h.frame_sorted
    rw [hv] at hf hs
    rcases List.mem_cons.mp hf with rfl | hf
    · exact le_rfl
    · exact ((List.pairwise_cons.mp hs).1 f hf).le
  · rw [hv]
    refine List.forall_mem_cons.mpr ⟨⟨_, List.mem_cons_self .., rfl, rfl,
      fun v hv => List.mem_cons_of_mem _ hv, fun v hv => List.mem_cons.mp hv⟩, fun f hf => ?_⟩
    exact ⟨f, List.mem_cons_of_mem _ hf, rfl, rfl, fun v hv => hv, fun v hv => .inr hv⟩
  · rw [hv]
    refine List.forall_mem_cons.mpr ⟨⟨_, List.mem_cons_self .., rfl,
      fun v hv => List.mem_cons.mp hv⟩, fun f hf => ?_⟩
    exact ⟨f, List.mem_cons_of_mem _ hf, rfl, fun v hv => .inr hv⟩

/-- a new root -/
theorem pushRoot (h : TInv G it out) (hv : it.visitStack = []) {r : NodeID}
    (hr : it.nodeVisitNumbers r = none) (hlt : r < G.nodeNum) :
    TInv G (dfsVisitOne G r it) out := by
  have he : it = { it with visitStack := [] } := by rw [← hv]
  rw [he]
  exact h.push hr hlt [] (by rw [hv]) (by simp [hv]) (by simp) (by simp [hv])

/-- A leaf that leads below itself stays on the node stack, and its minimum goes to its parent. -/
theorem popKeep (h : TInv G it out) {n : NodeID} {m : Nat} {st : List StackElement}
    (hv : it.visitStack = ⟨n, [], m⟩ :: st) (hm : m ≠ nm it n) :
    TInv G { it with visitStack := propagateMin m st } out ∧ propagateMin m st ≠ [] := by
  have hn : (⟨n, [], m⟩ : StackElement) ∈ it.visitStack := hv ▸ List.mem_cons_self ..
  have hst : ∀ f ∈ st, f ∈ it.visitStack := fun f hf => hv ▸ List.mem_cons_of_mem _ hf
  have hns : n ∈ it.sccNodeStack := h.frame_stack ⟨n, [], m⟩ hn
  have hmlt : m < nm it n := lt_of_le_of_ne (h.min_le ⟨n, [], m⟩ hn) hm
  obtain ⟨x, hxs, hxm, hnx⟩ := h.min_reach ⟨n, [], m⟩ hn
  have hsorted := h.frame_sorted
  rw [hv] at hsorted
  obtain ⟨hs1, hs2⟩ := List.pairwise_cons.mp hsorted
  -- the leaf leads to a lower node, so it is not the last one on the visit stack
  obtain ⟨p, hp, hpx, hxp⟩ := h.exists_frame hxs
  cases st with
  | nil =>
    rw [hv] at hp
    obtain rfl : p = ⟨n, [], m⟩ := List.mem_singleton.mp hp
    exact absurd hpx (by rw [hxm]; exact Nat.not_le_of_lt hmlt)
  | cons q st =>
    obtain ⟨q, qrest, qm⟩ := q
    have hq : (⟨q, qrest, qm⟩ : StackElement) ∈ it.visitStack := hst _ (List.mem_cons_self ..)
    have hst' : ∀ f ∈ st, f ∈ it.visitStack := fun f hf => hst f (List.mem_cons_of_mem _ hf)
    have hqn : nm it q < nm it n := hs1 _ (List.mem_cons_self ..)
    obtain ⟨hs3, hs4⟩ := List.pairwise_cons.mp hs2
    have hmin : (if qm > m then m else qm) ≤ qm ∧ (if qm > m then m else qm) ≤ m := by
      split <;> omega
    refine ⟨?_, List.cons_ne_nil _ _⟩
    show TInv G { it with visitStack := ⟨q, qrest, if qm > m then m else qm⟩ :: st } out
    refine { h with
      frame_stack := ?_, frame_sorted := ?_, frame_child := ?_, seen := ?_, down := ?_, up := ?_,
      min_le := ?_, min_reach := ?_, low := ?_ }
    · exact List.forall_mem_cons.mpr ⟨h.frame_stack ⟨q, qrest, qm⟩ hq,
        fun f hf => h.frame_stack f (hst' f hf)⟩
    · exact List.pairwise_cons.mpr ⟨hs3, hs4⟩
    · exact List.forall_mem_cons.mpr ⟨h.frame_child ⟨q, qrest, qm⟩ hq,
        fun f hf => h.frame_child f (hst' f hf)⟩
    · intro u v hu huv hvn
      obtain ⟨f, hf, hfu, hfv⟩ := h.seen u v hu huv hvn
      rw [hv] at hf
      rcases List.mem_cons.mp hf with rfl | hf
      · cases hfv
      · rcases List.mem_cons.mp hf with rfl | hf
        · exact ⟨_, List.mem_cons_self .., hfu, hfv⟩
        · exact ⟨f, List.mem_cons_of_mem _ hf, hfu, hfv⟩
    · exact List.forall_mem_cons.mpr ⟨h.down ⟨q, qrest, qm⟩ hq, fun f hf => h.down f (hst' f hf)⟩
    · intro u hu
      rcases h.up u hu with ⟨f, hf, rfl⟩ | hx
      · rw [hv] at hf
        rcases List.mem_cons.mp hf with rfl | hf
        · exact .inr ⟨x, hxs, lt_of_eq_of_lt hxm hmlt, hnx⟩
        · rcases List.mem_cons.mp hf with rfl | hf
          · exact .inl ⟨_, List.mem_cons_self .., rfl⟩
          · exact .inl ⟨f, List.mem_cons_of_mem _ hf, rfl⟩
      · exact .inr hx
    · exact List.forall_mem_cons.mpr ⟨hmin.1.trans (h.min_le ⟨q, qrest, qm⟩ hq),
        fun f hf => h.min_le f (hst' f hf)⟩
    · refine List.forall_mem_cons.mpr ⟨?_, fun f hf => h.min_reach f (hst' f hf)⟩
      by_cases hqm : qm > m
      · refine ⟨x, hxs, hxm.trans (if_pos hqm).symm, ?_⟩
        exact (h.down ⟨q, qrest, qm⟩ hq n hns hqn.le).trans hnx
      · obtain ⟨y, hys, hym, hqy⟩ := h.min_reach ⟨q, qrest, qm⟩ hq
        exact ⟨y, hys, hym.trans (if_neg hqm).symm, hqy⟩
    · -- what the leaf was the owner of now belongs to its parent
      intro f hf u hu hle ho y hy hys
      rcases List.mem_cons.mp hf with rfl | hf
      · by_cases hun : nm it n ≤ nm it u
        · have ho' : ∀ g ∈ it.visitStack, nm it g.node ≤ nm it u → nm it g.node ≤ nm it n := by
            rw [hv]
            exact List.forall_mem_cons.mpr ⟨fun _ => le_rfl, fun g hg _ => (hs1 g hg).le⟩
          rcases h.low ⟨n, [], m⟩ hn u hu hun ho' y hy hys with h1 | ⟨-, h1⟩
          · exact .inl (hmin.2.trans h1)
          · cases h1
        · have ho' : ∀ g ∈ it.visitStack, nm it g.node ≤ nm it u → nm it g.node ≤ nm it q := by
            rw [hv]
            exact List.forall_mem_cons.mpr ⟨fun h1 => absurd h1 hun,
              List.forall_mem_cons.mpr ⟨fun _ => le_rfl, fun g hg _ => (hs3 g hg).le⟩⟩
          rcases h.low ⟨q, qrest, qm⟩ hq u hu hle ho' y hy hys with h1 | h1
          · exact .inl (hmin.1.trans h1)
          · exact .inr h1
      · have hqf : nm it f.node < nm it q := hs3 f hf
        have huq : nm it u < nm it q := by
          by_contra h1
          have := (List.forall_mem_cons.mp ho).1 (Nat.le_of_not_lt h1)
          exact absurd this (Nat.not_le_of_lt hqf)
        refine h.low f (hst' f hf) u hu hle ?_ y hy hys
        rw [hv]
        refine List.forall_mem_cons.mpr ⟨fun h1 => ?_, List.forall_mem_cons.mpr ⟨fun h1 => ?_,
          (List.forall_mem_cons.mp ho).2⟩⟩
        · exact absurd (show nm it n ≤ nm it u from h1) (by omega)
        · exact absurd (show nm it q ≤ nm it u from h1) (by omega)

/-- What `popUntil` takes off the node stack are the nodes numbered from the leaf on. -/
theorem popUntil_spec {n : NodeID} (f : NodeID → Nat) (l : List NodeID)
    (hl : l.Pairwise fun a b => f b < f a) (hn : n ∈ l) :
    l = (popUntil n l).1 ++ (popUntil n l).2 ∧ n ∈ (popUntil n l).1 ∧
      (∀ x ∈ (popUntil n l).1, f n ≤ f x) ∧ ∀ x ∈ (popUntil n l).2, f x < f n := by
  induction l with
  | nil => cases hn
  | cons v l ih =>
    obtain ⟨h1, h2⟩ := List.pairwise_cons.mp hl
    rw [popUntil]
    by_cases hv : v = n
    · rw [if_pos hv, ← hv]
      exact ⟨rfl, List.mem_singleton_self v, by simp, h1⟩
    · have hn' : n ∈ l := (List.mem_cons.mp hn).resolve_left (Ne.symm hv)
      obtain ⟨i1, i2, i3, i4⟩ := ih h2 hn'
      rw [if_neg hv]
      refine ⟨congrArg (v :: ·) i1, List.mem_cons_of_mem _ i2, ?_, i4⟩
      exact List.forall_mem_cons.mpr ⟨(h1 n hn').le, i3⟩

/-- A leaf that leads nowhere below itself: it and what is above it is a component, and all its
edges stay in it or go to components found before. -/
theorem popEmit (h : TInv G it out) {n : NodeID} {m : Nat} {st : List StackElement}
    (hv : it.visitStack = ⟨n, [], m⟩ :: st) (hm : it.nodeVisitNumbers n = some (.num m)) :
    TInv G (popLeaf it) ((popUntil n it.sccNodeStack).1 :: out) ∧
      (popLeaf it).currentSCC = (popUntil n it.sccNodeStack).1 ∧
      (popLeaf it).visitStack = propagateMin m st := by
  have hn : (⟨n, [], m⟩ : StackElement) ∈ it.visitStack := hv ▸ List.mem_cons_self ..
  have hst : ∀ f ∈ st, f ∈ it.visitStack := fun f hf => hv ▸ List.mem_cons_of_mem _ hf
  have hns : n ∈ it.sccNodeStack := h.frame_stack ⟨n, [], m⟩ hn
  have hnm : nm it n = m := nm_of_num hm
  obtain ⟨hsplit, hnc, hge, hlt⟩ := popUntil_spec (nm it) it.sccNodeStack h.stack_sorted hns
  set c := (popUntil n it.sccNodeStack).1 with hc
  set rest := (popUntil n it.sccNodeStack).2 with hrest
  have hsorted := h.frame_sorted
  rw [hv] at hsorted
  obtain ⟨hs1, hs2⟩ := List.pairwise_cons.mp hsorted
  have hcs : ∀ x ∈ c, x ∈ it.sccNodeStack := fun x hx => hsplit ▸ List.mem_append_left _ hx
  have hrs : ∀ x ∈ rest, x ∈ it.sccNodeStack := fun x hx => hsplit ▸ List.mem_append_right _ hx
  have hrc : ∀ x ∈ rest, x ∉ c := fun x hx hxc => absurd (hlt x hx) (Nat.not_lt_of_ge (hge x hxc))
  -- the parent's minimum is not above the number of the parent, so it does not change
  have hpm : propagateMin m st = st := by
    cases st with
    | nil => rfl
    | cons q st =>
      have h1 := h.min_le q (hst q (List.mem_cons_self ..))
      have h2 : nm it q.node < nm it n := hs1 q (List.mem_cons_self ..)
      rw [propagateMin, if_neg (by omega)]
  have hpop : popLeaf it = { it with
      visitStack := propagateMin m st, currentSCC := c, sccNodeStack := rest,
      nodeVisitNumbers := fun x => if x ∈ c then some .done else it.nodeVisitNumbers x } := by
    simp only [popLeaf, hv, if_pos hm]
    rfl
  have hnum : ∀ x, (popLeaf it).nodeVisitNumbers x =
      if x ∈ c then some .done else it.nodeVisitNumbers x := fun x => by rw [hpop]
  have hold : ∀ x ∈ rest, nm (popLeaf it) x = nm it x := by
    intro x hx
    rw [nm, nm, hnum, if_neg (hrc x hx)]
  have hstack : (popLeaf it).sccNodeStack = rest := by rw [hpop]
  have hvs : (popLeaf it).visitStack = st := by rw [hpop]; exact hpm
  have hfr : ∀ f ∈ st, f.node ∈ rest := by
    intro f hf
    have h1 := h.frame_stack f (hst f hf)
    rw [hsplit] at h1
    refine (List.mem_append.mp h1).resolve_left fun h2 => ?_
    exact absurd (hs1 f hf) (Nat.not_lt_of_ge (hge _ h2))
  -- all edges of the component have been seen
  have hclosed : ∀ u ∈ c, ∀ v ∈ G.child u, v ∈ c ∨ v ∈ out.flatten := by
    intro u hu v huv
    obtain ⟨ku, hku⟩ := (h.stack_iff u).mp (hcs u hu)
    cases hvn : it.nodeVisitNumbers v with
    | none =>
      obtain ⟨f, hf, hfu, hfv⟩ := h.seen u v (by rw [hku]; simp) huv hvn
      rw [hv] at hf
      rcases List.mem_cons.mp hf with rfl | hf
      · cases hfv
      · exact absurd (hs1 f hf) (Nat.not_lt_of_ge (hfu ▸ hge u hu))
    | some vn =>
      cases vn with
      | done => exact .inr ((h.done_iff v).mp hvn)
      | num k =>
        left
        have hvs : v ∈ it.sccNodeStack := (h.stack_iff v).mpr ⟨k, hvn⟩
        have ho : ∀ g ∈ it.visitStack, nm it g.node ≤ nm it u → nm it g.node ≤ nm it n := by
          rw [hv]
          exact List.forall_mem_cons.mpr ⟨fun _ => le_rfl, fun g hg _ => (hs1 g hg).le⟩
        rcases h.low ⟨n, [], m⟩ hn u (hcs u hu) (hge u hu) ho v huv hvs with h1 | ⟨-, h1⟩
        · rw [hsplit] at hvs
          refine (List.mem_append.mp hvs).resolve_right fun h2 => ?_
          have h3 := hlt v h2
          have h4 : m ≤ nm it v := h1
          omega
        · cases h1
  refine ⟨?_, by rw [hpop], by rw [hpop]⟩
  constructor
  · intro x
    rw [hstack, hnum]
    by_cases hx : x ∈ c
    · simp only [if_pos hx]
      constructor
      · exact fun h1 => absurd hx (hrc x h1)
      · rintro ⟨k, hk⟩; cases hk
    · rw [if_neg hx, ← h.stack_iff, hsplit, List.mem_append, or_iff_right hx]
  · rw [hstack]
    have h1 := h.stack_sorted
    rw [hsplit] at h1
    refine (List.pairwise_append.mp h1).2.1.imp_of_mem fun {a b} ha hb hab => ?_
    rwa [hold a ha, hold b hb]
  · rw [hstack]
    intro x hx
    rw [hold x hx, hpop]
    exact h.num_le x (hrs x hx)
  · intro x
    rw [hnum, List.flatten_cons, List.mem_append, ← h.done_iff]
    by_cases hx : x ∈ c
    · simp [hx]
    · simp [hx]
  · intro x hx
    rw [hnum] at hx
    by_cases hxc : x ∈ c
    · obtain ⟨k, hk⟩ := (h.stack_iff x).mp (hcs x hxc)
      exact h.lt x (by rw [hk]; simp)
    · rw [if_neg hxc] at hx
      exact h.lt x hx
  · rw [hvs, hstack]
    exact hfr
  · rw [hvs]
    refine hs2.imp_of_mem fun {a b} ha hb hab => ?_
    rwa [hold _ (hfr a ha), hold _ (hfr b hb)]
  · rw [hvs]
    exact fun f hf => h.frame_child f (hst f hf)
  · intro u v hu huv hvn
    rw [hnum] at hu hvn
    have hvc : v ∉ c := fun h1 => by rw [if_pos h1] at hvn; cases hvn
    rw [if_neg hvc] at hvn
    by_cases huc : u ∈ c
    · rcases hclosed u huc v huv with h1 | h1
      · exact absurd h1 hvc
      · rw [(h.done_iff v).mpr h1] at hvn; cases hvn
    · rw [if_neg huc] at hu
      obtain ⟨f, hf, hfu, hfv⟩ := h.seen u v hu huv hvn
      rw [hv] at hf
      rcases List.mem_cons.mp hf with rfl | hf
      · cases hfv
      · rw [hvs]
        exact ⟨f, hf, hfu, hfv⟩
  · rw [hvs, hstack]
    intro f hf u hu hle
    rw [hold _ (hfr f hf), hold u hu] at hle
    exact h.down f (hst f hf) u (hrs u hu) hle
  · rw [hvs, hstack]
    intro u hu
    rcases h.up u (hrs u hu) with ⟨f, hf, hfu⟩ | ⟨x, hx, hxu, hux⟩
    · rw [hv] at hf
      rcases List.mem_cons.mp hf with rfl | hf
      · have hnu : n = u := hfu
        exact absurd hnc (hnu ▸ hrc u hu)
      · exact .inl ⟨f, hf, hfu⟩
    · have hxr : x ∈ rest := by
        rw [hsplit] at hx
        refine (List.mem_append.mp hx).resolve_left fun h1 => ?_
        have := hge x h1
        have := hlt u hu
        omega
      refine .inr ⟨x, hxr, ?_, hux⟩
      rwa [hold x hxr, hold u hu]
  · rw [hvs]
    intro f hf
    rw [hold _ (hfr f hf)]
    exact h.min_le f (hst f hf)
  · rw [hvs, hstack]
    intro f hf
    obtain ⟨x, hx, hxm, hfx⟩ := h.min_reach f (hst f hf)
    have hxr : x ∈ rest := by
      rw [hsplit] at hx
      refine (List.mem_append.mp hx).resolve_left fun h1 => ?_
      have h2 := hge x h1
      have h3 := h.min_le f (hst f hf)
      have h4 : nm it f.node < nm it n := hs1 f hf
      omega
    exact ⟨x, hxr, (hold x hxr).trans hxm, hfx⟩
  · rw [hvs, hstack]
    intro f hf u hu hle ho x hx hxs
    rw [hold _ (hfr f hf), hold u hu] at hle
    rw [hold x hxs]
    refine h.low f (hst f hf) u (hrs u hu) hle ?_ x hx (hrs x hxs)
    rw [hv]
    refine List.forall_mem_cons.mpr ⟨fun h1 => ?_, fun g hg h1 => ?_⟩
    · exact absurd (hlt u hu) (Nat.not_lt_of_ge h1)
    · have := ho g hg
      rw [hold _ (hfr g hg), hold u hu, hold _ (hfr f hf)] at this
      exact this h1
  · exact ⟨hclosed, h.topo⟩
  · rw [List.flatten_cons, List.nodup_append']
    refine ⟨?_, h.nodup, fun x hx hxo => ?_⟩
    · have h1 : it.sccNodeStack.Nodup := h.stack_sorted.imp fun {a b} hab => by
        rintro rfl; exact lt_irrefl _ hab
      rw [hsplit] at h1
      exact (List.nodup_append'.mp h1).1
    · obtain ⟨k, hk⟩ := (h.stack_iff x).mp (hcs x hx)
      rw [(h.done_iff x).mpr hxo] at hk
      cases hk
  · refine List.forall_mem_cons.mpr ⟨⟨List.ne_nil_of_mem hnc, fun u hu v hv' => ?_⟩, h.scc⟩
    exact (h.reach_top hv (hcs u hu)).trans (h.down ⟨n, [], m⟩ hn v (hcs v hv') (hge v hv'))

end TInv

/-! ## the loops end -/

/-- what is left to do for a node that has not been seen -/
def unseenWork (G : SccGraph) (it : SCCIterator) (n : NodeID) : Nat :=
  if it.nodeVisitNumbers n = none then (G.child n).length + 2 else 0

/-- what is left to do: the children of the nodes not seen, and those left on the visit stack -/
def work (G : SccGraph) (it : SCCIterator) : Nat :=
  ∑ n ∈ Finset.range G.nodeNum, unseenWork G it n +
    (it.visitStack.map fun f => f.nextChild.length + 1).sum

theorem work_lt_sccFuel (h : it.visitStack = []) : work G it < sccFuel G := by
  have hle : ∑ n ∈ Finset.range G.nodeNum, unseenWork G it n ≤
      ∑ n ∈ Finset.range G.nodeNum, ((G.child n).length + 2) := by
    refine Finset.sum_le_sum fun n _ => ?_
    unfold unseenWork
    split <;> omega
  rw [work, sccFuel, h]
  exact Nat.lt_succ_of_le hle

theorem work_dfsVisitOne {c : NodeID} (hc : it.nodeVisitNumbers c = none) (hlt : c < G.nodeNum) :
    work G (dfsVisitOne G c it) + 1 = work G it := by
  have hmem : c ∈ Finset.range G.nodeNum := Finset.mem_range.mpr hlt
  have h1 : ∑ x ∈ (Finset.range G.nodeNum).erase c, unseenWork G (dfsVisitOne G c it) x =
      ∑ x ∈ (Finset.range G.nodeNum).erase c, unseenWork G it x := by
    refine Finset.sum_congr rfl fun x hx => ?_
    simp only [unseenWork, dfsVisitOne, if_neg (Finset.ne_of_mem_erase hx)]
  have h2 : unseenWork G (dfsVisitOne G c it) c = 0 := by simp [unseenWork, dfsVisitOne]
  have h3 : unseenWork G it c = (G.child c).length + 2 := if_pos hc
  have h4 : ((dfsVisitOne G c it).visitStack.map fun f => f.nextChild.length + 1).sum =
      (G.child c).length + 1 + (it.visitStack.map fun f => f.nextChild.length + 1).sum := by
    simp [dfsVisitOne]
  have hsum : ∀ it : SCCIterator, ∑ x ∈ Finset.range G.nodeNum, unseenWork G it x =
      unseenWork G it c + ∑ x ∈ (Finset.range G.nodeNum).erase c, unseenWork G it x :=
    fun it => (Finset.add_sum_erase _ (unseenWork G it) hmem).symm
  rw [work, work, h4, hsum, hsum it, h1, h2, h3]
  omega

/-- what every step keeps besides `TInv` -/
structure Frame (G : SccGraph) (it it' : SCCIterator) : Prop where
  lastRoot : it'.lastRoot = it.lastRoot
  size : it'.visitedNode.size = it.visitedNode.size
  /-- a bit is set for what has been seen, and for nothing else -/
  bit : ∀ n, it'.visitedNode.test n = true ↔
    it.visitedNode.test n = true ∨
      (it.nodeVisitNumbers n = none ∧ it'.nodeVisitNumbers n ≠ none)
  seen : ∀ n, it.nodeVisitNumbers n ≠ none → it'.nodeVisitNumbers n ≠ none

namespace Frame

theorem refl (G : SccGraph) (it : SCCIterator) : Frame G it it :=
  ⟨rfl, rfl, fun n => by tauto, fun _ h => h⟩

theorem trans {it₁ it₂ it₃ : SCCIterator} (h : Frame G it₁ it₂) (h' : Frame G it₂ it₃) :
    Frame G it₁ it₃ := by
  refine ⟨h'.lastRoot.trans h.lastRoot, h'.size.trans h.size, fun n => ?_,
    fun n hn => h'.seen n (h.seen n hn)⟩
  have h1 := h.seen n
  have h2 := h'.seen n
  rw [h'.bit, h.bit]
  tauto

theorem of_eq {it it' : SCCIterator} (h1 : it'.lastRoot = it.lastRoot)
    (h2 : it'.visitedNode = it.visitedNode)
    (h3 : ∀ n, it'.nodeVisitNumbers n = none ↔ it.nodeVisitNumbers n = none) : Frame G it it' := by
  refine ⟨h1, by rw [h2], fun n => ?_, fun n hn hn' => hn ((h3 n).mp hn')⟩
  have := h3 n
  rw [h2]
  tauto

theorem dfsVisitOne {c : NodeID} (hc : it.nodeVisitNumbers c = none) :
    Frame G it (dfsVisitOne G c it) := by
  refine ⟨rfl, rfl, fun n => ?_, fun n hn => ?_⟩
  · by_cases h : n = c
    · simp [SCCIterator.dfsVisitOne, BitVector.test_set, h, hc]
    · simp only [SCCIterator.dfsVisitOne, BitVector.test_set, if_neg h]
      tauto
  · by_cases h : n = c
    · simp [SCCIterator.dfsVisitOne, h]
    · simpa [SCCIterator.dfsVisitOne, h] using hn

end Frame

/-- one step of the inner loop -/
theorem visitNextChild_spec (h : TInv G it out) (hG : ∀ u v, v ∈ G.child u → v < G.nodeNum)
    (hc : hasNextChild it = true) :
    TInv G (visitNextChild G it) out ∧ work G (visitNextChild G it) < work G it ∧
      Frame G it (visitNextChild G it) ∧ (visitNextChild G it).visitStack ≠ [] ∧
      (visitNextChild G it).currentSCC = it.currentSCC := by
  obtain ⟨n, c, rest, m, st, hv⟩ : ∃ n c rest m st, it.visitStack = ⟨n, c :: rest, m⟩ :: st := by
    cases hv : it.visitStack with
    | nil => simp [hasNextChild, hv] at hc
    | cons f st =>
      obtain ⟨n, _ | ⟨c, rest⟩, m⟩ := f
      · simp [hasNextChild, hv] at hc
      · exact ⟨n, c, rest, m, st, rfl⟩
  have hw : ∀ m', work G { it with visitStack := ⟨n, rest, m'⟩ :: st } < work G it := by
    intro m'
    refine Nat.add_lt_add_left ?_ (∑ n ∈ Finset.range G.nodeNum, unseenWork G it n)
    rw [hv]
    simp only [List.map_cons, List.sum_cons, List.length_cons]
    omega
  cases hvn : it.nodeVisitNumbers c with
  | none =>
    have hlt : c < G.nodeNum := hG n c (h.frame_child ⟨n, c :: rest, m⟩
      (hv ▸ List.mem_cons_self ..) c (List.mem_cons_self ..))
    have he : visitNextChild G it = dfsVisitOne G c { it with visitStack := ⟨n, rest, m⟩ :: st } := by
      simp only [visitNextChild, hv, hvn]
    rw [he]
    refine ⟨h.pushChild hv hvn hlt, ?_, ?_, by simp [dfsVisitOne], rfl⟩
    · have : work G (dfsVisitOne G c { it with visitStack := ⟨n, rest, m⟩ :: st }) + 1 =
          work G { it with visitStack := ⟨n, rest, m⟩ :: st } := work_dfsVisitOne hvn hlt
      have := hw m
      omega
    · have hf : Frame G it { it with visitStack := ⟨n, rest, m⟩ :: st } :=
        .of_eq rfl rfl fun _ => Iff.rfl
      exact hf.trans (Frame.dfsVisitOne hvn)
  | some vn =>
    have he : visitNextChild G it =
        { it with visitStack := ⟨n, rest, updateMin m vn⟩ :: st } := by
      simp only [visitNextChild, hv, hvn]
    rw [he]
    exact ⟨h.skip hv hvn, hw _, .of_eq rfl rfl fun _ => Iff.rfl, by simp, rfl⟩

theorem dfsVisitChildren_spec (h : TInv G it out) (hG : ∀ u v, v ∈ G.child u → v < G.nodeNum)
    (hw : work G it < sccFuel G) (hv : it.visitStack ≠ []) :
    ∃ it', dfsVisitChildren G it = some it' ∧ TInv G it' out ∧ work G it' ≤ work G it ∧
      Frame G it it' ∧ (∃ n m st, it'.visitStack = ⟨n, [], m⟩ :: st) ∧
      it'.currentSCC = it.currentSCC := by
  obtain ⟨it', h1, ⟨h2, h3, h4, h5, h6⟩, h7⟩ := loop_total (c := hasNextChild)
    (b := fun it => some (visitNextChild G it))
    (I := fun it' => TInv G it' out ∧ work G it' ≤ work G it ∧ Frame G it it' ∧
      it'.visitStack ≠ [] ∧ it'.currentSCC = it.currentSCC) (work G)
    (fun s ⟨i1, i2, i3, i4, i5⟩ hc => by
      obtain ⟨j1, j2, j3, j4, j5⟩ := visitNextChild_spec i1 hG hc
      exact ⟨_, rfl, ⟨j1, j2.le.trans i2, i3.trans j3, j4, j5.trans i5⟩, j2⟩)
    (sccFuel G) ⟨h, le_rfl, .refl G it, hv, rfl⟩ hw
  refine ⟨it', h1, h2, h3, h4, ?_, h6⟩
  cases hv' : it'.visitStack with
  | nil => exact absurd hv' h5
  | cons f st =>
    obtain ⟨n, _ | ⟨c, rest⟩, m⟩ := f
    · exact ⟨n, m, st, rfl⟩
    · simp [hasNextChild, hv'] at h7

theorem length_propagateMin (m : Nat) (st : List StackElement) :
    ((propagateMin m st).map fun f => f.nextChild.length + 1).sum =
      (st.map fun f => f.nextChild.length + 1).sum := by
  cases st <;> rfl

/-- a leaf is popped: nothing is found and the search goes on, or a component is found -/
theorem popLeaf_spec (h : TInv G it out) (hcur : it.currentSCC = []) {n : NodeID} {m : Nat}
    {st : List StackElement} (hv : it.visitStack = ⟨n, [], m⟩ :: st) :
    work G (popLeaf it) < work G it ∧ Frame G it (popLeaf it) ∧
      ((popLeaf it).currentSCC = [] ∧ TInv G (popLeaf it) out ∧ (popLeaf it).visitStack ≠ [] ∨
        (popLeaf it).currentSCC ≠ [] ∧ TInv G (popLeaf it) ((popLeaf it).currentSCC :: out)) := by
  have hn : (⟨n, [], m⟩ : StackElement) ∈ it.visitStack := hv ▸ List.mem_cons_self ..
  have hlast : (popLeaf it).lastRoot = it.lastRoot := by
    simp only [popLeaf, hv]; split <;> rfl
  have hvis : (popLeaf it).visitedNode = it.visitedNode := by
    simp only [popLeaf, hv]; split <;> rfl
  have hvst : (popLeaf it).visitStack = propagateMin m st := by
    simp only [popLeaf, hv]; split <;> rfl
  have hseen : ∀ x, (popLeaf it).nodeVisitNumbers x = none ↔ it.nodeVisitNumbers x = none := by
    intro x
    simp only [popLeaf, hv]
    split
    · by_cases hx : x ∈ (popUntil n it.sccNodeStack).1
      · have hxs : x ∈ it.sccNodeStack := by
          rw [(TInv.popUntil_spec (nm it) it.sccNodeStack h.stack_sorted
            (h.frame_stack ⟨n, [], m⟩ hn)).1]
          exact List.mem_append_left _ hx
        obtain ⟨k, hk⟩ := (h.stack_iff x).mp hxs
        simp [hx, hk]
      · simp [hx]
    · exact Iff.rfl
  refine ⟨?_, .of_eq hlast hvis hseen, ?_⟩
  · have h1 : ∀ x, unseenWork G (popLeaf it) x = unseenWork G it x := by
      intro x
      unfold unseenWork
      by_cases hx : it.nodeVisitNumbers x = none
      · rw [if_pos hx, if_pos ((hseen x).mpr hx)]
      · rw [if_neg hx, if_neg fun h1 => hx ((hseen x).mp h1)]
    rw [work, work, Finset.sum_congr rfl fun x _ => h1 x, hvst, hv, length_propagateMin]
    refine Nat.add_lt_add_left ?_ _
    simp
  · by_cases hm : it.nodeVisitNumbers n = some (.num m)
    · obtain ⟨h1, h2, -⟩ := h.popEmit hv hm
      refine .inr ⟨?_, h2 ▸ h1⟩
      rw [h2]
      exact (h1.scc _ (List.mem_cons_self ..)).1
    · obtain ⟨k, hk⟩ := (h.stack_iff n).mp (h.frame_stack ⟨n, [], m⟩ hn)
      have hmk : m ≠ nm it n := by
        rw [nm_of_num hk]
        rintro rfl
        exact hm hk
      have he : popLeaf it = { it with visitStack := propagateMin m st } := by
        simp only [popLeaf, hv, if_neg hm]
      obtain ⟨h1, h2⟩ := h.popKeep hv hmk
      rw [he]
      exact .inl ⟨hcur, h1, h2⟩

/-- with a node on the visit stack, the next component is found -/
theorem getNextSCC_spec (h : TInv G it out) (hG : ∀ u v, v ∈ G.child u → v < G.nodeNum)
    (hw : work G it < sccFuel G) (hv : it.visitStack ≠ []) :
    ∃ it', getNextSCC G it = some it' ∧ work G it' ≤ work G it ∧ Frame G it it' ∧
      it'.currentSCC ≠ [] ∧ TInv G it' (it'.currentSCC :: out) := by
  obtain ⟨it', h1, ⟨h2, h3, h4⟩, h5⟩ := loop_total
    (c := fun it : SCCIterator => !it.visitStack.isEmpty && it.currentSCC.isEmpty)
    (b := fun it => (dfsVisitChildren G it).map popLeaf)
    (I := fun it' => work G it' ≤ work G it ∧ Frame G it it' ∧
      (it'.currentSCC = [] ∧ TInv G it' out ∧ it'.visitStack ≠ [] ∨
        it'.currentSCC ≠ [] ∧ TInv G it' (it'.currentSCC :: out))) (work G)
    (by
      rintro s ⟨i1, i2, i3⟩ hc
      simp only [Bool.and_eq_true, Bool.not_eq_true', List.isEmpty_eq_false_iff,
        List.isEmpty_iff] at hc
      rcases i3 with ⟨i3, i4, -⟩ | ⟨i3, -⟩
      · obtain ⟨t, j1, j2, j3, j4, ⟨n, m, st, j5⟩, j6⟩ :=
          dfsVisitChildren_spec i4 hG (lt_of_le_of_lt i1 hw) hc.1
        obtain ⟨k1, k2, k3⟩ := popLeaf_spec j2 (j6.trans i3) j5
        refine ⟨popLeaf t, by rw [j1]; rfl, ⟨k1.le.trans (j3.trans i1), (i2.trans j4).trans k2, k3⟩,
          lt_of_lt_of_le k1 j3⟩
      · exact absurd hc.2 i3)
    (sccFuel G) (s := { it with currentSCC := [] })
    ⟨le_rfl, .of_eq rfl rfl fun _ => Iff.rfl, .inl ⟨rfl, { h with }, hv⟩⟩ hw
  refine ⟨it', h1, h2, h3, ?_⟩
  rcases h4 with ⟨h6, -, h7⟩ | h6
  · simp [h6, h7] at h5
  · exact h6

theorem getNextSCC_of_nil (hv : it.visitStack = []) :
    getNextSCC G it = some { it with currentSCC := [] } := by
  refine loop_of_not_cond ?_
  simp [hv]

/-! ## the whole iteration -/

/-- the state between two components; `workList` is what the bits started with -/
structure Run (G : SccGraph) (workList : NodeID → Bool) (it : SCCIterator)
    (out : List (List NodeID)) : Prop where
  inv : TInv G it out
  work : SCCIterator.work G it < sccFuel G
  size : it.visitedNode.size = G.nodeNum
  bit : ∀ n, it.visitedNode.test n = true ↔
    workList n = true ∨ it.nodeVisitNumbers n ≠ none
  cov : ∃ r, it.lastRoot = some r ∧ ∀ n ≤ r, n < G.nodeNum →
    it.visitedNode.test n = true ∨ G.hasSuperNode n = true

/-- the end: every node that the work list leaves unset, and that is not merged, has been seen -/
def Complete (G : SccGraph) (workList : NodeID → Bool) (it : SCCIterator) : Prop :=
  ∀ n < G.nodeNum, workList n = false → G.hasSuperNode n = false → it.nodeVisitNumbers n ≠ none

section run
variable {workList : NodeID → Bool} (hG : ∀ u v, v ∈ G.child u → v < G.nodeNum)

theorem Run.of_frame {it' : SCCIterator} {out' : List (List NodeID)} (h : Run G workList it out)
    (hinv : TInv G it' out') (hw : SCCIterator.work G it' ≤ SCCIterator.work G it)
    (hf : Frame G it it') : Run G workList it' out' := by
  refine ⟨hinv, lt_of_le_of_lt hw h.work, hf.size.trans h.size, fun n => ?_, ?_⟩
  · have h1 := hf.bit n
    have h2 := h.bit n
    have h3 := hf.seen n
    tauto
  · obtain ⟨r, hr, hc⟩ := h.cov
    refine ⟨r, hf.lastRoot.trans hr, fun n hn hlt => ?_⟩
    exact (hc n hn hlt).imp_left fun h1 => (hf.bit n).mpr (.inl h1)

theorem nodeNum_lt_sccFuel : G.nodeNum < sccFuel G := by
  have h1 : ∑ n ∈ Finset.range G.nodeNum, 1 ≤
      ∑ n ∈ Finset.range G.nodeNum, ((G.child n).length + 2) :=
    Finset.sum_le_sum fun n _ => by omega
  rw [Finset.sum_const, Finset.card_range, nsmul_eq_mul, mul_one] at h1
  exact Nat.lt_succ_of_le h1

include hG

/-- the next sub graph is entered at an unset node that is not merged, or there is none -/
theorem nextSubGraph_spec (h : Run G workList it out) (hv : it.visitStack = [])
    (hcur : it.currentSCC = []) :
    ∃ it', nextSubGraph G it = some it' ∧
      (it'.currentSCC ≠ [] ∧ Run G workList it' (it'.currentSCC :: out) ∨
        it'.isEnd = true ∧ TInv G it' out ∧ Complete G workList it') := by
  -- the loop only moves `lastRoot`, and passes only nodes that are visited or merged
  let I : SCCIterator → Prop := fun s => s = { it with lastRoot := s.lastRoot } ∧
    (∀ n < G.nodeNum, (∀ r, s.lastRoot = some r → n < r) →
      it.visitedNode.test n = true ∨ G.hasSuperNode n = true) ∧
    ∀ r, s.lastRoot = some r → 0 < r ∧ r < G.nodeNum ∧ it.visitedNode.test r = false
  have hnext : ∀ s r, s = { it with lastRoot := s.lastRoot } → s.lastRoot = some r →
      (∀ n ≤ r, n < G.nodeNum → it.visitedNode.test n = true ∨ G.hasSuperNode n = true) →
      I (nextRoot s) ∧ ∀ r', (nextRoot s).lastRoot = some r' → r < r' := by
    intro s r hs hr hc
    have hvis : s.visitedNode = it.visitedNode := by rw [hs]
    have he : (nextRoot s).lastRoot = it.visitedNode.findNextUnset r := by
      rw [nextRoot, hr, ← hvis]; rfl
    refine ⟨⟨by rw [hs]; rfl, fun n hn hr' => ?_, fun r' hr' => ?_⟩, fun r' hr' => ?_⟩
    · by_cases hnr : n ≤ r
      · exact hc n hnr hn
      · left
        cases hf : it.visitedNode.findNextUnset r with
        | none =>
          exact BitVector.findNextUnset_eq_none.mp hf n (h.size ▸ hn) (Nat.lt_of_not_le hnr)
        | some r' =>
          exact (BitVector.findNextUnset_eq_some hf).2.2.2 n (Nat.lt_of_not_le hnr)
            (hr' r' (he.trans hf))
    · have := BitVector.findNextUnset_eq_some (he.symm.trans hr')
      exact ⟨Nat.zero_lt_of_lt this.2.1, h.size ▸ this.1, this.2.2.1⟩
    · exact (BitVector.findNextUnset_eq_some (he.symm.trans hr')).2.1
  obtain ⟨r₀, hr₀, hc₀⟩ := h.cov
  obtain ⟨hI₀, -⟩ := hnext it r₀ rfl hr₀ hc₀
  obtain ⟨s, hs, ⟨hs1, hs2, hs3⟩, hexit⟩ := loop_total
    (c := fun it : SCCIterator => it.lastRoot.any fun r => decide (0 < r) && G.hasSuperNode r)
    (b := fun it => some (nextRoot it)) (I := I)
    (fun s => s.lastRoot.elim 0 fun r => G.nodeNum - r)
    (by
      rintro s ⟨i1, i2, i3⟩ hc
      obtain ⟨r, hr, hrc⟩ : ∃ r, s.lastRoot = some r ∧ G.hasSuperNode r = true := by
        simp only [Option.any_eq_true, Bool.and_eq_true] at hc
        obtain ⟨r, hr, -, h2⟩ := hc
        exact ⟨r, hr, h2⟩
      obtain ⟨hr1, hr2, hr3⟩ := i3 r hr
      obtain ⟨j1, j2⟩ := hnext s r i1 hr fun n hn hlt => by
        rcases lt_or_eq_of_le hn with hn' | rfl
        · exact i2 n hlt fun r' hr' => by
            obtain rfl : r = r' := Option.some.inj (hr.symm.trans hr')
            exact hn'
        · exact .inr hrc
      refine ⟨_, rfl, j1, ?_⟩
      rw [hr]
      cases hn : (nextRoot s).lastRoot with
      | none => exact Nat.sub_pos_of_lt hr2
      | some r' =>
        have h1 := j2 r' hn
        have h2 := (j1.2.2 r' hn).2.1
        exact Nat.sub_lt_sub_left hr2 h1)
    (sccFuel G) hI₀ (by
      refine lt_of_le_of_lt ?_ nodeNum_lt_sccFuel
      cases (nextRoot it).lastRoot with
      | none => exact Nat.zero_le _
      | some r => exact Nat.sub_le _ _)
  rw [nextSubGraph, hs, Option.bind_some]
  cases hl : s.lastRoot with
  | none =>
    refine ⟨s, rfl, .inr ⟨?_, ?_, ?_⟩⟩
    · rw [hs1]; simp [isEnd, hv, hcur]
    · rw [hs1]; exact { h.inv with }
    · intro n hn hwl hsup
      have h1 := hs2 n hn fun r hr => by rw [hl] at hr; cases hr
      rw [hs1]
      rcases h1 with h1 | h1
      · rw [h.bit, hwl] at h1
        exact h1.resolve_left Bool.false_ne_true
      · rw [hsup] at h1; cases h1
  | some r =>
    obtain ⟨hr1, hr2, hr3⟩ := hs3 r hl
    have hsup : G.hasSuperNode r = false := by
      simpa [hl, hr1] using hexit
    have hun : it.nodeVisitNumbers r = none := by
      by_contra hne
      have := (h.bit r).mpr (.inr hne)
      rw [hr3] at this; cases this
    have hrun : Run G workList (dfsVisitOne G r s) out := by
      have hun' : s.nodeVisitNumbers r = none := by rw [hs1]; exact hun
      have hf : Frame G s (dfsVisitOne G r s) := Frame.dfsVisitOne hun'
      have hbit : ∀ n, s.visitedNode.test n = true ↔ workList n = true ∨ s.nodeVisitNumbers n ≠ none := by
        rw [hs1]; exact h.bit
      refine ⟨TInv.pushRoot (by rw [hs1]; exact { h.inv with }) (by rw [hs1]; exact hv) hun' hr2,
        ?_, ?_, fun n => ?_, r, hl, fun n hn hlt => ?_⟩
      · have h1 := work_dfsVisitOne (G := G) hun' hr2
        have h2 : SCCIterator.work G s = SCCIterator.work G it := by rw [hs1]; rfl
        have := h.work
        omega
      · rw [hf.size, hs1]; exact h.size
      · have h1 := hf.bit n
        have h2 := hbit n
        have h3 := hf.seen n
        tauto
      · rcases lt_or_eq_of_le hn with hn' | rfl
        · refine (hs2 n hlt fun r' hr' => ?_).imp_left fun h1 => (hf.bit n).mpr (.inl ?_)
          · obtain rfl : r = r' := Option.some.inj (hl.symm.trans hr')
            exact hn'
          · rw [hs1]; exact h1
        · exact .inl ((hf.bit n).mpr (.inr ⟨hun', by simp [dfsVisitOne]⟩))
    obtain ⟨it', k1, k2, k3, k4, k5⟩ := getNextSCC_spec hrun.inv hG hrun.work (by simp [dfsVisitOne])
    refine ⟨it', ?_, .inl ⟨k4, hrun.of_frame k5 k2 k3⟩⟩
    rw [← k1]
    exact if_pos hr1

/-- `operator++` finds the next component or comes to the end -/
theorem next_spec (h : Run G workList it out) :
    ∃ it', next G it = some it' ∧
      (it'.currentSCC ≠ [] ∧ Run G workList it' (it'.currentSCC :: out) ∨
        it'.isEnd = true ∧ TInv G it' out ∧ Complete G workList it') := by
  by_cases hv : it.visitStack = []
  · have h' : Run G workList { it with currentSCC := [] } out :=
      h.of_frame { h.inv with } le_rfl (.of_eq rfl rfl fun _ => Iff.rfl)
    obtain ⟨it', h1, h2⟩ := nextSubGraph_spec hG h' hv rfl
    refine ⟨it', ?_, h2⟩
    rw [next, getNextSCC_of_nil hv, Option.bind_some]
    exact h1
  · obtain ⟨it', h1, h2, h3, h4, h5⟩ := getNextSCC_spec h.inv hG h.work hv
    refine ⟨it', ?_, .inl ⟨h4, h.of_frame h5 h2 h3⟩⟩
    rw [next, h1, Option.bind_some, if_neg]
    simpa using h4

omit hG in
theorem sccOrder_of_complete (h : TInv G it out) (hv : it.sccNodeStack = [])
    (hc : Complete G workList it) : SccOrder G workList out := by
  refine ⟨h.topo, h.nodup, fun c hc => (h.scc c hc).1, fun c hc => (h.scc c hc).2,
    fun c hc u hu => ?_, fun n hn hw hs => ?_⟩
  · have hd : it.nodeVisitNumbers u = some .done :=
      (h.done_iff u).mpr (List.mem_flatten_of_mem hc hu)
    exact h.lt u (by rw [hd]; simp)
  · cases hvn : it.nodeVisitNumbers n with
    | none => exact absurd hvn (hc n hn hw hs)
    | some vn =>
      cases vn with
      | done => exact (h.done_iff n).mp hvn
      | num k =>
        have := (h.stack_iff n).mpr ⟨k, hvn⟩
        rw [hv] at this
        cases this

/-- Each turn pushes a component, which is not empty, and there are at most as many nodes in the
components as in the graph. -/
theorem sccStack_spec
    (h : it.currentSCC ≠ [] ∧ Run G workList it (it.currentSCC :: []) ∨
      it.isEnd = true ∧ TInv G it [] ∧ Complete G workList it) :
    ∃ sccs, sccStack G it = some sccs ∧ SccOrder G workList sccs := by
  let I : SCCIterator × List (List NodeID) → Prop := fun s =>
    s.1.currentSCC ≠ [] ∧ Run G workList s.1 (s.1.currentSCC :: s.2) ∨
      s.1.isEnd = true ∧ TInv G s.1 s.2 ∧ Complete G workList s.1
  have hlen : ∀ it out, TInv G it out → out.flatten.length ≤ G.nodeNum := by
    intro it out h
    have h1 : out.flatten ⊆ List.range G.nodeNum := by
      intro x hx
      refine List.mem_range.mpr (h.lt x ?_)
      rw [(h.done_iff x).mpr hx]
      simp
    have := (h.nodup.subperm h1).length_le
    rwa [List.length_range] at this
  obtain ⟨s, hs, hI, hexit⟩ := loop_total
    (c := fun s : SCCIterator × List (List NodeID) => !s.1.isEnd)
    (b := fun s => (next G s.1).map fun it' => (it', s.1.currentSCC :: s.2)) (I := I)
    (fun s => G.nodeNum - s.2.flatten.length)
    (by
      rintro s hI hc
      rcases hI with ⟨i1, i2⟩ | ⟨i1, -⟩
      · obtain ⟨it', j1, j2⟩ := next_spec hG i2
        refine ⟨(it', s.1.currentSCC :: s.2), by rw [j1]; rfl, j2, ?_⟩
        have h1 := hlen _ _ i2.inv
        have h2 : 0 < s.1.currentSCC.length := List.length_pos_iff.mpr i1
        simp only [List.flatten_cons, List.length_append] at h1 ⊢
        omega
      · simp [i1] at hc)
    (sccFuel G) (s := (it, [])) h
    (lt_of_le_of_lt (Nat.sub_le _ _) nodeNum_lt_sccFuel)
  refine ⟨s.2, by rw [sccStack, hs]; rfl, ?_⟩
  have hend : s.1.isEnd = true := by simpa using hexit
  have hv : s.1.visitStack = [] ∧ s.1.currentSCC = [] := by simpa [isEnd] using hend
  rcases hI with ⟨h1, -⟩ | ⟨-, h1, h2⟩
  · exact absurd hv.2 h1
  · exact sccOrder_of_complete h1 (h1.stack_nil hv.1) h2

/-- a first root -/
theorem startAt_spec {b : BitVector} (hsize : b.size = G.nodeNum) {r : NodeID} (hr : r < G.nodeNum)
    (hb : ∀ n ≤ 0, n < G.nodeNum → n = r ∨ b.test n = true) :
    ∃ it, getNextSCC G (dfsVisitOne G r { visitedNode := b }) = some it ∧ it.currentSCC ≠ [] ∧
      Run G b.test it [it.currentSCC] := by
  have h0 : TInv G { visitedNode := b, lastRoot := some 0 } [] := TInv.init G b _
  have hf : Frame G { visitedNode := b } (dfsVisitOne G r { visitedNode := b }) :=
    Frame.dfsVisitOne rfl
  have hw : work G (dfsVisitOne G r { visitedNode := b }) + 1 = work G { visitedNode := b } :=
    work_dfsVisitOne rfl hr
  have hw0 : work G { visitedNode := b } < sccFuel G := work_lt_sccFuel rfl
  have hrun : Run G b.test (dfsVisitOne G r { visitedNode := b }) [] := by
    refine ⟨h0.pushRoot rfl rfl hr, by omega, hsize, fun n => ?_, 0, rfl, fun n hn hlt => ?_⟩
    · have := hf.bit n
      simpa using this
    · rcases hb n hn hlt with rfl | h1
      · exact .inl ((hf.bit n).mpr (.inr ⟨rfl, by simp [dfsVisitOne]⟩))
      · exact .inl ((hf.bit n).mpr (.inl h1))
  obtain ⟨it, k1, k2, k3, k4, k5⟩ := getNextSCC_spec hrun.inv hG hrun.work (by simp [dfsVisitOne])
  exact ⟨it, k1, k4, hrun.of_frame k5 k2 k3⟩

/-- the stack of all components -/
theorem start_spec (hpos : 0 < G.nodeNum) :
    ∃ sccs, (start G).bind (sccStack G) = some sccs ∧ SccOrder G (fun _ => false) sccs := by
  obtain ⟨it, h1, h2, h3⟩ := startAt_spec hG (b := { size := G.nodeNum }) rfl hpos
    fun n hn _ => .inl (Nat.le_zero.mp hn)
  obtain ⟨sccs, h4, h5⟩ := sccStack_spec hG (.inl ⟨h2, h3⟩)
  exact ⟨sccs, by rw [start, h1, Option.bind_some, h4], h5⟩

/-- the stack of the components reached from the nodes that the work list leaves unset -/
theorem startFrom_spec (workList : BitVector) (hsize : workList.size = G.nodeNum) :
    ∃ sccs, (startFrom G workList).bind (sccStack G) = some sccs ∧
      SccOrder G workList.test sccs := by
  cases hf : workList.findFirstUnset with
  | none =>
    have hall := BitVector.findFirstUnset_eq_none.mp hf
    have hempty : Complete G workList.test { visitedNode := workList } := fun n hn hw => by
      rw [hall n (hsize ▸ hn)] at hw
      cases hw
    obtain ⟨sccs, h1, h2⟩ := sccStack_spec hG (.inr ⟨rfl, TInv.init G workList _, hempty⟩)
    exact ⟨sccs, by rw [startFrom, hf]; exact h1, h2⟩
  | some first =>
    obtain ⟨h1, h2, h3⟩ := BitVector.findFirstUnset_eq_some hf
    obtain ⟨it, k1, k2, k3⟩ := startAt_spec hG (b := workList) hsize (hsize ▸ h1) fun n hn _ => by
      obtain rfl : n = 0 := Nat.le_zero.mp hn
      rcases Nat.eq_zero_or_pos first with h | h
      · exact .inl h.symm
      · exact .inr (h3 0 h)
    obtain ⟨sccs, h4, h5⟩ := sccStack_spec hG (.inl ⟨k2, k3⟩)
    refine ⟨sccs, ?_, h5⟩
    rw [startFrom, hf]
    simp only [k1, Option.bind_some, h4]

end run

end SCCIterator

end AserPTA
