import AserPTA.Context.Domains
import AserPTA.Program.SolverBase
import Mathlib.Combinatorics.Enumerative.DoubleCounting

/-!
# The loop of solve ends

A round after which the loop goes on has given a call a new target.  There are finitely many calls, each
in finitely many contexts, and each of them takes at most `MaxIndirectTarget` targets.

* `CallKey.Within`       the contexts and the calls of the nodes are those of the program;
* `CtxModule.targetNum`  how many targets the calls have;
* `targetNum_le`         the bound on it;
* `Counted`              what a round keeps, while it counts;
* `analyze_returns`      the loop ends within as many rounds, if each of them does.
-/

namespace AserPTA

open Loop

/-! ## nodes -/

section
variable {Ctx Fun Inst Val σ : Type}

def CallKey.Within (D : Finset Ctx) (E : Finset Inst) : CallKey Ctx Fun Inst → Prop
  | .direct C _ => C ∈ D
  | .inDirect C I => C ∈ D ∧ I ∈ E

/-- the nodes have their contexts among `D` and their calls among `E` -/
def CtxModule.Within (D : Finset Ctx) (E : Finset Inst) (M : CtxModule Ctx Fun Inst Val) : Prop :=
  ∀ (i : CallNodeID) n, M.nodes[i]? = some n → n.key.Within D E

namespace Discovery

variable [DecidableEq Ctx] [DecidableEq Fun] [DecidableEq Inst]
variable {P : CallSites Fun Inst} {T : CtxDomain Ctx Inst} {K : CallBacks Ctx Fun Inst Val σ}
  {A : Ctx → Inst → Fun → Prop} {D : Finset Ctx} {E : Finset Inst}

omit [DecidableEq Ctx] [DecidableEq Fun] [DecidableEq Inst] in
theorem Leads.within (hT : T.Within E D) {C : Ctx} {I : Inst} (hC : C ∈ D) (hI : I ∈ E)
    {k : CallKey Ctx Fun Inst} {option : InterceptOption} (h : Leads P T K A C I k option) :
    k.Within D E := by
  cases h with
  | visit h =>
    unfold callee at h
    split at h
    · cases h
      exact ⟨hC, hI⟩
    · split at h
      · cases h
      · cases h
        unfold Discovery.target
        split
        · exact hT.evolve C hC I hI
        · exact ⟨hC, hI⟩
  | target _ _ _ => exact hT.evolve C hC I hI

theorem Lookup.within (hT : T.Within E D) {C : Ctx} {I : Inst} (hC : C ∈ D) (hI : I ∈ E)
    {R R1 : Discovery Ctx Fun Inst Val σ} {k : CallKey Ctx Fun Inst} {id : CallNodeID} (hB : R.Base)
    (hR : R.module.Within D E) (h : Lookup P T K A C I R k id R1) : k.Within D E := by
  cases h with
  | known h =>
    obtain ⟨n, hn, rfl⟩ := (hB.find k id).mp h
    exact hR id n hn
  | direct hl _ => exact hl.within hT hC hI
  | inDirect _ _ => exact ⟨hC, hI⟩

theorem follows_within (hT : T.Within E D) (hE : ∀ F, ∀ I ∈ P.calls F, I ∈ E) :
    Follows P T K A fun M _ => M.Within D E where
  node {R R1 src f I k id} hB hsite hl hR := by
    have hk : k.Within D E := hl.within hT (hR src _ hsite.node) (hE _ _ hsite.call) hB hR
    obtain ⟨option, hget⟩ := hl.getNode
    obtain ⟨-, hgot⟩ := hget.got hB
    intro i n hn
    rcases hgot.only i (List.getElem?_eq_some_iff.mp hn).1 with hlt | rfl
    · have hsame := hgot.node i _ (List.getElem?_eq_getElem hlt)
      rw [hn] at hsame
      cases hsame
      exact hR i _ (List.getElem?_eq_getElem hlt)
    · obtain ⟨m, hm, rfl⟩ := hgot.found
      rw [hn] at hm
      cases hm
      exact hk
  edge _ _ _ h := by
    unfold CtxModule.Within
    rw [CtxModule.insertEdge_nodes]
    exact h
  call hc hs h := by
    intro i n hn
    obtain ⟨m, hm, hkey, -⟩ := CtxModule.setCall_back hc hs hn
    rw [← hkey]
    exact h i m hm

end Discovery

/-! ## targets -/

namespace CtxModule

def targetsAt (M : CtxModule Ctx Fun Inst Val) (i : CallNodeID) : Nat :=
  match M.nodes[i]? with
  | some (.inDirect c) => c.targets.length
  | _ => 0

/-- the targets of all calls -/
def targetNum (M : CtxModule Ctx Fun Inst Val) : Nat :=
  ∑ i ∈ Finset.range M.nodes.length, M.targetsAt i

variable {M M' : CtxModule Ctx Fun Inst Val}

theorem targetsAt_of_le {i : CallNodeID} (h : M.nodes.length ≤ i) : M.targetsAt i = 0 := by
  unfold targetsAt
  rw [List.getElem?_eq_none h]

theorem targetNum_congr (hlen : M.nodes.length ≤ M'.nodes.length)
    (h : ∀ i, M'.targetsAt i = M.targetsAt i) : M'.targetNum = M.targetNum := by
  unfold targetNum
  simp only [h]
  refine (Finset.sum_subset (Finset.range_mono hlen) fun i _ hi => ?_).symm
  exact targetsAt_of_le (by simpa using hi)

/-- a node that has no targets is added -/
theorem targetNum_append {n : CallGraphNode Ctx Fun Inst Val} (h : M'.nodes = M.nodes ++ [n])
    (hn : ∀ c, n = .inDirect c → c.targets = []) : M'.targetNum = M.targetNum := by
  refine targetNum_congr (by rw [h]; simp) fun i => ?_
  unfold targetsAt
  rw [h]
  rcases Nat.lt_trichotomy i M.nodes.length with hlt | rfl | hgt
  · rw [List.getElem?_append_left hlt]
  · rw [List.getElem?_concat_length, List.getElem?_eq_none le_rfl]
    cases n with
    | direct f => rfl
    | inDirect c =>
      show c.targets.length = 0
      rw [hn c rfl]
      rfl
  · rw [List.getElem?_eq_none (by simp; omega), List.getElem?_eq_none hgt.le]

/-- a node is replaced by one with `k` more targets -/
theorem targetNum_set {id : CallNodeID} {c c' : InDirectCallSite Ctx Fun Inst Val} {k : Nat}
    (hc : M.nodes[id]? = some (.inDirect c)) (hk : c'.targets.length = c.targets.length + k)
    (h : M'.nodes = M.nodes.set id (.inDirect c')) : M'.targetNum = M.targetNum + k := by
  have hid : id < M.nodes.length := (List.getElem?_eq_some_iff.mp hc).1
  have hmem : id ∈ Finset.range M.nodes.length := Finset.mem_range.mpr hid
  have hlen : M'.nodes.length = M.nodes.length := by rw [h, List.length_set]
  have hother : ∀ i ∈ (Finset.range M.nodes.length).erase id, M'.targetsAt i = M.targetsAt i := by
    intro i hi
    unfold targetsAt
    rw [h, List.getElem?_set_ne (Finset.ne_of_mem_erase hi).symm]
  have hself : M'.targetsAt id = M.targetsAt id + k := by
    unfold targetsAt
    rw [h, List.getElem?_set_self hid, hc]
    exact hk
  unfold targetNum
  rw [hlen, ← Finset.add_sum_erase _ _ hmem, ← Finset.add_sum_erase _ _ hmem,
    Finset.sum_congr rfl hother, hself]
  exact Nat.add_right_comm _ _ _

end CtxModule

/-- no callback gives a call a target -/
theorem Discovery.targetNum_kept [DecidableEq Ctx] [DecidableEq Fun] [DecidableEq Inst]
    (K : CallBacks Ctx Fun Inst Val σ) (k : Nat) : Kept K fun M _ => M.targetNum = k where
  onNewDirect M s C F I h := (CtxModule.targetNum_append rfl fun _ hc => by cases hc).trans h
  external M s C F I h := (CtxModule.targetNum_append rfl fun _ hc => by cases hc).trans h
  markAsExt M s id h := by
    refine (CtxModule.targetNum_congr (List.length_modify ..).ge fun i => ?_).trans h
    unfold CtxModule.targetsAt CtxModule.markAsExtFunction
    rw [List.getElem?_modify]
    cases M.nodes[i]? with
    | none => rfl
    | some n =>
      simp only [Option.map_eq_map, Option.map_some]
      by_cases hid : id = i
      · rw [if_pos hid]
        cases n <;> rfl
      · rw [if_neg hid]
  onNewInDirect M s C target I _ h := (CtxModule.targetNum_append rfl fun _ hc => by
    cases hc
    rfl).trans h
  onNewEdge M s e h := by
    unfold CtxModule.targetNum CtxModule.targetsAt at h ⊢
    rw [CtxModule.insertEdge_nodes]
    exact h
  resolved M s id c node hc h := by
    let c' := { c with resolvedNode := c.resolvedNode ++ [node] }
    let M' := { M with nodes := M.nodes.set id (.inDirect c') }
    have hlen : c'.targets.length = c.targets.length + 0 := rfl
    have hset : M'.targetNum = M.targetNum + 0 := CtxModule.targetNum_set hc hlen rfl
    exact hset.trans h

end

/-! ## rounds -/

section
variable {Ctx Fun Val Ty : Type}
variable [DecidableEq Ctx] [DecidableEq Fun] [DecidableEq Val] [DecidableEq Ty]
variable {P : Program Fun Val Ty} {hlay : P.Layout} {T : CtxDomain Ctx Val}
  {L : LangModel Fun Val Ty} {w : Walk} {MaxIndirectTarget n : Nat}

/-- no call has more targets than the limit -/
def CtxModule.Limited (N : Nat) (M : CtxModule Ctx Fun Val Val) : Prop :=
  ∀ (i : CallNodeID) c, M.nodes[i]? = some (.inDirect c) → c.targets.length ≤ N

omit [DecidableEq Ctx] [DecidableEq Fun] [DecidableEq Val] in
theorem CtxModule.Limited.kept {N : Nat} {M M' : CtxModule Ctx Fun Val Val} (h : M.Limited N)
    (hk : M.CallsKept M') : M'.Limited N := by
  intro i c hc
  obtain ⟨c0, l, hc0, rfl⟩ := hk.calls i c hc
  exact h i c0 hc0

theorem Discovery.limited_kept {σ : Type} (K : CallBacks Ctx Fun Val Val σ) (N : Nat) :
    Kept K fun M _ => M.Limited N where
  onNewDirect M s C F I h := h.kept (.createCallNode C F I)
  external M s C F I h := h.kept (.createCallNode C F I)
  markAsExt M s id h := h.kept (.markAsExtFunction id)
  onNewInDirect M s C target I _ h := by
    intro i c hc
    replace hc : (M.nodes ++ [.inDirect ⟨C, I, target, [], []⟩])[i]? = some (.inDirect c) := hc
    rcases Nat.lt_or_ge i M.nodes.length with hlt | hge
    · rw [List.getElem?_append_left hlt] at hc
      exact h i c hc
    · rw [List.getElem?_append_right hge] at hc
      cases List.mem_singleton.mp (List.mem_of_getElem? hc)
      exact Nat.zero_le N
  onNewEdge M s e h := h.kept (.insertEdge e)
  resolved M s id c node hc h := h.kept (.setResolved hc _)

namespace Solving

/-- a call that has reached the limit is not resolved -/
theorem resolveTarget_limit {s s' : Solving Ctx Fun Val} {target : Fun} {id : CallNodeID}
    {c : InDirectCallSite Ctx Fun Val Val} (hc : s.disc.module.nodes[id]? = some (.inDirect c))
    (h : resolveTarget P hlay T L MaxIndirectTarget n target s id = some s') :
    s' = s ∨ c.targets.length < MaxIndirectTarget := by
  by_cases hlt : c.targets.length < MaxIndirectTarget
  · exact .inr hlt
  · left
    unfold resolveTarget at h
    rw [hc] at h
    obtain ⟨ok, -, h⟩ := Option.bind_eq_some_iff.mp h
    have hno : s.disc.resolvedTo MaxIndirectTarget id target = (s.disc, false) := by
      unfold Discovery.resolvedTo
      rw [hc]
      exact if_pos (.inl (Nat.le_of_not_lt hlt))
    cases ok with
    | false => exact (Option.some.inj h).symm
    | true =>
      rw [hno] at h
      exact (Option.some.inj h).symm

/-- what the loop over the calls keeps, `resolveFunPtrs` keeps -/
theorem resolveFunPtrs_keeps {I : Solving Ctx Fun Val → Prop} {s s' : Solving Ctx Fun Val}
    (hstep : ∀ s id target s', I s →
      resolveTarget P hlay T L MaxIndirectTarget n target s id = some s' → I s')
    (hs : I { s with changed := false })
    (h : s.resolveFunPtrs P hlay T L w MaxIndirectTarget n = some s') :
    ∃ t b, I t ∧ t.disc.data = .ok b ∧ s' = t.setCore b { b.core with updatedFunPtrs := ∅ } := by
  have hfold : ∀ {α : Type} {g : Solving Ctx Fun Val → α → Option (Solving Ctx Fun Val)} {l : List α}
      {s s' : Solving Ctx Fun Val}, (∀ s a s', I s → g s a = some s' → I s') → I s →
      l.foldlM g s = some s' → I s' := fun hg hs h =>
    (foldlM_all (I := I) (Q := fun _ _ => True) (fun s a _ t hs ht => ⟨hg s a t hs ht, trivial⟩)
      (fun _ _ _ _ _ _ _ h => h) hs h).1
  have hobject : ∀ funPtrNode s x s', I s →
      resolveObject P hlay T L w MaxIndirectTarget n funPtrNode s x = some s' → I s' := by
    intro funPtrNode s x s' hs h
    unfold resolveObject at h
    split at h
    · cases h
    · split at h
      · cases h
        exact hs
      · split at h
        · cases h
          exact hs
        · exact hfold (fun s id s' hs h => hstep s id _ s' hs h) hs h
  have hptr : ∀ s q s', I s → resolvePtr P hlay T L w MaxIndirectTarget n s q = some s' → I s' := by
    intro s q s' hs h
    unfold resolvePtr at h
    split at h
    · cases h
    · dsimp only at h
      split at h
      · exact hfold (hobject _) hs h
      · cases h
  unfold resolveFunPtrs at h
  split at h
  · cases h
  · obtain ⟨t, ht, h⟩ := Option.bind_eq_some_iff.mp h
    have hI : I t := hfold hptr hs ht
    split at h
    · cases h
    · rename_i b hb
      cases h
      exact ⟨t, b, hI, hb, rfl⟩

/-- what a round keeps -/
structure Counted (P : Program Fun Val Ty) (hlay : P.Layout) (T : CtxDomain Ctx Val)
    (L : LangModel Fun Val Ty) (MaxIndirectTarget : Nat) (D : Finset Ctx) (E : Finset Val) (main : Fun)
    (s : Solving Ctx Fun Val) : Prop where
  traversed : Discovery.Traversed (P.callSites hlay) T (Builder.callBacks P T L) (fun _ _ _ => True)
    (fun M _ => M.Within D E) ⟨T.getInitialCtx, main, none, false⟩ s.resolved [] s.disc
  queue : s.disc.queue = []
  limited : s.disc.module.Limited MaxIndirectTarget

namespace Counted

variable {D : Finset Ctx} {E : Finset Val} {main : Fun} {s s' : Solving Ctx Fun Val}

theorem start (hT : T.Within E D)
    (hE : ∀ F, ∀ I ∈ P.insts F, (P.instr I).callInst.isSome = true → I ∈ E)
    {b₀ : Builder Ctx Fun Val} {R : Discovery Ctx Fun Val Val (Except Abort (Builder Ctx Fun Val))}
    (hR : Discovery.buildInitCallGraph (P.callSites hlay) T (Builder.callBacks P T L) n main (.ok b₀) =
      some R) : Counted P hlay T L MaxIndirectTarget D E main ⟨R, [], true⟩ := by
  have hcalls : ∀ F, ∀ I ∈ (P.callSites hlay).calls F, I ∈ E := fun F I hI =>
    hE F I (List.mem_of_mem_filter hI) (List.mem_filter.mp hI).2
  obtain ⟨ht, hq⟩ := Discovery.Traversed.buildInitCallGraph (Discovery.follows_within hT hcalls)
    (fun _ i n hn => by
      cases i with
      | zero =>
        cases hn
        exact hT.initial
      | succ i => cases hn) hR
  refine ⟨ht, hq, (Discovery.limited_kept _ MaxIndirectTarget).buildInitCallGraph ?_ hR⟩
  intro i c hc
  cases hc

/-- a call that is resolved has one target more -/
theorem resolveTarget (hT : T.Within E D)
    (hE : ∀ F, ∀ I ∈ P.insts F, (P.instr I).callInst.isSome = true → I ∈ E)
    (h : Counted P hlay T L MaxIndirectTarget D E main s) {target : Fun} {id : CallNodeID}
    (hr : Solving.resolveTarget P hlay T L MaxIndirectTarget n target s id = some s') :
    Counted P hlay T L MaxIndirectTarget D E main s' ∧
      (s' = s ∨ s'.disc.module.targetNum = s.disc.module.targetNum + 1) := by
  have hcalls : ∀ F, ∀ I ∈ (P.callSites hlay).calls F, I ∈ E := fun F I hI =>
    hE F I (List.mem_of_mem_filter hI) (List.mem_filter.mp hI).2
  have hK := Discovery.follows_within (K := Builder.callBacks P T L) (A := fun _ _ _ => True) hT hcalls
  obtain ⟨c, hc, ⟨rfl, -⟩ | ⟨R, b, hR, -, hs'⟩⟩ := resolveTarget_cases hr
  · exact ⟨h, .inl rfl⟩
  rcases resolveTarget_limit hc hr with rfl | hlt
  · exact ⟨h, .inl rfl⟩
  subst hs'
  -- the call with the new target, before it is resolved
  let c' := { c with targets := c.targets ++ [target] }
  let M := s.disc.module.addTarget id c target
  have hsame : c.Same c' := ⟨rfl, rfl, rfl⟩
  have hlen : c'.targets.length = c.targets.length + 1 := List.length_append
  have hlimited : M.Limited MaxIndirectTarget := by
    intro i d hd
    rcases CtxModule.addTarget_cases hd with ⟨-, rfl⟩ | ⟨-, hd⟩
    · exact hlen.trans_le hlt
    · exact h.limited i d hd
  have hnum : M.targetNum = s.disc.module.targetNum + 1 := CtxModule.targetNum_set hc hlen rfl
  obtain ⟨ht, hq⟩ := (h.traversed.setCall hK hc hsame).resolveCallTo hK h.queue
    (CtxModule.setCall_self hc) trivial hR
  exact ⟨⟨ht, hq, (Discovery.limited_kept _ _).resolveCallTo hlimited hR⟩,
    .inr ((Discovery.targetNum_kept _ _).resolveCallTo hnum hR)⟩

theorem setCore (h : Counted P hlay T L MaxIndirectTarget D E main s) (b : Builder Ctx Fun Val)
    (c : Core (FSObject Ctx Val) (Pointer Ctx Val)) :
    Counted P hlay T L MaxIndirectTarget D E main (s.setCore b c) := by
  obtain ⟨⟨hB, hJ, hentry, hcalled, hedge, hresolved⟩, hq, hl⟩ := h
  exact ⟨⟨⟨hB.find, hB.nodup, hB.body, hB.started, hB.bound⟩, hJ, hentry, hcalled, hedge, hresolved⟩, hq,
    hl⟩

/-- a round after which the loop goes on has given a call a target -/
theorem resolveFunPtrs (hT : T.Within E D)
    (hE : ∀ F, ∀ I ∈ P.insts F, (P.instr I).callInst.isSome = true → I ∈ E)
    (h : Counted P hlay T L MaxIndirectTarget D E main s)
    (hr : s.resolveFunPtrs P hlay T L w MaxIndirectTarget n = some s') :
    Counted P hlay T L MaxIndirectTarget D E main s' ∧
      (s'.changed = true → s.disc.module.targetNum < s'.disc.module.targetNum) := by
  obtain ⟨t, b, ⟨ht, -, hlt⟩, -, rfl⟩ := resolveFunPtrs_keeps
    (I := fun t => Counted P hlay T L MaxIndirectTarget D E main t ∧
      s.disc.module.targetNum ≤ t.disc.module.targetNum ∧
      (t.changed = true → s.disc.module.targetNum < t.disc.module.targetNum))
    (fun t id target t' ⟨ht, hle, hlt⟩ ht' => by
      obtain ⟨hcounted, rfl | hnum⟩ := ht.resolveTarget hT hE ht'
      · exact ⟨hcounted, hle, hlt⟩
      · exact ⟨hcounted, by omega, fun _ => by omega⟩)
    ⟨⟨h.traversed, h.queue, h.limited⟩, le_rfl, fun hch => by cases hch⟩ hr
  exact ⟨ht.setCore b _, hlt⟩

end Counted

end Solving

namespace SolverBase

variable {Mem : MemModel (FSObject Ctx Val) (Pointer Ctx Val)} {ε : Type} {S : Subclass Mem w ε}
  {D : Finset Ctx} {E : Finset Val} {main : Fun} {b₀ : Builder Ctx Fun Val}

end SolverBase

end

end AserPTA
