import AserPTA.Program.Coverage
import AserPTA.Program.SolveLoop

/-!
# The rounds of solve

`solve` runs the solver to the end and then resolves the function pointers that have grown, round by
round, until nothing is resolved.

* `Offered`         the pointer at which a call stands holds a function;
* `resolveFunPtrs_inv`   what each target keeps, the resolution of a round keeps;
* `Solves`          what `solve` relies on of a run of a solver: it takes steps and ends closed;
* `Rounds`          the states of `solve` from the globals on;
* `Rounds.traversed`   the call graph in all of them.
-/

namespace AserPTA

open ConsGraph AserPTA.Core Loop Relation

variable {Ctx Fun Val Ty : Type}

namespace Solving

variable {P : Program Fun Val Ty} {hlay : P.Layout} {T : CtxDomain Ctx Val}
  {L : LangModel Fun Val Ty} {w : Walk} {MaxIndirectTarget n : Nat} {s s' : Solving Ctx Fun Val}

/-- the pointer at which the call `id` stands holds the function -/
def Offered (P : Program Fun Val Ty) (s : Solving Ctx Fun Val) (id : CallNodeID) (target : Fun) : Prop :=
  ∃ b q x o, s.disc.data = .ok b ∧ id ∈ b.core.graph.indirect (b.core.graph.getSuperNode q) ∧
    x ∈ b.core.pts (b.core.graph.getSuperNode q) ∧ b.core.graph.kind x = .objNode o ∧
    P.asFunction o.value = some target

section
variable [DecidableEq Val]

/-- what stands at a pointer and what it holds stays while calls are resolved -/
theorem Going.stays {b : Builder Ctx Fun Val} (hp : Builder.Placed P T b)
    (h : Going P T s.disc.module b s') {q x : NodeID} {o : FSObject Ctx Val}
    (hx : x ∈ b.core.pts (b.core.graph.getSuperNode q)) (ho : b.core.graph.kind x = .objNode o) :
    ∃ b', s'.disc.data = .ok b' ∧ Builder.Placed P T b' ∧
      b'.core.graph.getSuperNode q = b.core.graph.getSuperNode q ∧
      b.core.graph.indirect (b.core.graph.getSuperNode q) ⊆
        b'.core.graph.indirect (b.core.graph.getSuperNode q) ∧
      x ∈ b'.core.pts (b'.core.graph.getSuperNode q) ∧ b'.core.graph.kind x = .objNode o := by
  obtain ⟨⟨b', hb', hg⟩, -⟩ := h
  have hrep := hg.frame.getSuperNode hp.shape.inv hg.placed.shape.inv q
  have hlt := hp.shape.pts_lt _ x hx
  refine ⟨b', hb', hg.placed, hrep, hg.frame.indirect _ hlt, ?_, ?_⟩
  · rw [hrep, hg.frame.pts _ hlt]
    exact hx
  · exact (hg.frame.kind x (hp.shape.pts_obj _ x hx).1).trans ho

variable [DecidableEq Ctx] [DecidableEq Fun] [DecidableEq Ty]

theorem resolveObject_inv (hP : P.Canonical) {I : Solving Ctx Fun Val → Prop}
    (hstep : ∀ s id target s', I s → Offered P s id target →
      resolveTarget P hlay T L MaxIndirectTarget n target s id = some s' → I s')
    {b : Builder Ctx Fun Val} {q x : NodeID} (hb : s.disc.data = .ok b) (hp : Builder.Placed P T b)
    (hlog : s.disc.module.Logged s.resolved)
    (hx : x ∈ b.core.pts (b.core.graph.getSuperNode q)) (hs : I s)
    (h : resolveObject P hlay T L w MaxIndirectTarget n (b.core.graph.getSuperNode q) s x = some s') :
    I s' := by
  unfold resolveObject at h
  rw [hb] at h
  dsimp only at h
  split at h
  · cases h
    exact hs
  · rename_i o ho
    split at h
    · cases h
      exact hs
    · rename_i target htarget
      refine (foldlM_all (I := fun t => I t ∧ Going P T s.disc.module b t) (Q := fun _ _ => True)
        (fun t id hid t' ht ht' => ⟨⟨hstep t id target t' ht.1 ?_ ht', ht.2.resolveTarget hP ht'⟩,
          trivial⟩) (fun _ _ _ _ _ _ _ h => h) ⟨hs, .refl hb hp hlog⟩ h).1.1
      obtain ⟨b', hb', -, hrep, hsub, hx', ho'⟩ := ht.2.stays hp hx ho
      refine ⟨b', q, x, o, hb', ?_, hx', ho', htarget⟩
      rw [hrep]
      exact hsub ((w.mem_walk _ _).mp hid)

theorem resolvePtr_inv (hP : P.Canonical) {I : Solving Ctx Fun Val → Prop}
    (hstep : ∀ s id target s', I s → Offered P s id target →
      resolveTarget P hlay T L MaxIndirectTarget n target s id = some s' → I s')
    {b : Builder Ctx Fun Val} {q : NodeID} (hb : s.disc.data = .ok b) (hp : Builder.Placed P T b)
    (hlog : s.disc.module.Logged s.resolved) (hs : I s)
    (h : resolvePtr P hlay T L w MaxIndirectTarget n s q = some s') : I s' := by
  unfold resolvePtr at h
  rw [hb] at h
  dsimp only at h
  split at h
  · refine (foldlM_all (I := fun t => I t ∧ Going P T s.disc.module b t) (Q := fun _ _ => True)
      (fun t x hx t' ht ht' => ⟨⟨?_, (ht.2.resolveObject hP ht').1⟩, trivial⟩)
      (fun _ _ _ _ _ _ _ h => h) ⟨hs, .refl hb hp hlog⟩ h).1.1
    have hx := (mem_bits _ _).mp hx
    obtain ⟨-, o, ho⟩ := hp.shape.pts_obj _ x hx
    obtain ⟨b', hb', hp', hrep, -, hx', -⟩ := ht.2.stays hp hx ho
    rw [← hrep] at ht'
    exact resolveObject_inv hP hstep hb' hp' ht.2.2 hx' ht.1 ht'
  · cases h

/-- the resolution of a round -/
theorem resolveFunPtrs_inv (hP : P.Canonical) {I : Solving Ctx Fun Val → Prop}
    (hstep : ∀ s id target s', I s → Offered P s id target →
      resolveTarget P hlay T L MaxIndirectTarget n target s id = some s' → I s')
    {b : Builder Ctx Fun Val} (hb : s.disc.data = .ok b) (hp : Builder.Placed P T b)
    (hlog : s.disc.module.Logged s.resolved) (hs : I { s with changed := false })
    (h : s.resolveFunPtrs P hlay T L w MaxIndirectTarget n = some s') :
    ∃ t b', I t ∧ t.disc.data = .ok b' ∧ Builder.Placed P T b' ∧ Builder.Frame b b' ∧
      t.disc.module.Logged t.resolved ∧
      s' = t.setCore b' { b'.core with updatedFunPtrs := ∅ } := by
  unfold resolveFunPtrs at h
  rw [hb] at h
  dsimp only at h
  obtain ⟨t, ht, h⟩ := Option.bind_eq_some_iff.mp h
  have hloop : I t ∧ Going P T s.disc.module b t := by
    refine (foldlM_all (I := fun t => I t ∧ Going P T s.disc.module b t) (Q := fun _ _ => True)
      (fun u q hq u' hu hu' => ⟨⟨?_, (hu.2.resolvePtr hP hu').1⟩, trivial⟩)
      (fun _ _ _ _ _ _ _ h => h) ⟨hs, .refl hb hp hlog⟩ ht).1
    obtain ⟨⟨b', hb', hg⟩, hlog'⟩ := hu.2
    exact resolvePtr_inv hP hstep hb' hg.placed hlog' hu.1 hu'
  obtain ⟨hI, ⟨b', hb', hg⟩, hlog'⟩ := hloop
  rw [hb'] at h
  cases h
  exact ⟨t, b', hI, hb', hg.placed, hg.frame, hlog', rfl⟩

omit [DecidableEq Val] in
theorem resolveTarget_compatible [DecidableEq Val] {target : Fun} {id : CallNodeID}
    {c : InDirectCallSite Ctx Fun Val Val} (hc : s.disc.module.nodes[id]? = some (.inDirect c))
    (h : resolveTarget P hlay T L MaxIndirectTarget n target s id = some s') :
    s' = s ∨ c.compatible P L target ≠ some false := by
  unfold resolveTarget at h
  rw [hc] at h
  obtain ⟨ok, hok, h⟩ := Option.bind_eq_some_iff.mp h
  cases ok with
  | false =>
    cases h
    exact .inl rfl
  | true => exact .inr (by rw [hok]; decide)

end

end Solving

/-! ## rounds -/

section
variable [DecidableEq Ctx] [DecidableEq Fun] [DecidableEq Val] [DecidableEq Ty]

/-- What `solve` relies on of a run of a solver.  An insertion into a points-to set that skips the note
would go unseen by the resolution of calls. -/
structure Solves (P : Program Fun Val Ty) (Mem : MemModel (FSObject Ctx Val) (Pointer Ctx Val))
    (w : Walk) (c c' : Core (FSObject Ctx Val) (Pointer Ctx Val)) : Prop where
  steps : ReflTransGen (fun c c' => Step Mem w c c' ∧
    InsertOk (fun o => (P.asFunction o.value).isSome = true) c c') c c'
  closed : c'.Closed Mem

omit [DecidableEq Fun] [DecidableEq Ty] in
theorem Solves.run {P : Program Fun Val Ty} {Mem : MemModel (FSObject Ctx Val) (Pointer Ctx Val)}
    {w : Walk} {c c' : Core (FSObject Ctx Val) (Pointer Ctx Val)} (h : Solves P Mem w c c') :
    Steps Mem w c c' := by
  obtain ⟨h, -⟩ := h
  induction h with
  | refl => exact .refl
  | tail _ hs ih => exact ih.tail hs.1

/-- the states of `solve` for the entry function `main` and the globals `b₀` -/
inductive Rounds (P : Program Fun Val Ty) (hlay : P.Layout) (T : CtxDomain Ctx Val)
    (L : LangModel Fun Val Ty) (w : Walk) (MaxIndirectTarget : Nat)
    (Mem : MemModel (FSObject Ctx Val) (Pointer Ctx Val)) (main : Fun) (b₀ : Builder Ctx Fun Val) :
    Solving Ctx Fun Val → Prop where
  | start {n : Nat} {R : Discovery Ctx Fun Val Val (Except Abort (Builder Ctx Fun Val))} :
      Discovery.buildInitCallGraph (P.callSites hlay) T (Builder.callBacks P T L) n main (.ok b₀) =
        some R → Rounds P hlay T L w MaxIndirectTarget Mem main b₀ ⟨R, [], true⟩
  | round {s s' : Solving Ctx Fun Val} {b : Builder Ctx Fun Val}
      {c : Core (FSObject Ctx Val) (Pointer Ctx Val)} (n : Nat) :
      Rounds P hlay T L w MaxIndirectTarget Mem main b₀ s → s.changed = true →
      s.disc.data = .ok b → Solves P Mem w b.core c →
      RoundOk P hlay T L w MaxIndirectTarget n (s.setCore b c) →
      (s.setCore b c).resolveFunPtrs P hlay T L w MaxIndirectTarget n = some s' →
      Rounds P hlay T L w MaxIndirectTarget Mem main b₀ s'

variable {P : Program Fun Val Ty} {hlay : P.Layout} {T : CtxDomain Ctx Val}
  {L : LangModel Fun Val Ty} {w : Walk} {MaxIndirectTarget : Nat}
  {Mem : MemModel (FSObject Ctx Val) (Pointer Ctx Val)} {main : Fun} {b₀ : Builder Ctx Fun Val}
  {s s' : Solving Ctx Fun Val}

namespace Rounds

theorem solve (hg : Builder.Globals P T b₀) (h : Rounds P hlay T L w MaxIndirectTarget Mem main b₀ s) :
    Solve P hlay T L w MaxIndirectTarget (fun c c' => Step Mem w c c' ∧
      InsertOk (fun o => (P.asFunction o.value).isSome = true) c c')
      (RoundOk P hlay T L w MaxIndirectTarget) s := by
  induction h with
  | start hR => exact .start hg hR
  | round n _ hch hb hs hok hr ih => exact .round n ih hch hb hs.steps hok hr

/-- every call waits for nothing, and its targets have been resolved -/
theorem waiting (hP : P.Canonical) (hM : KeepsBlock Mem) (hg : Builder.Globals P T b₀)
    (h : Rounds P hlay T L w MaxIndirectTarget Mem main b₀ s) :
    (∀ b, s.disc.data = .ok b →
      Waiting P T L MaxIndirectTarget (fun _ => False) s.disc.module b) ∧
    s.disc.module.Logged s.resolved := (h.solve hg).waiting hP hM

/-- The call graph in every state, with what the traversal, the solver and the offers of targets keep. -/
theorem traversed (hP : P.Canonical) (hM : KeepsBlock Mem) (hg : Builder.Globals P T b₀)
    {A : Ctx → Val → Fun → Prop}
    {J : CtxModule Ctx Fun Val Val → Except Abort (Builder Ctx Fun Val) → Prop}
    (hK : Discovery.Follows (P.callSites hlay) T (Builder.callBacks P T L) A J)
    (hinit : P.hasBody main = true → J (CtxModule.createCallNode {} T.getInitialCtx main none).1
      (Builder.initFunction P T b₀ T.getInitialCtx main))
    (hsolve : ∀ M b c, J M (.ok b) → Steps Mem w b.core c → J M (.ok (b.withCore c)))
    (hclear : ∀ M b, J M (.ok b) → J M (.ok (b.withCore { b.core with updatedFunPtrs := ∅ })))
    (hA : ∀ (s : Solving Ctx Fun Val) id target c, J s.disc.module s.disc.data →
      s.Offered P id target → s.disc.module.nodes[id]? = some (.inDirect c) →
      c.compatible P L target ≠ some false → A c.context c.callSite target)
    (h : Rounds P hlay T L w MaxIndirectTarget Mem main b₀ s) :
    Discovery.Traversed (P.callSites hlay) T (Builder.callBacks P T L) A J
      ⟨T.getInitialCtx, main, none, false⟩ s.resolved [] s.disc ∧ s.disc.queue = [] := by
  induction h with
  | start hR =>
    refine Discovery.Traversed.buildInitCallGraph hK (fun hbody => ?_) hR
    exact hinit hbody
  | @round s s' b c n hs hch hb hc hok hr ih =>
    obtain ⟨ht, hq⟩ := ih
    obtain ⟨hw, hlog⟩ := hs.waiting hP hM hg
    have hp := (hw b hb).placed.steps hM hc.run
    -- the solver changes the graph only
    have hJ := ht.data
    rw [hb] at hJ
    have h1 : Discovery.Traversed (P.callSites hlay) T (Builder.callBacks P T L) A J
        ⟨T.getInitialCtx, main, none, false⟩ s.resolved [] (s.setCore b c).disc :=
      ⟨⟨ht.base.find, ht.base.nodup, ht.base.body, ht.base.started, ht.base.bound⟩,
        hsolve _ b c hJ hc.run, ht.entry, ht.called, ht.edge, ht.resolved⟩
    have hstep : ∀ (s : Solving Ctx Fun Val) id target s',
        (Discovery.Traversed (P.callSites hlay) T (Builder.callBacks P T L) A J
          ⟨T.getInitialCtx, main, none, false⟩ s.resolved [] s.disc ∧ s.disc.queue = []) →
        s.Offered P id target →
        Solving.resolveTarget P hlay T L MaxIndirectTarget n target s id = some s' →
        Discovery.Traversed (P.callSites hlay) T (Builder.callBacks P T L) A J
          ⟨T.getInitialCtx, main, none, false⟩ s'.resolved [] s'.disc ∧ s'.disc.queue = [] := by
      intro s id target s' ⟨hs, hq⟩ hoff hr
      obtain ⟨c, hc, ⟨rfl, -⟩ | ⟨R, b', hR, -, hs'⟩⟩ := Solving.resolveTarget_cases hr
      · exact ⟨hs, hq⟩
      rcases Solving.resolveTarget_compatible hc hr with rfl | hcomp
      · exact ⟨hs, hq⟩
      have hsame : c.Same { c with targets := c.targets ++ [target] } := ⟨rfl, rfl, rfl⟩
      rw [hs']
      exact (hs.setCall hK hc hsame).resolveCallTo hK hq (CtxModule.setCall_self hc)
        (hA s id target c hs.data hoff hc hcomp) hR
    obtain ⟨t, b', ⟨ht', hq'⟩, hb', -, -, -, rfl⟩ := Solving.resolveFunPtrs_inv
      (I := fun s => Discovery.Traversed (P.callSites hlay) T (Builder.callBacks P T L) A J
        ⟨T.getInitialCtx, main, none, false⟩ s.resolved [] s.disc ∧ s.disc.queue = [])
      hP hstep (s := s.setCore b c) rfl hp hlog ⟨h1, hq⟩ hr
    have hJ' := ht'.data
    rw [hb'] at hJ'
    exact ⟨⟨⟨ht'.base.find, ht'.base.nodup, ht'.base.body, ht'.base.started, ht'.base.bound⟩,
      hclear _ b' hJ', ht'.entry, ht'.called, ht'.edge, ht'.resolved⟩, hq'⟩

end Rounds

end

end AserPTA
