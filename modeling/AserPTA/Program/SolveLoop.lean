import AserPTA.Program.ResolveFunPtrs
import AserPTA.Solver.Subclass

/-!
# The call graph is closed where nothing is overlooked

When a call is attached to the node of its value, nothing is noted.  So a function that the node points
to already is overlooked, unless the set grows once more or the node is still to come in the same round.
The same holds for a call that is attached to a node that was merged before.

* `AttachOk`       no call of a turn is attached where a function is overlooked;
* `Solve`          the states of the loop of `solve`;
* `Waiting`        the invariant: a function that a call may call is among its targets, or the pointer
                   is still to come;
* `Solve.callGraph_closed`   the closure of the call graph;
* `SolverBase.solveRound`, `checkFine`   a round with a solver, and a test that nothing is lost in it;
* `not_closed_cast`   a call that is overlooked.
-/

namespace AserPTA

open ConsGraph AserPTA.Core Loop Relation

variable {Ctx Fun Val Ty : Type}

/-- new nodes and edges do not change what an old node points to -/
theorem Core.Without.frame {Obj Val : Type} {F : Obj → Prop} {c c' : Core Obj Val} {G : NodeID → Prop}
    {r : NodeID} (h : c.Without F r) (hc : c.Shape G) (hf : Core.Frame c c')
    (hr : r < c.graph.nodeNum) : c'.Without F r := by
  intro x hx o ho
  rw [hf.pts r hr] at hx
  rw [hf.kind x (hc.pts_obj r x hx).1] at ho
  exact h x hx o ho

section
variable [DecidableEq Ctx] [DecidableEq Fun] [DecidableEq Val] [DecidableEq Ty]
variable (P : Program Fun Val Ty) (hlay : P.Layout) (T : CtxDomain Ctx Val)
  (L : LangModel Fun Val Ty) (w : Walk) (MaxIndirectTarget : Nat)

/-- A call that is made in the turn of the pointer `q` stands at a node that was not there before the
turn, or at one that is not merged, is not the one whose calls are being walked, and points to no function
that the call may call, unless the node is that of a pointer still to come. -/
def AttachOk (s : Solving Ctx Fun Val) (q : NodeID) (rest : List NodeID)
    (s' : Solving Ctx Fun Val) : Prop :=
  ∀ b, s.disc.data = .ok b → ∀ id c V p, s.disc.module.nodes.length ≤ id →
    s'.disc.module.nodes[id]? = some (.inDirect c) → c.getValue P = some V →
    Builder.getPtrNodeOrNull P T b c.context V = some p →
    b.core.graph.superOf p = none ∧ p ≠ b.core.graph.getSuperNode q ∧
      (b.core.Without (Callable P L c) p ∨ ∃ q' ∈ rest, b.core.graph.getSuperNode q' = p)

/-- every turn of the round is such -/
def RoundOk (n : Nat) (s : Solving Ctx Fun Val) : Prop :=
  ∀ b, s.disc.data = .ok b →
    FoldMOk (AttachOk P T L) (Solving.resolvePtr P hlay T L w MaxIndirectTarget n)
      (bits b.core.updatedFunPtrs) { s with changed := false }

/-- The states where a round of the loop of `solve` begins or ends.  `solves` are the steps of the
solver, and `resolves` is a condition on the rounds of `resolveFunPtrs`. -/
inductive Solve
    (solves : Core (FSObject Ctx Val) (Pointer Ctx Val) → Core (FSObject Ctx Val) (Pointer Ctx Val) → Prop)
    (resolves : Nat → Solving Ctx Fun Val → Prop) : Solving Ctx Fun Val → Prop where
  | start {b : Builder Ctx Fun Val} {n : Nat} {entryFun : Fun}
      {R : Discovery Ctx Fun Val Val (Except Abort (Builder Ctx Fun Val))} :
      Builder.Globals P T b →
      Discovery.buildInitCallGraph (P.callSites hlay) T (Builder.callBacks P T L) n entryFun (.ok b) =
        some R → Solve solves resolves ⟨R, [], true⟩
  | round {s s' : Solving Ctx Fun Val} {b : Builder Ctx Fun Val}
      {c : Core (FSObject Ctx Val) (Pointer Ctx Val)} (n : Nat) : Solve solves resolves s →
      s.changed = true → s.disc.data = .ok b → ReflTransGen solves b.core c →
      resolves n (s.setCore b c) →
      (s.setCore b c).resolveFunPtrs P hlay T L w MaxIndirectTarget n = some s' →
      Solve solves resolves s'

/-- Every call stands at the node of its value.  A function it may call is among its targets, or the
node is one of `W`. -/
structure Waiting (W : NodeID → Prop) (M : CtxModule Ctx Fun Val Val) (b : Builder Ctx Fun Val) :
    Prop where
  placed : Builder.Placed P T b
  calls : ∀ id c, M.nodes[id]? = some (.inDirect c) → ∃ V p, c.getValue P = some V ∧
    Builder.getPtrNodeOrNull P T b c.context V = some p ∧ p < b.core.graph.nodeNum ∧
    id ∈ b.core.graph.indirect (b.core.graph.getSuperNode p) ∧
    (b.core.Without (Unresolved P L MaxIndirectTarget c) (b.core.graph.getSuperNode p) ∨
      W (b.core.graph.getSuperNode p))

end

section
variable [DecidableEq Val] [DecidableEq Ty]
variable {P : Program Fun Val Ty} {hlay : P.Layout} {T : CtxDomain Ctx Val}
  {L : LangModel Fun Val Ty} {w : Walk} {MaxIndirectTarget n : Nat}
  {M : CtxModule Ctx Fun Val Val} {b : Builder Ctx Fun Val} {W W' : NodeID → Prop}

omit [DecidableEq Val] in
theorem Unresolved.callable {c : InDirectCallSite Ctx Fun Val Val} {o : FSObject Ctx Val}
    (h : Unresolved P L MaxIndirectTarget c o) : Callable P L c o := by
  obtain ⟨F, hF, hcomp, -, -⟩ := h
  exact ⟨F, hF, hcomp⟩

namespace Waiting

theorem mono (h : Waiting P T L MaxIndirectTarget W M b) (hW : ∀ r, W r → W' r) :
    Waiting P T L MaxIndirectTarget W' M b := by
  refine ⟨h.placed, fun id c hc => ?_⟩
  obtain ⟨V, p, hV, hget, hp, hid, hw⟩ := h.calls id c hc
  exact ⟨V, p, hV, hget, hp, hid, hw.imp_right (hW _)⟩

/-- the initial call graph: no pointer points to anything -/
theorem initial {b₀ : Builder Ctx Fun Val} (hb₀ : b₀.core.Unsolved)
    (h : Grown P T {} b₀ M b) : Waiting P T L MaxIndirectTarget (fun _ => False) M b := by
  have hun := hb₀.frame h.frame.toFrame
  refine ⟨h.placed, fun id c hc => ?_⟩
  obtain ⟨V, p, hV, hget, hp, hid⟩ := h.new id (Nat.zero_le _) c hc
  have hrep : b.core.graph.getSuperNode p = p := getSuperNode_of_none (hun.superOf p hp)
  obtain ⟨-, C, hk⟩ := h.placed.lookup hget
  refine ⟨V, p, hV, hget, hp, hrep.symm ▸ hid, .inl fun x hx => ?_⟩
  rw [hrep, hun.pts p hp _ hk] at hx
  cases hx

variable [DecidableEq Ctx]

/-- a run of the solver: the pointers that have grown are noted -/
theorem solve {Mem : MemModel (FSObject Ctx Val) (Pointer Ctx Val)} (hM : KeepsBlock Mem)
    (h : Waiting P T L MaxIndirectTarget (fun _ => False) M b)
    {c : Core (FSObject Ctx Val) (Pointer Ctx Val)}
    (hs : ReflTransGen (fun c c' => Step Mem w c c' ∧
      InsertOk (fun o => (P.asFunction o.value).isSome = true) c c') b.core c) :
    Waiting P T L MaxIndirectTarget c.Noted M { b with core := c } := by
  have hplaced : Builder.Placed P T { b with core := c } := by
    induction hs with
    | refl => exact h.placed
    | tail _ hs ih => exact ih.step hM hs.1
  refine ⟨hplaced, fun id cs hcs => ?_⟩
  obtain ⟨V, p, hV, hget, hp, hid, hw⟩ := h.calls id cs hcs
  have hwatched : Watched (Unresolved P L MaxIndirectTarget cs) b.core p id :=
    ⟨hp, hid, .inl (hw.resolve_right not_false)⟩
  have hok : ∀ o, Unresolved P L MaxIndirectTarget cs o → (P.asFunction o.value).isSome = true := by
    rintro o ⟨F, hF, -⟩
    rw [hF]
    rfl
  have hrun := hwatched.run (M := Mem) (w := w) h.placed.shape (ReflTransGen.mono
    (fun _ _ hstep => ⟨hstep.1, hstep.2.mono hok⟩) _ _ hs)
  exact ⟨V, p, hV, hget, hrun.lt, hrun.stands, hrun.waits⟩

variable [DecidableEq Fun] {s s' : Solving Ctx Fun Val}

/-- the turn of a pointer: it need not come again -/
theorem turn (hP : P.Canonical) {q : NodeID} {l : List NodeID} (hb : s.disc.data = .ok b)
    (h : Waiting P T L MaxIndirectTarget (fun r => ∃ q' ∈ q :: l, b.core.graph.getSuperNode q' = r)
      s.disc.module b) (hlog : s.disc.module.Logged s.resolved)
    (hr : s.resolvePtr P hlay T L w MaxIndirectTarget n q = some s')
    (hok : AttachOk P T L s q l s') :
    ∃ b', s'.disc.data = .ok b' ∧ Waiting P T L MaxIndirectTarget
      (fun r => ∃ q' ∈ l, b'.core.graph.getSuperNode q' = r) s'.disc.module b' ∧
      s'.disc.module.Logged s'.resolved := by
  obtain ⟨⟨⟨b', hb', hg⟩, hlog'⟩, hdone⟩ :=
    (Solving.Going.refl hb h.placed hlog).resolvePtr hP hr
  have hinv := h.placed.shape.inv
  have hrep := hg.frame.toFrame.getSuperNode hinv hg.placed.shape.inv
  have hwo : ∀ {F : FSObject Ctx Val → Prop} {r : NodeID}, r < b.core.graph.nodeNum →
      b.core.Without F r → b'.core.Without F r := fun hr hw =>
    hw.frame h.placed.shape hg.frame.toFrame hr
  refine ⟨b', hb', ⟨hg.placed, fun id c hc => ?_⟩, hlog'⟩
  rcases Nat.lt_or_ge id s.disc.module.nodes.length with hlt | hge
  · -- a call that was there
    obtain ⟨c₀, hc₀, hbefore⟩ := hg.old id hlt c hc
    obtain ⟨V, p, hV, hget, hp, hid, hw⟩ := h.calls id c₀ hc₀
    have hrlt := hinv.getSuperNode_lt hp
    have hget' := hg.frame.lookup hget
    rw [← hbefore.context] at hget'
    refine ⟨V, p, (hbefore.getValue P).trans hV, hget', hp.trans_le hg.frame.le, ?_, ?_⟩ <;>
      rw [hrep]
    · exact hg.frame.indirect _ hrlt hid
    · rcases hw with hw | ⟨q', hq', hqr⟩
      · exact .inl (hwo hrlt fun x hx o ho hu => hw x hx o ho (hu.before hbefore))
      · rcases List.mem_cons.mp hq' with rfl | hq'
        · left
          refine hwo hrlt fun x hx o ho hu => ?_
          obtain ⟨F, hF, hcomp, hnot, hlen⟩ := hu
          rcases hdone b hb id hlt (hqr ▸ hid) x (hqr ▸ hx) o F ho hF c hc hcomp with hmem | hmax
          · exact hnot hmem
          · exact Nat.not_lt_of_le hmax hlen
        · exact .inr ⟨q', hq', (hrep q').trans hqr⟩
  · -- a call that is made in this turn
    obtain ⟨V, p, hV, hget, hp, hid⟩ := hg.new id hge c hc
    refine ⟨V, p, hV, hget, hp, ?_⟩
    rcases Nat.lt_or_ge p b.core.graph.nodeNum with hold | hnew
    · obtain ⟨hsup, -, hcall⟩ := hok b hb id c V p hge hc hV (hg.frame.lookup_old hget hold)
      have hself : b'.core.graph.getSuperNode p = p := (hrep p).trans (getSuperNode_of_none hsup)
      rw [hself]
      refine ⟨hid, ?_⟩
      rcases hcall with hcall | ⟨q', hq', hqp⟩
      · exact .inl (hwo hold fun x hx o ho hu => hcall x hx o ho hu.callable)
      · exact .inr ⟨q', hq', (hrep q').trans hqp⟩
    · have hself : b'.core.graph.getSuperNode p = p :=
        getSuperNode_of_none (hg.frame.superOf_new p hnew hp)
      obtain ⟨-, C, hk⟩ := hg.placed.lookup hget
      rw [hself]
      refine ⟨hid, .inl fun x hx => ?_⟩
      rw [hg.frame.pts_new p hnew hp _ hk] at hx
      cases hx

/-- a round of `resolveFunPtrs` -/
theorem resolveFunPtrs (hP : P.Canonical) (hb : s.disc.data = .ok b)
    (h : Waiting P T L MaxIndirectTarget b.core.Noted s.disc.module b)
    (hlog : s.disc.module.Logged s.resolved)
    (hr : s.resolveFunPtrs P hlay T L w MaxIndirectTarget n = some s')
    (hok : RoundOk P hlay T L w MaxIndirectTarget n s) :
    ∃ b', s'.disc.data = .ok b' ∧
      Waiting P T L MaxIndirectTarget (fun _ => False) s'.disc.module b' ∧
      s'.disc.module.Logged s'.resolved := by
  unfold Solving.resolveFunPtrs at hr
  rw [hb] at hr
  obtain ⟨t, ht, hr⟩ := Option.bind_eq_some_iff.mp hr
  have hstart : Waiting P T L MaxIndirectTarget
      (fun r => ∃ q ∈ bits b.core.updatedFunPtrs, b.core.graph.getSuperNode q = r)
      s.disc.module b := h.mono fun r ⟨q, hq, hqr⟩ => ⟨q, (mem_bits _ _).mpr hq, hqr⟩
  obtain ⟨b1, hb1, hw, hlog1⟩ := foldlM_ok_rest
    (I := fun t l => ∃ b1, t.disc.data = .ok b1 ∧ Waiting P T L MaxIndirectTarget
      (fun r => ∃ q ∈ l, b1.core.graph.getSuperNode q = r) t.disc.module b1 ∧
      t.disc.module.Logged t.resolved)
    (fun t q l t' ⟨_, hb1, hw, hlog1⟩ ht' hat => hw.turn hP hb1 hlog1 ht' hat)
    (hok b hb) ⟨b, hb, hstart, hlog⟩ ht
  rw [hb1] at hr
  cases hr
  refine ⟨_, rfl, ⟨hw.placed.clearFunPtrs, fun id c hc => ?_⟩, hlog1⟩
  obtain ⟨V, p, hV, hget, hp, hid, hcase⟩ := hw.calls id c hc
  refine ⟨V, p, hV, hget, hp, hid, .inl ?_⟩
  rcases hcase with hcase | ⟨q, hq, -⟩
  · exact hcase
  · cases hq

end Waiting

end

/-! ## the loop of solve -/

section
variable [DecidableEq Ctx] [DecidableEq Fun] [DecidableEq Val] [DecidableEq Ty]
variable {P : Program Fun Val Ty} {hlay : P.Layout} {T : CtxDomain Ctx Val}
  {L : LangModel Fun Val Ty} {w : Walk} {MaxIndirectTarget : Nat}
  {Mem : MemModel (FSObject Ctx Val) (Pointer Ctx Val)} {s s' : Solving Ctx Fun Val}

/-- A call below the limit has every function that its pointer knows and that its check does not refuse
among its targets, and `resolveCallTo` has been run for it. -/
def Solving.Closed (P : Program Fun Val Ty) (T : CtxDomain Ctx Val) (L : LangModel Fun Val Ty)
    (MaxIndirectTarget : Nat) (s : Solving Ctx Fun Val) : Prop :=
  ∀ b, s.disc.data = .ok b → ∀ id c V p, s.disc.module.nodes[id]? = some (.inDirect c) →
    c.getValue P = some V → Builder.getPtrNodeOrNull P T b c.context V = some p →
    c.targets.length < MaxIndirectTarget → ∀ x ∈ b.core.pts (b.core.graph.getSuperNode p), ∀ o F,
    b.core.graph.kind x = .objNode o → P.asFunction o.value = some F →
    c.compatible P L F ≠ some false → F ∈ c.targets ∧ (id, F) ∈ s.resolved

namespace Solve

theorem waiting (hP : P.Canonical) (hM : KeepsBlock Mem)
    (h : Solve P hlay T L w MaxIndirectTarget (fun c c' => Step Mem w c c' ∧
      InsertOk (fun o => (P.asFunction o.value).isSome = true) c c')
      (RoundOk P hlay T L w MaxIndirectTarget) s) :
    (∀ b, s.disc.data = .ok b →
      Waiting P T L MaxIndirectTarget (fun _ => False) s.disc.module b) ∧
    s.disc.module.Logged s.resolved := by
  induction h with
  | @start b₀ n entryFun R hglob hrun =>
    have hgrown := (Grown.callBacks hP L {} b₀).buildInitCallGraph (fun b1 hb1 => by
      cases hb1
      exact Grown.refl hglob.placed) hrun
    refine ⟨fun b hb => .initial hglob.unsolved (hgrown b hb), ?_⟩
    exact (CtxModule.logged_kept _ []).buildInitCallGraph (fun id c hc => by cases hc) hrun
  | @round s s' b c n _ _ hb hs hok hr ih =>
    have hsolved := (ih.1 b hb).solve hM hs
    have hlog : (s.setCore b c).disc.module.Logged (s.setCore b c).resolved := ih.2
    obtain ⟨b', hb', hw, hlog⟩ := Waiting.resolveFunPtrs hP (s := s.setCore b c) rfl hsolved hlog hr hok
    refine ⟨fun b hb => ?_, hlog⟩
    rw [hb'] at hb
    cases hb
    exact hw

/-- If in every round no call is attached where a function is overlooked, and no function is inserted
past `processCopy`, then the call graph is closed after every round. -/
theorem callGraph_closed (hP : P.Canonical) (hM : KeepsBlock Mem)
    (h : Solve P hlay T L w MaxIndirectTarget (fun c c' => Step Mem w c c' ∧
      InsertOk (fun o => (P.asFunction o.value).isSome = true) c c')
      (RoundOk P hlay T L w MaxIndirectTarget) s) : s.Closed P T L MaxIndirectTarget := by
  obtain ⟨hw, hlog⟩ := h.waiting hP hM
  intro b hb id c V p hc hV hget hmax x hx o F ho hF hcomp
  obtain ⟨V', p', hV', hget', -, -, hno⟩ := (hw b hb).calls id c hc
  rw [hV] at hV'
  cases hV'
  rw [hget] at hget'
  cases hget'
  have hmem : F ∈ c.targets := by
    by_contra hnot
    exact hno.resolve_right not_false x hx o ho ⟨F, hF, hcomp, hnot, hmax⟩
  exact ⟨hmem, hlog id c hc F hmem⟩

/-- the runs of `solve` with `WavePropagation`, where no function is a field of an object -/
theorem ofWave (hP : P.Canonical) (hM : KeepsBlock Mem)
    (hfun : ∀ o gep f, Mem.indexObject o gep = some f → P.asFunction f.value = none)
    (h : Solve P hlay T L w MaxIndirectTarget (WavePropagation.Run Mem w)
      (RoundOk P hlay T L w MaxIndirectTarget) s) :
    Solve P hlay T L w MaxIndirectTarget (fun c c' => Step Mem w c c' ∧
      InsertOk (fun o => (P.asFunction o.value).isSome = true) c c')
      (RoundOk P hlay T L w MaxIndirectTarget) s := by
  induction h with
  | start hglob hrun => exact .start hglob hrun
  | @round s s' b c n hs hch hb hrun hok hr ih =>
    have hp := ((ih.waiting hP hM).1 b hb).placed
    refine .round n ih hch hb ?_ hok hr
    have hsteps : Steps Mem w b.core c := by
      clear hok hr
      induction hrun with
      | refl => exact .refl
      | tail _ hrun ih =>
        have hsh := hp.shape.run ih
        have hpos := (Nat.zero_lt_of_lt hp.null.1).trans_le (hp.shape.name_run ih).1
        exact ih.trans (hrun.steps hsh.typed hpos)
    refine insertOk_run hp.shape hsteps fun o gep f hf => ?_
    rw [hfun o gep f hf]
    exact Bool.false_ne_true

end Solve

end

/-! ## one round with a solver -/

namespace SolverBase

section
variable [DecidableEq Ctx] [DecidableEq Fun] [DecidableEq Val] [DecidableEq Ty] {ε : Type}
variable (P : Program Fun Val Ty) (hlay : P.Layout) (T : CtxDomain Ctx Val) (L : LangModel Fun Val Ty)
  {w : Walk} (MaxIndirectTarget : Nat) {Mem : MemModel (FSObject Ctx Val) (Pointer Ctx Val)}
  (S : Subclass Mem w ε) (n : Nat)

/-- one round: the solver, whose data stay from round to round, and the resolution of function pointers -/
def solveRound (r : Solving Ctx Fun Val × ε) : Option (Solving Ctx Fun Val × ε) :=
  match r.1.disc.data with
  | .error _ => none
  | .ok b => do
    let t ← S.runSolver n ⟨b.core, r.2⟩
    let s ← (r.1.setCore b t.core).resolveFunPtrs P hlay T L w MaxIndirectTarget n
    return (s, t.self)

/-- In the round from `r` on the solver loses nothing, and no call is attached where a function is
overlooked. -/
def Fine (r : Solving Ctx Fun Val × ε) : Prop :=
  ∀ b, r.1.disc.data = .ok b → S.Ok ⟨b.core, r.2⟩ ∧ ∀ t, S.runSolver n ⟨b.core, r.2⟩ = some t →
    RoundOk P hlay T L w MaxIndirectTarget n (r.1.setCore b t.core)

variable {P hlay T L MaxIndirectTarget S n}

/-- such a round is one of `Solve` -/
theorem solveRound_solve
    {solves : Core (FSObject Ctx Val) (Pointer Ctx Val) → Core (FSObject Ctx Val) (Pointer Ctx Val) → Prop}
    {resolves : Nat → Solving Ctx Fun Val → Prop} {r r' : Solving Ctx Fun Val × ε}
    (hS : ∀ s t, S.runSolver n s = some t → solves s.core t.core)
    (h : Solve P hlay T L w MaxIndirectTarget solves resolves r.1) (hch : r.1.changed = true)
    (hr : solveRound P hlay T L MaxIndirectTarget S n r = some r')
    (hres : ∀ b t, r.1.disc.data = .ok b → S.runSolver n ⟨b.core, r.2⟩ = some t →
      resolves n (r.1.setCore b t.core)) :
    Solve P hlay T L w MaxIndirectTarget solves resolves r'.1 := by
  unfold solveRound at hr
  split at hr
  · cases hr
  · rename_i b hb
    obtain ⟨t, ht, hr⟩ := Option.bind_eq_some_iff.mp hr
    obtain ⟨s', hs', hr⟩ := Option.bind_eq_some_iff.mp hr
    cases hr
    exact .round n h hch hb (.single (hS _ t ht)) (hres b t hb ht) hs'

end

/-! ## rounds that are checked -/

section
variable [DecidableEq Ctx] [DecidableEq Fun] [DecidableEq Val] [DecidableEq Ty] {ε : Type}
variable (P : Program Fun Val Ty) (hlay : P.Layout) (T : CtxDomain Ctx Val) (L : LangModel Fun Val Ty)
  (MaxIndirectTarget : Nat) {Mem : MemModel (FSObject Ctx Val) (Pointer Ctx Val)}
  (S : Subclass Mem .ascending ε) (n : Nat)
  (ok : State (FSObject Ctx Val) (Pointer Ctx Val) ε → Bool)

/-- no call of the turn stands at a node that was there before -/
def callsAreFresh (s s' : Solving Ctx Fun Val) : Bool :=
  match s.disc.data with
  | .error _ => true
  | .ok b => (s'.disc.module.nodes.drop s.disc.module.nodes.length).all fun node =>
    match node with
    | .direct _ => true
    | .inDirect c => (c.getValue P).all fun V =>
      decide (Builder.getPtrNodeOrNull P T b c.context V = none)

/-- in the round from `r` on nothing is lost, where `ok` says so of the solver -/
def checkFine (r : Solving Ctx Fun Val × ε) : Bool :=
  match r.1.disc.data with
  | .error _ => true
  | .ok b => ok ⟨b.core, r.2⟩ && (S.runSolver n ⟨b.core, r.2⟩).all fun t => decide
    (FoldMOk (fun s _ _ s' => callsAreFresh P T s s' = true)
      (Solving.resolvePtr P hlay T L .ascending MaxIndirectTarget n) (bits t.core.updatedFunPtrs)
      { r.1.setCore b t.core with changed := false })

variable {P hlay T L MaxIndirectTarget S n ok}

omit [DecidableEq Ctx] [DecidableEq Fun] in
theorem attachOk_of_fresh {s s' : Solving Ctx Fun Val} {q : NodeID} {rest : List NodeID}
    (h : callsAreFresh P T s s' = true) : AttachOk P T L s q rest s' := by
  intro b hb id c V p hid hc hV hget
  unfold callsAreFresh at h
  rw [hb] at h
  have hmem : CallGraphNode.inDirect c ∈
      s'.disc.module.nodes.drop s.disc.module.nodes.length := by
    refine List.mem_of_getElem? (i := id - s.disc.module.nodes.length) ?_
    rw [List.getElem?_drop, Nat.add_sub_cancel' hid]
    exact hc
  have hnone := List.all_eq_true.mp h _ hmem
  dsimp only at hnone
  rw [hV] at hnone
  rw [of_decide_eq_true hnone] at hget
  cases hget

theorem fine_of_checkFine (hok : ∀ s, ok s = true → S.Ok s) {r : Solving Ctx Fun Val × ε}
    (h : checkFine P hlay T L MaxIndirectTarget S n ok r = true) :
    Fine P hlay T L MaxIndirectTarget S n r := by
  intro b hb
  unfold checkFine at h
  rw [hb] at h
  obtain ⟨h1, h2⟩ := Bool.and_eq_true_iff.mp h
  refine ⟨hok _ h1, fun t ht b' hb' => ?_⟩
  cases hb'
  rw [ht] at h2
  exact (of_decide_eq_true h2).mono fun _ _ _ _ => attachOk_of_fresh

end

end SolverBase

/-! ## a call of a function through a cast -/

inductive CastFun where
  | main
  | first
  | second
  deriving DecidableEq

def castInsts : CastFun → List Nat
  | .main => [11, 12]
  | .first => [21, 22, 23, 24]
  | .second => []

/-- `main` (10) calls `first` (20) through a cast (11).  `first` has an alloca (21), a load from it (22),
a cast (23) of `second` (30) and a call (24) of `callee`. -/
def castProgram (callee : Nat) : Program CastFun Nat Bool where
  globals := []
  functions := [.main, .first, .second]
  value F := match F with
    | .main => 10
    | .first => 20
    | .second => 30
  asFunction V := if V = 10 then some .main else if V = 20 then some .first
    else if V = 30 then some .second else none
  isGlobalValue V := decide (V = 10 ∨ V = 20 ∨ V = 30)
  args _ := []
  blocks F := [⟨castInsts F, []⟩]
  instr V := if V = 12 then .call ⟨11, .pointer, [], none⟩ else if V = 21 then .alloca
    else if V = 22 then .load 21 else if V = 24 then .call ⟨callee, .pointer, [], none⟩ else .other
  sig _ := ⟨false, [], false⟩
  isDeclaration _ := false
  isIntrinsic _ := false
  type V := decide (V ≠ 12 ∧ V ≠ 24)
  isPointerTy t := t
  fnPtr _ := true
  canonicalize V := if V = 11 then 20 else if V = 23 then 30 else V
  nullValue := 1
  uniValue := 2

theorem castInsts_unique (F G : CastFun) : F ≠ G → ∀ I ∈ castInsts F, I ∉ castInsts G := by
  cases F <;> cases G <;> decide

theorem castProgram_layout (callee : Nat) : (castProgram callee).Layout := by
  have hinsts : ∀ F, (castProgram callee).insts F = castInsts F := fun F => List.append_nil _
  refine ⟨fun F => ?_, fun {F G I} hF hG => ?_⟩
  · rw [hinsts]
    cases F <;> decide
  · rw [hinsts] at hF hG
    by_contra hne
    exact castInsts_unique F G hne I hF hG

theorem castProgram_instr (callee I : Nat) : I = 12 ∨ I = 21 ∨ I = 22 ∨ I = 24 ∨
    (castProgram callee).instr I = .other := by
  unfold castProgram
  dsimp only
  grind

theorem castProgram_canonical (callee : Nat) : (castProgram callee).Canonical where
  gep I base hI := by
    rcases castProgram_instr callee I with rfl | rfl | rfl | rfl | h
    all_goals first | cases hI | (rw [h] at hI; cases hI)
  load I ptr hI := by
    rcases castProgram_instr callee I with rfl | rfl | rfl | rfl | h
    all_goals first | rfl | (rw [h] at hI; cases hI)
  phi I incoming hI := by
    rcases castProgram_instr callee I with rfl | rfl | rfl | rfl | h
    all_goals first | rfl | (rw [h] at hI; cases hI)
  select I t f hI := by
    rcases castProgram_instr callee I with rfl | rfl | rfl | rfl | h
    all_goals first | rfl | (rw [h] at hI; cases hI)
  call I cs hI := by
    rcases castProgram_instr callee I with rfl | rfl | rfl | rfl | h
    all_goals first | exact fun _ _ => rfl | (rw [h] at hI; cases hI)
  argument F A hA := by cases hA
  function F := by cases F <;> rfl
  gepLocal I hI := by
    rcases castProgram_instr callee I with rfl | rfl | rfl | rfl | h
    all_goals first | cases hI | (rw [h] at hI; cases hI)

def castLang : LangModel CastFun Nat Bool := ⟨fun _ => false, fun _ => false, fun _ => none, true⟩

/-- the initial call graph, before the first round -/
def castStart (callee : Nat) : Option (Solving Unit CastFun Nat × Wave.Caches) :=
  let P := castProgram callee
  match (Builder.initial P fieldCtx).bind (Builder.addGlobals P fieldCtx) with
  | .error _ => none
  | .ok b =>
    (Discovery.buildInitCallGraph (P.callSites (castProgram_layout callee)) fieldCtx
      (Builder.callBacks P fieldCtx castLang) 5 .main (.ok b)).map fun R => (⟨R, [], true⟩, {})

def castRound (callee : Nat) :
    Solving Unit CastFun Nat × Wave.Caches → Option (Solving Unit CastFun Nat × Wave.Caches) :=
  SolverBase.solveRound (castProgram callee) (castProgram_layout callee) fieldCtx castLang 100
    (.wavePropagation fieldMem .ascending) 5

/-- no call of the round stands at a node that was there before -/
def castRoundOk (callee : Nat) (r : Solving Unit CastFun Nat × Wave.Caches) : Bool :=
  SolverBase.checkFine (castProgram callee) (castProgram_layout callee) fieldCtx castLang 100
    (.wavePropagation fieldMem .ascending) 5 (fun _ => true) r

/-- the states of a run with `WavePropagation` -/
abbrev CastSolve (callee : Nat) (resolves : Nat → Solving Unit CastFun Nat → Prop) :
    Solving Unit CastFun Nat → Prop :=
  Solve (castProgram callee) (castProgram_layout callee) fieldCtx castLang .ascending 100
    (WavePropagation.Run fieldMem .ascending) resolves

theorem castStart_solve {callee : Nat} {resolves : Nat → Solving Unit CastFun Nat → Prop}
    {r : Solving Unit CastFun Nat × Wave.Caches} (h : castStart callee = some r) :
    CastSolve callee resolves r.1 ∧ r.1.changed = true := by
  unfold castStart at h
  dsimp only at h
  split at h
  · cases h
  · rename_i b hb
    obtain ⟨R, hR, rfl⟩ := Option.map_eq_some_iff.mp h
    obtain ⟨b0, h0, h1⟩ := Builder.bind_ok hb
    exact ⟨.start (.start h0 h1) hR, rfl⟩

theorem CastSolve.round {callee : Nat} {resolves : Nat → Solving Unit CastFun Nat → Prop}
    {r r' : Solving Unit CastFun Nat × Wave.Caches} (h : CastSolve callee resolves r.1)
    (hch : r.1.changed = true) (hr : castRound callee r = some r')
    (hres : ∀ b t, r.1.disc.data = .ok b →
      WavePropagation.runSolver fieldMem .ascending 5 ⟨b.core, r.2⟩ = some t →
      resolves 5 (r.1.setCore b t.core)) : CastSolve callee resolves r'.1 :=
  SolverBase.solveRound_solve (S := Subclass.wavePropagation fieldMem .ascending)
    (fun s t ht => ⟨5, s.self, t, ht, rfl⟩) h hch hr hres

theorem CastSolve.round_ok {callee : Nat} {r r' : Solving Unit CastFun Nat × Wave.Caches}
    (h : CastSolve callee (RoundOk (castProgram callee) (castProgram_layout callee) fieldCtx castLang
      .ascending 100) r.1) (hch : r.1.changed = true) (hok : castRoundOk callee r = true)
    (hr : castRound callee r = some r') :
    CastSolve callee (RoundOk (castProgram callee) (castProgram_layout callee) fieldCtx castLang
      .ascending 100) r'.1 :=
  h.round hch hr fun b t hb ht => (SolverBase.fine_of_checkFine (fun _ _ => trivial) hok b hb).2 t ht

/-- the builder and the call at a place -/
def Solving.callAt (s : Solving Unit CastFun Nat) (id : CallNodeID) :
    Option (Builder Unit CastFun Nat × InDirectCallSite Unit CastFun Nat Nat) :=
  match s.disc.data, s.disc.module.nodes[id]? with
  | .ok b, some (.inDirect c) => some (b, c)
  | _, _ => none

theorem Solving.callAt_some {s : Solving Unit CastFun Nat} {id : CallNodeID}
    {b : Builder Unit CastFun Nat} {c : InDirectCallSite Unit CastFun Nat Nat}
    (h : s.callAt id = some (b, c)) :
    s.disc.data = .ok b ∧ s.disc.module.nodes[id]? = some (.inDirect c) := by
  unfold callAt at h
  split at h
  · rename_i hb hc
    cases h
    exact ⟨hb, hc⟩
  · cases h

/-- The call (3) of `second` is found when `first` is resolved, and it is attached to the node (14) of
`second`, which points to the function already.  Nothing grows in the next round. -/
theorem not_closed_cast : ∃ s, CastSolve 23 (fun _ _ => True) s ∧ s.changed = false ∧
    ¬ s.Closed (castProgram 23) fieldCtx castLang 100 := by
  have hrun : (castStart 23).any (fun r₀ => (castRound 23 r₀).any fun r₁ => r₁.1.changed &&
      (castRound 23 r₁).any fun r₂ => !r₂.1.changed && (r₂.1.callAt 3).any fun (b, c) => decide (
        c.getValue (castProgram 23) = some 23 ∧
        Builder.getPtrNodeOrNull (castProgram 23) fieldCtx b c.context 23 = some 14 ∧
        12 ∈ b.core.pts (b.core.graph.getSuperNode 14) ∧
        b.core.graph.kind 12 = .objNode ⟨(), 30, 0⟩ ∧
        c.compatible (castProgram 23) castLang .second = some true ∧ c.targets = [])) = true := by
    decide +kernel
  obtain ⟨r₀, h₀, hrun⟩ := (Option.any_eq_true _ _).mp hrun
  obtain ⟨r₁, h₁, hrun⟩ := (Option.any_eq_true _ _).mp hrun
  obtain ⟨hch, hrun⟩ := Bool.and_eq_true_iff.mp hrun
  obtain ⟨r₂, h₂, hrun⟩ := (Option.any_eq_true _ _).mp hrun
  obtain ⟨hend, hrun⟩ := Bool.and_eq_true_iff.mp hrun
  obtain ⟨⟨b, c⟩, hcall, hrun⟩ := (Option.any_eq_true _ _).mp hrun
  obtain ⟨hV, hget, hx, ho, hcomp, htargets⟩ := of_decide_eq_true hrun
  obtain ⟨hb, hc⟩ := Solving.callAt_some hcall
  obtain ⟨hs₀, hch₀⟩ : CastSolve 23 (fun _ _ => True) r₀.1 ∧ r₀.1.changed = true :=
    castStart_solve h₀
  have hs₁ := CastSolve.round hs₀ hch₀ h₁ fun _ _ _ _ => trivial
  have hs₂ := CastSolve.round hs₁ hch h₂ fun _ _ _ _ => trivial
  refine ⟨r₂.1, hs₂, by simpa using hend, fun hclosed => ?_⟩
  have hmem := (hclosed b hb 3 c 23 14 hc hV hget (by rw [htargets]; decide) 12 hx _ .second ho rfl
    (by rw [hcomp]; decide)).1
  rw [htargets] at hmem
  cases hmem

theorem callGraph_closed_cast : ∃ s, CastSolve 22 (RoundOk (castProgram 22) (castProgram_layout 22) fieldCtx
      castLang .ascending 100) s ∧ s.changed = false ∧
    s.Closed (castProgram 22) fieldCtx castLang 100 ∧
    ∃ c, s.disc.module.nodes[1]? = some (.inDirect c) ∧ c.targets = [.first] := by
  have hrun : (castStart 22).any (fun r₀ => castRoundOk 22 r₀ && (castRound 22 r₀).any fun r₁ =>
      r₁.1.changed && (castRoundOk 22 r₁ && (castRound 22 r₁).any fun r₂ => !r₂.1.changed &&
        (r₂.1.callAt 1).any fun r => decide (r.2.targets = [.first]))) = true := by
    decide +kernel
  obtain ⟨r₀, h₀, hrun⟩ := (Option.any_eq_true _ _).mp hrun
  obtain ⟨hok₀, hrun⟩ := Bool.and_eq_true_iff.mp hrun
  obtain ⟨r₁, h₁, hrun⟩ := (Option.any_eq_true _ _).mp hrun
  obtain ⟨hch, hrun⟩ := Bool.and_eq_true_iff.mp hrun
  obtain ⟨hok₁, hrun⟩ := Bool.and_eq_true_iff.mp hrun
  obtain ⟨r₂, h₂, hrun⟩ := (Option.any_eq_true _ _).mp hrun
  obtain ⟨hend, hrun⟩ := Bool.and_eq_true_iff.mp hrun
  obtain ⟨⟨b, c⟩, hcall, hrun⟩ := (Option.any_eq_true _ _).mp hrun
  obtain ⟨hs₀, hch₀⟩ : CastSolve 22 (RoundOk (castProgram 22) (castProgram_layout 22) fieldCtx
    castLang .ascending 100) r₀.1 ∧ r₀.1.changed = true := castStart_solve h₀
  have hs₁ := CastSolve.round_ok hs₀ hch₀ hok₀ h₁
  have hs₂ := CastSolve.round_ok hs₁ hch hok₁ h₂
  have hsteps := hs₂.ofWave (castProgram_canonical 22) fieldMem_keepsBlock fun _ _ _ h => (by cases h)
  exact ⟨r₂.1, hs₂, by simpa using hend,
    Solve.callGraph_closed (castProgram_canonical 22) fieldMem_keepsBlock hsteps, c,
    (Solving.callAt_some hcall).2, of_decide_eq_true hrun⟩

end AserPTA
