import AserPTA.Program.Exact
import AserPTA.Solver.Subclass

/-!
# SolverBase: analyze

`analyze` builds the initial call graph and then runs the solver and resolves function pointers in turn,
until a round resolves nothing.

* `Builder.Grows.enlarges`   what the resolution of calls does to the graph of the solver;
* `solve`, `analyze`         the loop, for any subclass;
* `analyze_rounds`           a run of rounds that lose nothing goes through the states of `Rounds`;
* `analyze_exact`            it ends with exactly what the rules derive;
* `analyze_agree`            two subclasses end with the same call graph and points-to sets.
-/

namespace AserPTA

open ConsGraph AserPTA.Core Loop Relation

variable {Ctx Fun Val Ty : Type}

/-! ## the solver sees that the graph grows -/

namespace Builder

variable {P : Program Fun Val Ty} {T : CtxDomain Ctx Val} {b b' : Builder Ctx Fun Val}

theorem Grows.enlarges (h : Grows b b') (hb : b.core.graph.Inv) (hb' : b'.core.graph.Inv) :
    b.core.Enlarges b'.core where
  le := h.le
  kind := h.kind
  superOf := h.toFrame.superOf_eq hb hb'
  pts := h.pts
  succ := h.succ
  handled := h.handled

section
variable [DecidableEq Ctx] [DecidableEq Fun] [DecidableEq Val]

/-- the callbacks of the call graph only add to the graph -/
theorem grows_callBacks [DecidableEq Ty] (L : LangModel Fun Val Ty) (b₀ : Builder Ctx Fun Val) :
    Discovery.Kept (callBacks P T L) fun _ s => ∀ b, s = .ok b → Grows b₀ b where
  onNewDirect M s C F I hs b hb := by
    unfold callBacks at hb
    dsimp only at hb
    split at hb
    · obtain ⟨b1, h1, hb⟩ := bind_ok hb
      exact (hs b1 h1).trans ((grows_respected P).initFunction hb)
    · exact hs b hb
  external M s C F I hs := hs
  markAsExt M s id hs := hs
  onNewInDirect M s C target I _ hs b hb := by
    unfold callBacks at hb
    dsimp only at hb
    split at hb
    · split at hb
      · obtain ⟨b1, h1, hb⟩ := bind_ok hb
        exact (hs b1 h1).trans (Grows.initIndirectCall hb)
      · cases hb
    · exact hs b hb
  onNewEdge M s e hs b hb := by
    unfold callBacks at hb
    dsimp only at hb
    split at hb
    · obtain ⟨b1, h1, hb⟩ := bind_ok hb
      exact (hs b1 h1).trans ((grows_respected P).processCallSite (onNewCallEdge_ok hb))
    · exact hs b hb
  resolved M s id c node hc hs := hs

theorem initial_handled (hr : initial P T = .ok b) : b.core.handledGEPMap = fun _ => ∅ := by
  have hf : Respected P (Grows : Builder Ctx Fun Val → Builder Ctx Fun Val → Prop) :=
    grows_respected P
  unfold initial at hr
  obtain ⟨nullPtr, hnull, hr⟩ := bind_ok hr
  obtain ⟨uniPtr, huni, hr⟩ := bind_ok hr
  obtain ⟨nullObj, hnullObj, hr⟩ := bind_ok hr
  obtain ⟨uniObj, huniObj, hr⟩ := bind_ok hr
  cases hr
  have h1 := (hf.createPtrNode hnull).handled
  have h2 := (hf.createPtrNode huni).handled
  have h3 := (hf.allocate _ _ _ _ hnullObj).handled
  have h4 := (hf.allocate _ _ _ _ huniObj).handled
  exact h4.trans (h3.trans (h2.trans h1))

/-- no `getelementptr` has been handled before the first run -/
theorem Globals.handled (h : Globals P T b) : b.core.handledGEPMap = fun _ => ∅ := by
  induction h with
  | start hinit hadd =>
    exact ((grows_respected P).addGlobals hadd).handled.trans (initial_handled hinit)
  | step _ hs ih =>
    cases hs with
    | field V pOffset _ _ => exact ih
    | addrOf src dst o o' _ _ _ _ => exact ih

end

end Builder

/-! ## a round of the resolution -/

section
variable [DecidableEq Ctx] [DecidableEq Fun] [DecidableEq Val] [DecidableEq Ty]
variable {P : Program Fun Val Ty} {hlay : P.Layout} {T : CtxDomain Ctx Val}
  {L : LangModel Fun Val Ty} {w : Walk} {MaxIndirectTarget n : Nat} {b : Builder Ctx Fun Val}

theorem Solving.resolveFunPtrs_enlarges {s s' : Solving Ctx Fun Val} (hP : P.Canonical)
    (hb : s.disc.data = .ok b) (hp : Builder.Placed P T b) (hlog : s.disc.module.Logged s.resolved)
    (h : s.resolveFunPtrs P hlay T L w MaxIndirectTarget n = some s') :
    ∃ b', s'.disc.data = .ok b' ∧ Builder.Placed P T b' ∧ b.core.Enlarges b'.core := by
  obtain ⟨t, b', hgrows, hb', hp', -, -, rfl⟩ := resolveFunPtrs_inv
    (I := fun t => ∀ b1, t.disc.data = .ok b1 → Builder.Grows b b1) hP
    (fun t id target t' ht _ hr => by
      obtain ⟨c, -, ⟨rfl, -⟩ | ⟨R, b1, hR, -, rfl⟩⟩ := resolveTarget_cases hr
      · exact ht
      · exact (Builder.grows_callBacks L b).resolveCallTo (R := { t.disc with
          module := t.disc.module.addTarget id c target }) ht hR)
    hb hp hlog (fun b1 hb1 => by
      obtain rfl : b = b1 := Except.ok.inj (hb.symm.trans hb1)
      exact .refl b) h
  have he := (hgrows b' hb').enlarges hp.shape.inv hp'.shape.inv
  exact ⟨_, rfl, hp'.clearFunPtrs, he.le, he.kind, he.superOf, he.pts, he.succ, he.handled⟩

end

/-! ## the loop -/

namespace SolverBase

section
variable [DecidableEq Ctx] [DecidableEq Fun] [DecidableEq Val] [DecidableEq Ty] {ε : Type}
variable (P : Program Fun Val Ty) (hlay : P.Layout) (T : CtxDomain Ctx Val) (L : LangModel Fun Val Ty)
  {w : Walk} (MaxIndirectTarget : Nat) {Mem : MemModel (FSObject Ctx Val) (Pointer Ctx Val)}
  (S : Subclass Mem w ε) (n : Nat)

def solve (r : Solving Ctx Fun Val × ε) : Option (Solving Ctx Fun Val × ε) :=
  doWhile (fun r => r.1.changed) (solveRound P hlay T L MaxIndirectTarget S n) n r

/-- from the globals `b₀` on; no loop runs more than `n` times -/
def analyze (main : Fun) (b₀ : Builder Ctx Fun Val) : Option (Solving Ctx Fun Val × ε) := do
  let R ← Discovery.buildInitCallGraph (P.callSites hlay) T (Builder.callBacks P T L) n main (.ok b₀)
  solve P hlay T L MaxIndirectTarget S n (⟨R, [], true⟩, S.start)

/-- the states in which a round begins -/
inductive Begins (main : Fun) (b₀ : Builder Ctx Fun Val) : Solving Ctx Fun Val × ε → Prop where
  | start {R : Discovery Ctx Fun Val Val (Except Abort (Builder Ctx Fun Val))} :
      Discovery.buildInitCallGraph (P.callSites hlay) T (Builder.callBacks P T L) n main (.ok b₀) =
        some R → Begins main b₀ (⟨R, [], true⟩, S.start)
  | next {r r' : Solving Ctx Fun Val × ε} : Begins main b₀ r →
      solveRound P hlay T L MaxIndirectTarget S n r = some r' → r'.1.changed = true → Begins main b₀ r'

variable {P hlay T L MaxIndirectTarget S n} {main : Fun} {b₀ : Builder Ctx Fun Val}
  {r r' : Solving Ctx Fun Val × ε}

/-- the state is one of `Rounds`, and the data of the solver fit its graph -/
def InStep (P : Program Fun Val Ty) (hlay : P.Layout) (T : CtxDomain Ctx Val) (L : LangModel Fun Val Ty)
    (MaxIndirectTarget : Nat) (S : Subclass Mem w ε) (main : Fun) (b₀ : Builder Ctx Fun Val)
    (r : Solving Ctx Fun Val × ε) : Prop :=
  Rounds P hlay T L w MaxIndirectTarget Mem main b₀ r.1 ∧
    ∀ b, r.1.disc.data = .ok b → S.Inv ⟨b.core, r.2⟩

theorem InStep.start (hP : P.Canonical) (hg : Builder.Globals P T b₀)
    {R : Discovery Ctx Fun Val Val (Except Abort (Builder Ctx Fun Val))}
    (hR : Discovery.buildInitCallGraph (P.callSites hlay) T (Builder.callBacks P T L) n main (.ok b₀) =
      some R) : InStep P hlay T L MaxIndirectTarget S main b₀ (⟨R, [], true⟩, S.start) := by
  refine ⟨.start hR, fun b hb => ?_⟩
  have hgrown : Grown P T {} b₀ R.module b :=
    (Grown.callBacks hP L {} b₀).buildInitCallGraph (fun b1 hb1 => by
      cases hb1
      exact .refl hg.placed) hR b hb
  have hgrows : Builder.Grows b₀ b :=
    (Builder.grows_callBacks L b₀).buildInitCallGraph (fun b1 hb1 => by
      cases hb1
      exact .refl b₀) hR b hb
  have hun := hg.unsolved.frame hgrown.frame.toFrame
  refine S.start_inv _ (fun m => ?_) (hgrows.handled.trans hg.handled)
  rcases Nat.lt_or_ge m b.core.graph.nodeNum with hlt | hge
  · exact hun.superOf m hlt
  · cases hs : b.core.graph.superOf m with
    | none => rfl
    | some s => exact absurd (hgrown.placed.shape.inv.sup_lt m s hs).1 (Nat.not_lt_of_le hge)

/-- a round in which nothing is lost -/
theorem InStep.round (hP : P.Canonical) (hM : KeepsBlock Mem) (hg : Builder.Globals P T b₀)
    (hfun : ∀ o gep f, Mem.indexObject o gep = some f → P.asFunction f.value = none)
    (hch : r.1.changed = true) (hfine : Fine P hlay T L MaxIndirectTarget S n r)
    (h : InStep P hlay T L MaxIndirectTarget S main b₀ r)
    (hr : solveRound P hlay T L MaxIndirectTarget S n r = some r') :
    InStep P hlay T L MaxIndirectTarget S main b₀ r' := by
  unfold solveRound at hr
  split at hr
  · cases hr
  · rename_i b hb
    obtain ⟨t, ht, hr⟩ := Option.bind_eq_some_iff.mp hr
    obtain ⟨s', hs', hr⟩ := Option.bind_eq_some_iff.mp hr
    cases hr
    obtain ⟨hrounds, hinv⟩ := h
    obtain ⟨hok, hround⟩ := hfine b hb
    obtain ⟨hw, hlog⟩ := hrounds.waiting hP hM hg
    have hp := (hw b hb).placed
    have hpos := Nat.zero_lt_of_lt hp.null.1
    obtain ⟨hsteps, hclosed, hdata⟩ := S.run hp.shape hpos (hinv b hb) hok ht
    have hsolves : Solves P Mem w b.core t.core := ⟨insertOk_run hp.shape hsteps
      fun o gep f hf => by rw [hfun o gep f hf]; exact Bool.false_ne_true, hclosed⟩
    refine ⟨.round n hrounds hch hb hsolves (hround t ht) hs', fun b' hb' => ?_⟩
    have hplaced := hp.steps hM hsteps
    obtain ⟨b1, hb1, hp1, henl⟩ := Solving.resolveFunPtrs_enlarges hP
      (s := r.1.setCore b t.core) rfl hplaced hlog hs'
    rw [hb1] at hb'
    cases hb'
    exact S.enlarges hdata hplaced.shape hp1.shape henl

/-- a run of rounds in which nothing is lost goes through the states of `Rounds` -/
theorem analyze_rounds (hP : P.Canonical) (hM : KeepsBlock Mem) (hg : Builder.Globals P T b₀)
    (hfun : ∀ o gep f, Mem.indexObject o gep = some f → P.asFunction f.value = none)
    (hfine : ∀ r, Begins P hlay T L MaxIndirectTarget S n main b₀ r →
      Fine P hlay T L MaxIndirectTarget S n r)
    (h : analyze P hlay T L MaxIndirectTarget S n main b₀ = some r) :
    Rounds P hlay T L w MaxIndirectTarget Mem main b₀ r.1 ∧ r.1.changed = false := by
  obtain ⟨R, hR, h⟩ := Option.bind_eq_some_iff.mp h
  obtain ⟨⟨hstep, -⟩, hend⟩ := doWhile_inv
    (I := fun r => InStep P hlay T L MaxIndirectTarget S main b₀ r ∧ r.1.changed = true ∧
      Begins P hlay T L MaxIndirectTarget S n main b₀ r)
    (J := fun r => InStep P hlay T L MaxIndirectTarget S main b₀ r ∧ (r.1.changed = true →
      Begins P hlay T L MaxIndirectTarget S n main b₀ r))
    (fun r r' ⟨hr, hch, hbegin⟩ hround => ⟨hr.round hP hM hg hfun hch (hfine r hbegin) hround,
      fun hch' => .next hbegin hround hch'⟩)
    (fun r ⟨hr, hbegin⟩ hch => ⟨hr, hch, hbegin hch⟩)
    ⟨.start hP hg hR, rfl, .start hR⟩ h
  exact ⟨hstep.1, hend⟩

/-- such a run has come to its end, if no call has reached the limit of targets -/
theorem analyze_finished (hP : P.Canonical) (hM : KeepsBlock Mem) (hg : Builder.Globals P T b₀)
    (hfun : ∀ o gep f, Mem.indexObject o gep = some f → P.asFunction f.value = none)
    (hfine : ∀ r, Begins P hlay T L MaxIndirectTarget S n main b₀ r →
      Fine P hlay T L MaxIndirectTarget S n r)
    (h : analyze P hlay T L MaxIndirectTarget S n main b₀ = some r)
    (hlimit : ∀ (id : CallNodeID) c, r.1.disc.module.nodes[id]? = some (.inDirect c) →
      c.targets.length < MaxIndirectTarget) :
    ∃ b, r.1.disc.data = .ok b ∧ Finished P hlay T L w MaxIndirectTarget Mem main b₀ r.1 b := by
  obtain ⟨hrounds, hend⟩ := analyze_rounds hP hM hg hfun hfine h
  obtain ⟨b, hb, -⟩ := hrounds.result hP hM hg hend
  exact ⟨b, hb, hg, hrounds, hend, hb, hlimit⟩

/-- A run in which nothing is lost and no call reaches the limit of targets ends with exactly the calls
and the points-to sets that the rules of the analysis derive. -/
theorem analyze_exact (hP : P.Canonical) (hM : KeepsBlock Mem) (hg : Builder.Globals P T b₀)
    (hthread : ∀ v G, L.threadFun v = some G → L.isHeapAllocFun G = false)
    (hfun : ∀ o gep f, Mem.indexObject o gep = some f → P.asFunction f.value = none)
    (hfine : ∀ r, Begins P hlay T L MaxIndirectTarget S n main b₀ r →
      Fine P hlay T L MaxIndirectTarget S n r)
    (h : analyze P hlay T L MaxIndirectTarget S n main b₀ = some r)
    (hlimit : ∀ (id : CallNodeID) c, r.1.disc.module.nodes[id]? = some (.inDirect c) →
      c.targets.length < MaxIndirectTarget) :
    ∃ b, r.1.disc.data = .ok b ∧
      (∀ ev, r.1.disc.module.Happens ev ↔
        (analysis P T L Mem main b₀.Stores).Derives (.event ev)) ∧
      ∀ x o, b.Holds x o ↔ (analysis P T L Mem main b₀.Stores).Derives (.found x o) := by
  obtain ⟨b, hb, hfinished⟩ := analyze_finished hP hM hg hfun hfine h hlimit
  exact ⟨b, hb, hfinished.least_model hP hM hthread⟩

/-- Two such runs, whatever their subclasses, walks and limits are, end with the same calls and the same
points-to sets. -/
theorem analyze_agree {ε' : Type} {w' : Walk} {S' : Subclass Mem w' ε'} {MaxIndirectTarget' n' : Nat}
    {r' : Solving Ctx Fun Val × ε'}
    (hP : P.Canonical) (hM : KeepsBlock Mem) (hg : Builder.Globals P T b₀)
    (hthread : ∀ v G, L.threadFun v = some G → L.isHeapAllocFun G = false)
    (hfun : ∀ o gep f, Mem.indexObject o gep = some f → P.asFunction f.value = none)
    (hfine : ∀ r, Begins P hlay T L MaxIndirectTarget S n main b₀ r →
      Fine P hlay T L MaxIndirectTarget S n r)
    (h : analyze P hlay T L MaxIndirectTarget S n main b₀ = some r)
    (hlimit : ∀ (id : CallNodeID) c, r.1.disc.module.nodes[id]? = some (.inDirect c) →
      c.targets.length < MaxIndirectTarget)
    (hfine' : ∀ r, Begins P hlay T L MaxIndirectTarget' S' n' main b₀ r →
      Fine P hlay T L MaxIndirectTarget' S' n' r)
    (h' : analyze P hlay T L MaxIndirectTarget' S' n' main b₀ = some r')
    (hlimit' : ∀ (id : CallNodeID) c, r'.1.disc.module.nodes[id]? = some (.inDirect c) →
      c.targets.length < MaxIndirectTarget') :
    ∃ b b', r.1.disc.data = .ok b ∧ r'.1.disc.data = .ok b' ∧
      (∀ ev, r.1.disc.module.Happens ev ↔ r'.1.disc.module.Happens ev) ∧
      ∀ x o, b.Holds x o ↔ b'.Holds x o := by
  obtain ⟨b, hb, hfinished⟩ := analyze_finished hP hM hg hfun hfine h hlimit
  obtain ⟨b', hb', hfinished'⟩ := analyze_finished hP hM hg hfun hfine' h' hlimit'
  exact ⟨b, b', hb, hb', hfinished.runs_agree hP hM hthread hfinished' rfl⟩

end

/-! ## runs that are checked -/

section
variable [DecidableEq Ctx] [DecidableEq Fun] [DecidableEq Val] [DecidableEq Ty] {ε : Type}
variable (P : Program Fun Val Ty) (hlay : P.Layout) (T : CtxDomain Ctx Val) (L : LangModel Fun Val Ty)
  (MaxIndirectTarget : Nat) {Mem : MemModel (FSObject Ctx Val) (Pointer Ctx Val)}
  (S : Subclass Mem .ascending ε) (n : Nat)
  (ok : State (FSObject Ctx Val) (Pointer Ctx Val) ε → Bool)

/-- The loop ends after at most `k` rounds from `r` on, in which nothing is lost, and no call has
reached the limit. -/
def checkRounds : Nat → Solving Ctx Fun Val × ε → Bool
  | 0, _ => false
  | k + 1, r => checkFine P hlay T L MaxIndirectTarget S n ok r &&
    (solveRound P hlay T L MaxIndirectTarget S n r).any fun r' =>
      if r'.1.changed then checkRounds k r'
      else r'.1.disc.module.nodes.all fun node => match node with
        | .direct _ => true
        | .inDirect c => decide (c.targets.length < MaxIndirectTarget)

def checkRun (k : Nat) (main : Fun) (b₀ : Builder Ctx Fun Val) : Bool :=
  (Discovery.buildInitCallGraph (P.callSites hlay) T (Builder.callBacks P T L) n main (.ok b₀)).any
    fun R => checkRounds P hlay T L MaxIndirectTarget S n ok k (⟨R, [], true⟩, S.start)

variable {P hlay T L MaxIndirectTarget S n ok}

theorem loop_of_checkRounds {k m : Nat} {r : Solving Ctx Fun Val × ε}
    (h : checkRounds P hlay T L MaxIndirectTarget S n ok k r = true) (hm : k ≤ m) :
    ∃ r', doWhile (fun r => r.1.changed) (solveRound P hlay T L MaxIndirectTarget S n) m r = some r' ∧
      ∀ (id : CallNodeID) c, r'.1.disc.module.nodes[id]? = some (.inDirect c) →
        c.targets.length < MaxIndirectTarget := by
  induction k generalizing m r with
  | zero => cases h
  | succ k ih =>
    obtain ⟨-, h⟩ := Bool.and_eq_true_iff.mp h
    obtain ⟨r₁, h₁, h⟩ := (Option.any_eq_true _ _).mp h
    obtain ⟨m, rfl⟩ : ∃ m', m = m' + 1 := ⟨m - 1, by omega⟩
    let c : Solving Ctx Fun Val × ε → Bool := fun r => r.1.changed
    unfold doWhile
    rw [h₁, Option.bind_some]
    split at h
    · rename_i hch
      obtain ⟨r', hr', hlimit⟩ := ih h (Nat.le_of_succ_le_succ hm)
      rw [loop_of_cond (c := c) hch]
      exact ⟨r', hr', hlimit⟩
    · rename_i hch
      have hch : c r₁ = false := by simpa using hch
      refine ⟨r₁, loop_of_not_cond hch, fun id c hc => ?_⟩
      have hmem := List.all_eq_true.mp h _ (List.mem_of_getElem? hc)
      exact of_decide_eq_true hmem

theorem Begins.check {k : Nat} {main : Fun} {b₀ : Builder Ctx Fun Val} {r : Solving Ctx Fun Val × ε}
    (h : checkRun P hlay T L MaxIndirectTarget S n ok k main b₀ = true)
    (hr : Begins P hlay T L MaxIndirectTarget S n main b₀ r) :
    ∃ k, checkRounds P hlay T L MaxIndirectTarget S n ok k r = true := by
  induction hr with
  | start hR =>
    unfold checkRun at h
    rw [hR] at h
    exact ⟨k, h⟩
  | next _ hround hch ih =>
    obtain ⟨k, h⟩ := ih
    cases k with
    | zero => cases h
    | succ k =>
      obtain ⟨-, h⟩ := Bool.and_eq_true_iff.mp h
      rw [hround] at h
      replace h : (if _ then _ else _) = true := h
      rw [if_pos hch] at h
      exact ⟨k, h⟩

/-- such a run ends and satisfies what is asked of it -/
theorem checkRun_spec (hok : ∀ s, ok s = true → S.Ok s) {k : Nat} {main : Fun}
    {b₀ : Builder Ctx Fun Val} (hk : k ≤ n)
    (h : checkRun P hlay T L MaxIndirectTarget S n ok k main b₀ = true) :
    ∃ r, analyze P hlay T L MaxIndirectTarget S n main b₀ = some r ∧
      (∀ r, Begins P hlay T L MaxIndirectTarget S n main b₀ r →
        Fine P hlay T L MaxIndirectTarget S n r) ∧
      ∀ (id : CallNodeID) c, r.1.disc.module.nodes[id]? = some (.inDirect c) →
        c.targets.length < MaxIndirectTarget := by
  have hcheck := h
  unfold checkRun at h
  obtain ⟨R, hR, h⟩ := (Option.any_eq_true _ _).mp h
  obtain ⟨r, hr, hlimit⟩ := loop_of_checkRounds h hk
  refine ⟨r, Option.bind_eq_some_iff.mpr ⟨R, hR, hr⟩, fun r' hr' => ?_, hlimit⟩
  obtain ⟨k', h'⟩ := hr'.check hcheck
  cases k' with
  | zero => cases h'
  | succ k' => exact fine_of_checkFine hok (Bool.and_eq_true_iff.mp h').1

theorem checkRun_finished (hP : P.Canonical) (hM : KeepsBlock Mem)
    (hfun : ∀ o gep f, Mem.indexObject o gep = some f → P.asFunction f.value = none)
    (hok : ∀ s, ok s = true → S.Ok s) {k : Nat} {main : Fun} {b₀ : Builder Ctx Fun Val} (hk : k ≤ n)
    (hg : Builder.Globals P T b₀)
    (h : checkRun P hlay T L MaxIndirectTarget S n ok k main b₀ = true) :
    ∃ r b, analyze P hlay T L MaxIndirectTarget S n main b₀ = some r ∧ r.1.disc.data = .ok b ∧
      Finished P hlay T L .ascending MaxIndirectTarget Mem main b₀ r.1 b := by
  obtain ⟨r, hr, hfine, hlimit⟩ := checkRun_spec hok hk h
  obtain ⟨b, hb, hfinished⟩ := analyze_finished hP hM hg hfun hfine hr hlimit
  exact ⟨r, b, hr, hb, hfinished⟩

end

/-! ## an analysis with two solvers -/

/-- the globals of the program with a cast -/
def castGlobals [DecidableEq Ctx] (T : CtxDomain Ctx Nat) : Except Abort (Builder Ctx CastFun Nat) :=
  (Builder.initial (castProgram 22) T).bind (Builder.addGlobals (castProgram 22) T)

section
variable [DecidableEq Ctx] (T : CtxDomain Ctx Nat) {Mem : MemModel (FSObject Ctx Nat) (Pointer Ctx Nat)}
  {ε : Type} (S : Subclass Mem .ascending ε)

def castAnalyze (b₀ : Builder Ctx CastFun Nat) : Option (Solving Ctx CastFun Nat × ε) :=
  analyze (castProgram 22) (castProgram_layout 22) T castLang 100 S 40 .main b₀

/-- the run is over after two rounds -/
def castRun (ok : State (FSObject Ctx Nat) (Pointer Ctx Nat) ε → Bool)
    (b₀ : Builder Ctx CastFun Nat) : Bool :=
  checkRun (castProgram 22) (castProgram_layout 22) T castLang 100 S 40 ok 2 .main b₀

variable {T S} {b₀ : Builder Ctx CastFun Nat}

theorem castGlobals_globals (h : castGlobals T = .ok b₀) : Builder.Globals (castProgram 22) T b₀ := by
  obtain ⟨b0, h0, h1⟩ := Builder.bind_ok h
  exact .start h0 h1

theorem castRun_finished {ok : State (FSObject Ctx Nat) (Pointer Ctx Nat) ε → Bool}
    (hok : ∀ s, ok s = true → S.Ok s)
    (hMem : ∀ o gep, Mem.indexObject o gep = none) (hb₀ : castGlobals T = .ok b₀)
    (h : castRun T S ok b₀ = true) : ∃ r b, castAnalyze T S b₀ = some r ∧ r.1.disc.data = .ok b ∧
      Finished (castProgram 22) (castProgram_layout 22) T castLang .ascending 100 Mem .main b₀ r.1 b := by
  have hno : ∀ {o gep f}, Mem.indexObject o gep = some f → False := by
    intro o gep f hf
    rw [hMem] at hf
    cases hf
  exact checkRun_finished (castProgram_canonical 22) (fun _ _ _ hf => (hno hf).elim)
    (fun _ _ _ hf => (hno hf).elim) hok (by decide) (castGlobals_globals hb₀) h

end

/-- no turn of `Andersen` loses anything, and the worklist is empty after `k` turns -/
def andersenOk (k : Nat) (s : Andersen.St (FSObject Unit Nat) (Pointer Unit Nat)) : Bool :=
  decide (∀ n < k, (Andersen.turns fieldMem .ascending n (Andersen.start s)).all
    (fun t => decide (Andersen.TurnOk fieldMem .ascending t)) = true) &&
    (Andersen.turns fieldMem .ascending k (Andersen.start s)).all fun t => t.self.isEmpty

theorem runOk_of_andersenOk {k : Nat} {s : Andersen.St (FSObject Unit Nat) (Pointer Unit Nat)}
    (h : andersenOk k s = true) : Andersen.RunOk fieldMem .ascending s := by
  obtain ⟨h1, h2⟩ := Bool.and_eq_true_iff.mp h
  exact Andersen.runOk_of_turns (of_decide_eq_true h1) h2

theorem ok_of_any {α β : Type} {x : Except α β} {p : β → Bool} (h : x.toOption.any p = true) :
    ∃ b, x = .ok b ∧ p b = true := by
  cases x with
  | error e => cases h
  | ok b => exact ⟨b, rfl, h⟩

/-- both solvers lose nothing in the two rounds -/
theorem castRun_ok : ∃ b₀, castGlobals fieldCtx = .ok b₀ ∧
    castRun fieldCtx (.wavePropagation fieldMem .ascending) (fun _ => true) b₀ = true ∧
    castRun fieldCtx (.andersen fieldMem .ascending) (andersenOk 30) b₀ = true := by
  have hrun : (castGlobals fieldCtx).toOption.any (fun b₀ =>
      castRun fieldCtx (.wavePropagation fieldMem .ascending) (fun _ => true) b₀ &&
        castRun fieldCtx (.andersen fieldMem .ascending) (andersenOk 30) b₀) = true := by
    decide +kernel
  obtain ⟨b₀, hb₀, hrun⟩ := ok_of_any hrun
  exact ⟨b₀, hb₀, Bool.and_eq_true_iff.mp hrun⟩

/-- the run with `WavePropagation` -/
theorem castFinished : ∃ (b₀ : Builder Unit CastFun Nat) (r : Solving Unit CastFun Nat × Wave.Caches)
    (b : Builder Unit CastFun Nat),
    castAnalyze fieldCtx (.wavePropagation fieldMem .ascending) b₀ = some r ∧ r.1.disc.data = .ok b ∧
    Finished (castProgram 22) (castProgram_layout 22) fieldCtx castLang .ascending 100 fieldMem .main b₀
      r.1 b := by
  obtain ⟨b₀, hb₀, hwave, -⟩ := castRun_ok
  obtain ⟨r, b, hfinished⟩ := castRun_finished (fun _ _ => trivial) (fun _ _ => rfl) hb₀ hwave
  exact ⟨b₀, r, b, hfinished⟩

section
variable (T : CtxDomain Ctx Nat) (Mem : MemModel (FSObject Ctx Nat) (Pointer Ctx Nat))
  (init : FSObject Ctx Nat → FSObject Ctx Nat → Prop)

/-- the name of `first` points to `first` -/
theorem castProgram_found : (analysis (castProgram 22) T castLang Mem .main init).Derives
    (.found (.ptr T.getGlobalCtx 20) ⟨T.getGlobalCtx, 20, 0⟩) :=
  .base (.start (.inl rfl)) (.program (.addr (by decide)))

/-- so `main` calls it through the cast -/
theorem castProgram_called : (analysis (castProgram 22) T castLang Mem .main init).Derives
    (.event (.body (T.contextEvolve T.getInitialCtx 12) .first)) := by
  have hcall : IndirectCall (castProgram 22) T castLang T.getInitialCtx .main 12
      (.ptr T.getGlobalCtx 20) ⟨T.getGlobalCtx, 20, 0⟩ .first :=
    ⟨none, 11, .first, by decide, .indirect rfl rfl, rfl, rfl, rfl, nofun, rfl, by decide⟩
  exact .next (.trigger (.start (.inr rfl)) (castProgram_found T Mem init)
    ⟨_, _, _, _, rfl, rfl, hcall⟩) (.inr ⟨_, _, _, rfl, rfl, by decide, rfl⟩)

end

theorem analyze_exact_cast : ∃ (b₀ : Builder Unit CastFun Nat) (r : _ × Wave.Caches)
    (b : Builder Unit CastFun Nat),
    castAnalyze fieldCtx (.wavePropagation fieldMem .ascending) b₀ = some r ∧ r.1.disc.data = .ok b ∧
    (∀ ev, r.1.disc.module.Happens ev ↔ (analysis (castProgram 22) fieldCtx castLang fieldMem .main
      b₀.Stores).Derives (.event ev)) ∧
    ∀ x o, b.Holds x o ↔ (analysis (castProgram 22) fieldCtx castLang fieldMem .main
      b₀.Stores).Derives (.found x o) := by
  obtain ⟨b₀, hb₀, hwave, -⟩ := castRun_ok
  obtain ⟨r, hr, hfine, hlimit⟩ := checkRun_spec (fun _ _ => trivial) (by decide : 2 ≤ 40) hwave
  obtain ⟨b, hb, hexact⟩ := analyze_exact (castProgram_canonical 22) fieldMem_keepsBlock
    (castGlobals_globals hb₀) (fun _ _ h => by cases h) (fun _ _ _ h => by cases h) hfine hr hlimit
  exact ⟨b₀, r, b, hr, hb, hexact⟩

theorem analyze_agree_cast : ∃ (b₀ : Builder Unit CastFun Nat) (r : _ × Wave.Caches)
    (r' : _ × List NodeID) (b b' : Builder Unit CastFun Nat),
    castAnalyze fieldCtx (.wavePropagation fieldMem .ascending) b₀ = some r ∧
    castAnalyze fieldCtx (.andersen fieldMem .ascending) b₀ = some r' ∧
    r.1.disc.data = .ok b ∧ r'.1.disc.data = .ok b' ∧
    (r.1.disc.module.Happens (.body () .first) ∧ r'.1.disc.module.Happens (.body () .first)) ∧
    b.Holds (.ptr () 20) ⟨(), 20, 0⟩ ∧ b'.Holds (.ptr () 20) ⟨(), 20, 0⟩ := by
  obtain ⟨b₀, hb₀, hwave, hander⟩ := castRun_ok
  obtain ⟨r, hr, hfine, hlimit⟩ := checkRun_spec (fun _ _ => trivial) (by decide : 2 ≤ 40) hwave
  obtain ⟨r', hr', hfine', hlimit'⟩ := checkRun_spec (fun _ => runOk_of_andersenOk) (by decide : 2 ≤ 40)
    hander
  obtain ⟨b, b', hb, hb', hev, hpts⟩ := analyze_agree (castProgram_canonical 22) fieldMem_keepsBlock
    (castGlobals_globals hb₀) (fun _ _ h => by cases h) (fun _ _ _ h => by cases h) hfine hr hlimit
    hfine' hr' hlimit'
  obtain ⟨b₁, hb₁, hfinished⟩ := analyze_finished (castProgram_canonical 22) fieldMem_keepsBlock
    (castGlobals_globals hb₀) (fun _ _ _ h => by cases h) hfine hr hlimit
  obtain rfl : b₁ = b := Except.ok.inj (hb₁.symm.trans hb)
  have hmodel := hfinished.complete (castProgram_canonical 22) fieldMem_keepsBlock
  have hcalled := (castProgram_called fieldCtx fieldMem b₀.Stores).le hmodel
  have hfound := (castProgram_found fieldCtx fieldMem b₀.Stores).le hmodel
  exact ⟨b₀, r, r', b₁, b', hr, hr', hb, hb', ⟨hcalled, (hev _).mp hcalled⟩, hfound,
    (hpts _ _).mp hfound⟩

end SolverBase

end AserPTA
