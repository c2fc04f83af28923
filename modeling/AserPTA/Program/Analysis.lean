import AserPTA.Program.Complete
import AserPTA.Solver.WavePropagation
import AserPTA.Solver.PartialUpdateRounds

/-!
# The states of an analysis

A solver and the resolution of calls take turns.  `PartialUpdateSolver` also works while calls are
resolved: the graph calls it back for every new constraint.

* `Change`                    what happens to the builder while calls are resolved;
* `Changes.onNewConstraint`   a constraint, and what `PartialUpdateSolver` does for it;
* `Interleaved`               callbacks of the call graph with the work of a solver in between;
* `Analysis`                  the states of an analysis;
* `Analysis.offsetTargets`    the targets of offset edges.
-/

namespace AserPTA

open ConsGraph AserPTA.Core Loop Relation

variable {Ctx Fun Val Ty : Type}

namespace Builder

section
variable [DecidableEq Ctx] [DecidableEq Fun] [DecidableEq Val]
variable (P : Program Fun Val Ty) (T : CtxDomain Ctx Val) (L : LangModel Fun Val Ty)
  (Mem : MemModel (FSObject Ctx Val) (Pointer Ctx Val)) (w : Walk)

/-- a constraint that a visitor or a call brings -/
def Emittable (k : Constraints) (x y : Cell Ctx Fun Val) : Prop :=
  ∃ ev, EventCons P T L (fun _ _ => False) ev k x y

/-- What happens to the builder while calls are resolved.  The callbacks of the call graph add nodes and
constraints and mark function pointers, and a solver may take steps in between. -/
inductive Change : Builder Ctx Fun Val → Builder Ctx Fun Val → Prop where
  | addition {b b' : Builder Ctx Fun Val} : Addition P T (Emittable P T L) b b' → Change b b'
  | indirectCall {b b' : Builder Ctx Fun Val} (C : Ctx) (value : Val) (callNode : CallNodeID) :
      initIndirectCall P T b C value callNode = .ok b' → Change b b'
  | step {b : Builder Ctx Fun Val} {c : Core (FSObject Ctx Val) (Pointer Ctx Val)} :
      Core.Step Mem w b.core c → Change b (b.withCore c)

abbrev Changes : Builder Ctx Fun Val → Builder Ctx Fun Val → Prop :=
  ReflTransGen (Change P T L Mem w)

/-- `s'` comes of `s` by such changes; what has aborted stays so -/
def Changed (s s' : Except Abort (Builder Ctx Fun Val)) : Prop :=
  ∀ b', s' = .ok b' → ∃ b, s = .ok b ∧ (Settled P T b → Changes P T L Mem w b b')

/-- callbacks of the call graph that add to the graph, with the work of a solver in between -/
structure Interleaved (K : CallBacks Ctx Fun Val Val (Except Abort (Builder Ctx Fun Val))) : Prop where
  beforeNewNode : K.beforeNewNode = overrideFunction P L
  onNewDirect : ∀ M id s, Changed P T L Mem w s (K.onNewDirect M id s).1
  onNewInDirect : ∀ M id s, Changed P T L Mem w s (K.onNewInDirect M id s)
  onNewEdge : ∀ M e s, Changed P T L Mem w s (K.onNewEdge M e s)

end

section
variable [DecidableEq Ctx] [DecidableEq Fun] [DecidableEq Val]
variable {P : Program Fun Val Ty} {T : CtxDomain Ctx Val} {L : LangModel Fun Val Ty}
  {Mem : MemModel (FSObject Ctx Val) (Pointer Ctx Val)} {w : Walk} {b b' : Builder Ctx Fun Val}

omit [DecidableEq Ctx] [DecidableEq Fun] in
theorem legal_emittable (hP : P.Canonical) : Legal P T (Emittable P T L) := by
  have hev : ∀ ev, Legal P T (EventCons P T L (fun _ _ => False) ev) := by
    intro ev
    refine ⟨fun x y h => ?_, fun k x C V hk h => ?_, fun x y h => ?_⟩
    · cases h with
      | program h => exact (legal_global _).addrOf x y h
      | body _ h => exact (legal_inst hP _ _ _).addrOf x y h
      | call h => exact (legal_call hP _ _ _).addrOf x y h
    · cases h with
      | program h => exact (legal_global _).fed k x C V hk h
      | body _ h => exact (legal_inst hP _ _ _).fed k x C V hk h
      | call h => exact (legal_call hP _ _ _).fed k x C V hk h
    · cases h with
      | program h => exact (legal_global _).offset x y h
      | body _ h => exact (legal_inst hP _ _ _).offset x y h
      | call h => exact (legal_call hP _ _ _).offset x y h
  exact ⟨fun x y ⟨ev, h⟩ => (hev ev).addrOf x y h, fun k x C V hk ⟨ev, h⟩ => (hev ev).fed k x C V hk h,
    fun x y ⟨ev, h⟩ => (hev ev).offset x y h⟩

theorem Settled.change (hP : P.Canonical) (hM : KeepsBlock Mem) (h : Settled P T b)
    (hs : Change P T L Mem w b b') : Settled P T b' := by
  cases hs with
  | addition hs => exact h.addition hP (legal_emittable hP) hs
  | indirectCall C value callNode hr => exact (h.initIndirectCall hr).1
  | step hs => exact h.steps hM (.single hs)

theorem Settled.changes (hP : P.Canonical) (hM : KeepsBlock Mem) (h : Settled P T b)
    (hs : Changes P T L Mem w b b') : Settled P T b' := by
  induction hs with
  | refl => exact h
  | tail _ hs ih => exact ih.change hP hM hs

namespace Changes

theorem additions {A : Constraints → Cell Ctx Fun Val → Cell Ctx Fun Val → Prop}
    (hA : ∀ k x y, A k x y → Emittable P T L k x y) (h : Additions P T A b b') :
    Changes P T L Mem w b b' := by
  induction h with
  | refl => exact .refl
  | tail _ hs ih => exact ih.tail (.addition (hs.mono hA))

theorem steps {c : Core (FSObject Ctx Val) (Pointer Ctx Val)} (hs : Core.Steps Mem w b.core c) :
    Changes P T L Mem w b (b.withCore c) := by
  induction hs with
  | refl => exact .refl
  | @tail c₁ c₂ _ hs ih => exact ih.tail (.step (b := b.withCore c₁) hs)

/-- A constraint that the builder adds while the callback is registered.  The assertions of `processLoad`,
`processStore` and `processOffset` ask for nodes that are not merged. -/
theorem onNewConstraint {F : PartialUpdate.Config (FSObject Ctx Val) (Pointer Ctx Val)} {N : Nat}
    {self : PartialUpdate.Work} (hP : P.Canonical) (h : Settled P T b) {k : Constraints}
    {x y : Cell Ctx Fun Val} {m n : NodeID} (hk : Emittable P T L k x y) (hx : b.NodeOf x m)
    (hy : b.NodeOf y n)
    (hassert : PartialUpdate.Handles N (k.source m) n k.stored →
      b.core.graph.superOf (k.source m) = none ∧ b.core.graph.superOf n = none) :
    Changes P T L F.mem F.walk b
      (b.withCore (PartialUpdate.addConstraints F N m n k ⟨b.core, self⟩).core) := by
  have hadd : Addition P T (Emittable P T L) b (b.addConstraints m n k) := .cons hk hx hy
  have h1 := h.addition hP (legal_emittable hP) hadd
  refine .head (.addition hadd) ?_
  refine steps (b := b.addConstraints m n k)
    (PartialUpdate.addConstraints_steps rfl h1.shape.sane ?_ hassert)
  unfold Constraints.source
  split
  · rename_i haddr
    subst haddr
    obtain ⟨o, rfl⟩ := (legal_emittable hP).addrOf _ _ hk
    exact (h.shape.sane.addrNodes m o hx.2 hx.1).1
  · exact hx.lt h.placed.toNodes

end Changes

end

end Builder

/-! ## the states -/

section
variable [DecidableEq Ctx] [DecidableEq Fun] [DecidableEq Val] [DecidableEq Ty]

/-- The states of an analysis: the initial call graph, and then steps of a solver and resolved calls in
any order, with steps of a solver in the resolution of a call too. -/
inductive Analysis (P : Program Fun Val Ty) (hlay : P.Layout) (T : CtxDomain Ctx Val)
    (L : LangModel Fun Val Ty) (M : MemModel (FSObject Ctx Val) (Pointer Ctx Val)) (w : Walk) :
    Discovery Ctx Fun Val Val (Except Abort (Builder Ctx Fun Val)) → Prop where
  | start {b : Builder Ctx Fun Val} {n : Nat} {entryFun : Fun}
      {R : Discovery Ctx Fun Val Val (Except Abort (Builder Ctx Fun Val))} :
      Builder.Globals P T b →
      Discovery.buildInitCallGraph (P.callSites hlay) T (Builder.callBacks P T L) n entryFun (.ok b) =
        some R → Analysis P hlay T L M w R
  | solve {R : Discovery Ctx Fun Val Val (Except Abort (Builder Ctx Fun Val))}
      {b : Builder Ctx Fun Val} {c : Core (FSObject Ctx Val) (Pointer Ctx Val)} :
      Analysis P hlay T L M w R → R.data = .ok b → Core.Step M w b.core c →
      Analysis P hlay T L M w { R with data := .ok { b with core := c } }
  | resolvedTo {R : Discovery Ctx Fun Val Val (Except Abort (Builder Ctx Fun Val))}
      (MaxIndirectTarget : Nat) (id : CallNodeID) (F : Fun) : Analysis P hlay T L M w R →
      Analysis P hlay T L M w (Discovery.resolvedTo MaxIndirectTarget R id F).1
  | resolveCallTo {R R' : Discovery Ctx Fun Val Val (Except Abort (Builder Ctx Fun Val))}
      {K : CallBacks Ctx Fun Val Val (Except Abort (Builder Ctx Fun Val))} (n : Nat)
      (id : CallNodeID) (F : Fun) : Analysis P hlay T L M w R → Builder.Interleaved P T L M w K →
      Discovery.resolveCallTo (P.callSites hlay) T K n R id F = some R' → Analysis P hlay T L M w R'
  | clearFunPtrs {R : Discovery Ctx Fun Val Val (Except Abort (Builder Ctx Fun Val))}
      {b : Builder Ctx Fun Val} : Analysis P hlay T L M w R → R.data = .ok b →
      Analysis P hlay T L M w
        { R with data := .ok { b with core := { b.core with updatedFunPtrs := ∅ } } }

end

namespace Builder.Interleaved

variable [DecidableEq Ctx] [DecidableEq Fun] [DecidableEq Val]
  {P : Program Fun Val Ty} {T : CtxDomain Ctx Val} {L : LangModel Fun Val Ty}
  {M : MemModel (FSObject Ctx Val) (Pointer Ctx Val)} {w : Walk}

/-- the callbacks of the builder, without a solver -/
theorem callBacks [DecidableEq Ty] (hP : P.Canonical) :
    Interleaved P T L M w (Builder.callBacks P T L) where
  beforeNewNode := rfl
  onNewDirect G id s b' hb := by
    unfold Builder.callBacks at hb
    dsimp only at hb
    split at hb
    · obtain ⟨b, h, hb⟩ := bind_ok hb
      refine ⟨b, h, fun hs => .additions (fun k x y hxy => ?_) (hs.initBody hP hb).additions⟩
      obtain ⟨-, I, hI, hk⟩ := hxy
      exact ⟨_, .body hI hk⟩
    · exact ⟨b', hb, fun _ => .refl⟩
  onNewInDirect G id s b' hb := by
    unfold Builder.callBacks at hb
    dsimp only at hb
    split at hb
    · split at hb
      · obtain ⟨b, h, hb⟩ := bind_ok hb
        exact ⟨b, h, fun _ => .single (.indirectCall _ _ _ hb)⟩
      · cases hb
    · exact ⟨b', hb, fun _ => .refl⟩
  onNewEdge G e s b' hb := by
    unfold Builder.callBacks at hb
    dsimp only at hb
    split at hb
    · obtain ⟨b, h, hb⟩ := bind_ok hb
      refine ⟨b, h, fun hs => ?_⟩
      obtain ⟨-, he⟩ := hs.processCallSite hP (onNewCallEdge_ok hb)
      exact .additions (fun k x y hk => ⟨_, .call hk⟩) he.additions
    · exact ⟨b', hb, fun _ => .refl⟩

/-- such callbacks keep the invariant of the builder -/
theorem kept {K : CallBacks Ctx Fun Val Val (Except Abort (Builder Ctx Fun Val))} (hP : P.Canonical)
    (hM : KeepsBlock M) (h : Interleaved P T L M w K) :
    Discovery.Kept K fun _ s => ∀ b, s = .ok b → Settled P T b := by
  have hkeep : ∀ {s s' : Except Abort (Builder Ctx Fun Val)}, Changed P T L M w s s' →
      (∀ b, s = .ok b → Settled P T b) → ∀ b, s' = .ok b → Settled P T b := by
    intro s s' hc hs b' hb'
    obtain ⟨b, hb, hch⟩ := hc b' hb'
    exact (hs b hb).changes hP hM (hch (hs b hb))
  exact ⟨fun G s C F I hs => hkeep (h.onNewDirect _ _ s) hs, fun G s C F I hs => hs,
    fun G s id hs => hs, fun G s C target I _ hs => hkeep (h.onNewInDirect _ _ s) hs,
    fun G s e hs => hkeep (h.onNewEdge _ _ s) hs, fun G s id c node _ hs => hs⟩

end Builder.Interleaved

namespace Analysis

variable [DecidableEq Ctx] [DecidableEq Fun] [DecidableEq Val] [DecidableEq Ty]
  {P : Program Fun Val Ty} {hlay : P.Layout} {T : CtxDomain Ctx Val} {L : LangModel Fun Val Ty}
  {M : MemModel (FSObject Ctx Val) (Pointer Ctx Val)} {w : Walk}
  {R : Discovery Ctx Fun Val Val (Except Abort (Builder Ctx Fun Val))}

theorem settled (hP : P.Canonical) (hM : KeepsBlock M) (h : Analysis P hlay T L M w R) :
    ∀ b, R.data = .ok b → Builder.Settled P T b := by
  induction h with
  | start hglob hrun =>
    refine ((Builder.Interleaved.callBacks (w := w) hP).kept hP hM).buildInitCallGraph
      (fun b' hb' => ?_) hrun
    cases hb'
    exact (hglob.emits hP).1
  | solve _ hb hs ih =>
    intro b' hb'
    cases hb'
    exact (ih _ hb).steps hM (.single hs)
  | resolvedTo MaxIndirectTarget id F _ ih =>
    intro b hb
    refine ih b ?_
    unfold Discovery.resolvedTo at hb
    split at hb
    · split at hb <;> exact hb
    · exact hb
  | resolveCallTo n id F _ hK hrun ih => exact (hK.kept hP hM).resolveCallTo ih hrun
  | clearFunPtrs _ hb ih =>
    intro b' hb'
    cases hb'
    exact ⟨(ih _ hb).placed.clearFunPtrs, (ih _ hb).null_ptr, (ih _ hb).uni_ptr⟩

/-- In every state the target of an offset edge is the node of a `getelementptr`, which is not merged
with any node, is fed by address nodes only, has one incoming offset edge, and is on no cycle of copy
edges; and only such nodes are keys of `handledGEPMap`. -/
theorem offsetTargets (hP : P.Canonical) (hM : KeepsBlock M) (h : Analysis P hlay T L M w R)
    {b : Builder Ctx Fun Val} (hb : R.data = .ok b) :
    (∀ u d, d ∈ b.core.graph.succ .offset u →
      GepNode P b.core.graph d ∧ b.core.graph.superOf d = none ∧
      (∀ m, b.core.graph.superOf m ≠ some d) ∧
      (∀ x ∈ b.core.graph.pred .copy d, b.core.graph.IsAddr x) ∧
      b.core.graph.pred .offset d = {u} ∧
      ∀ v, b.core.graph.CopyReach d v → b.core.graph.CopyReach v d → v = d) ∧
    ∀ d x, x ∈ b.core.handledGEPMap d → GepNode P b.core.graph d := by
  have hp := (h.settled hP hM b hb).placed
  refine ⟨fun u d hd => ?_, hp.shape.handled_gep⟩
  have hgep := hp.shape.wf.gep_target u d hd
  obtain ⟨h1, h2⟩ := hp.shape.gep_fixed d hgep
  refine ⟨hgep, h1, h2, fun x hx => ?_, ?_, fun v hdv hvd => ?_⟩
  · exact hp.shape.wf.gep_copy d hgep x ((hp.shape.inv.agree ..).mpr hx)
  · -- both edges come from the base of the same instruction, in the same context
    ext u'
    rw [← hp.shape.inv.agree, Finset.mem_singleton]
    refine ⟨fun hd' => ?_, fun he => he ▸ hd⟩
    obtain ⟨m, ⟨C, I, base, hk, hI, hm⟩, rfl⟩ := hp.offset u d hd
    obtain ⟨m', ⟨C', I', base', hk', hI', hm'⟩, rfl⟩ := hp.offset u' d hd'
    rw [hk] at hk'
    cases hk'
    rw [hI] at hI'
    cases hI'
    rw [hm] at hm'
    cases hm'
    rfl
  · by_contra hne
    exact (hp.shape.not_fixed_of_cycle hdv hvd (Ne.symm hne)).2 hgep

/-! ### the two solvers -/

theorem run (h : Analysis P hlay T L M w R) {b : Builder Ctx Fun Val} (hb : R.data = .ok b)
    {c : Core (FSObject Ctx Val) (Pointer Ctx Val)} (hs : Core.Steps M w b.core c) :
    Analysis P hlay T L M w { R with data := .ok { b with core := c } } := by
  induction hs with
  | refl =>
    cases R
    cases hb
    exact h
  | @tail c1 c2 _ hs ih => exact ih.solve (b := { b with core := c1 }) rfl hs

/-- an iteration of `WavePropagation` leads from state to state -/
theorem wavePropagation (hP : P.Canonical) (hM : KeepsBlock M) (h : Analysis P hlay T L M w R)
    {b : Builder Ctx Fun Val} (hb : R.data = .ok b) {self : Wave.Caches} :
    ∃ r, WavePropagation.iteration M w ⟨b.core, self⟩ = some r ∧
      Analysis P hlay T L M w { R with data := .ok { b with core := r.1.core } } := by
  have hp := (h.settled hP hM b hb).placed
  obtain ⟨r, hr, hs⟩ := WavePropagation.iteration_steps (M := M) (w := w) (s := ⟨b.core, self⟩)
    hp.shape.typed (Nat.zero_lt_of_lt hp.null.1)
  exact ⟨r, hr, h.run hb hs⟩

/-- and so does one of `PartialUpdateSolver`, on lists as long as the node list -/
theorem partialUpdate (hP : P.Canonical)
    {F : PartialUpdate.Config (FSObject Ctx Val) (Pointer Ctx Val)} (hM : KeepsBlock F.mem)
    (h : Analysis P hlay T L F.mem F.walk R) {b : Builder Ctx Fun Val} (hb : R.data = .ok b)
    {self : PartialUpdate.Work} (hsz : PartialUpdate.Sized ⟨b.core, self⟩) :
    ∃ s, PartialUpdate.iteration F ⟨b.core, self⟩ = some s ∧
      Analysis P hlay T L F.mem F.walk { R with data := .ok { b with core := s.core } } := by
  have hp := (h.settled hP hM b hb).placed
  obtain ⟨s, hs, hit⟩ := PartialUpdate.iteration_exit (F := F) hp.shape.sane hsz
  exact ⟨s, hs, h.run hb hit.steps⟩

end Analysis

/-! ## a field of a local variable -/

def fieldGlobals : Except Abort (Builder Unit Unit Nat) :=
  (Builder.initial fieldProgram fieldCtx).bind (Builder.addGlobals fieldProgram fieldCtx)

def fieldRun : Option (Discovery Unit Unit Nat Nat (Except Abort (Builder Unit Unit Nat))) :=
  Discovery.buildInitCallGraph (fieldProgram.callSites fieldProgram_layout) fieldCtx
    (Builder.callBacks fieldProgram fieldCtx fieldLang) 2 () fieldGlobals

/-- the node 12 of the alloca has an offset edge to the node 13 of its field -/
theorem fieldRun_edge : ∃ R b, fieldRun = some R ∧ R.data = .ok b ∧
    13 ∈ b.core.graph.succ .offset 12 := by
  have hrun : fieldRun.any (fun R => match R.data with
      | .ok b => decide (13 ∈ b.core.graph.succ .offset 12)
      | .error _ => false) = true := by decide +kernel
  obtain ⟨R, hR, hdata⟩ := (Option.any_eq_true _ _).mp hrun
  cases hb : R.data with
  | error e =>
    rw [hb] at hdata
    cases hdata
  | ok b =>
    rw [hb] at hdata
    exact ⟨R, b, hR, hb, of_decide_eq_true hdata⟩

theorem fieldGlobals_ok : ∃ b, Builder.Globals fieldProgram fieldCtx b ∧ fieldGlobals = .ok b := by
  have hok : fieldGlobals.isOk = true := by decide +kernel
  cases hb : fieldGlobals with
  | error e =>
    rw [hb] at hok
    cases hok
  | ok b =>
    obtain ⟨b0, h0, h1⟩ := Builder.bind_ok hb
    exact ⟨b, .start h0 h1, rfl⟩

theorem offsetTargets_field : ∃ R b,
    Analysis fieldProgram fieldProgram_layout fieldCtx fieldLang fieldMem .ascending R ∧
      R.data = .ok b ∧ b.core.graph.pred .offset 13 = {12} := by
  obtain ⟨R, b, hR, hb, hedge⟩ := fieldRun_edge
  obtain ⟨b0, hglob, h0⟩ := fieldGlobals_ok
  rw [fieldRun, h0] at hR
  have hR' := Analysis.start (M := fieldMem) (w := .ascending) hglob hR
  have h := Analysis.offsetTargets fieldProgram_canonical fieldMem_keepsBlock hR' hb
  exact ⟨R, b, hR', hb, (h.1 12 13 hedge).2.2.2.2.1⟩

end AserPTA
