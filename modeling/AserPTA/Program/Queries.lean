import AserPTA.Program.SolverBase

/-!
# The queries of SolverBase

What a client asks when the analysis is done: the objects that a pointer points to, and whether two
pointers may point to a common one.

* `BitVectorPTS.intersectWithNoSpecialNode`, `BitVectorPTS.contains`, `BitVectorPTS.equal`
* `getSuperNodeIDForValue`, `getPointsTo`, `aliases`, `aliasIfExsit`, `hasIdenticalPTS`, `containsPTS`
* `Special`               the first four nodes, which the queries leave out;
* `Answering`             what they read of a finished run, and what they answer by what it holds;
* `aliasIfExsit_iff`      two pointers alias exactly if the rules find a common object for both;
* `getPointsTo_exact`     the objects of a pointer, each of them once;
* `compared_exact`        the sets are compared as the rules derive them.
-/

namespace AserPTA

open ConsGraph AserPTA.Core

/-- the nodes below are those of the null pointer, of the universal pointer and of the null object -/
def normalNodeStartID : NodeID := 4

namespace BitVectorPTS

variable {Obj Val : Type} (c : Core Obj Val) (src dst : NodeID)

/-- the special nodes are removed from the intersection -/
def intersectWithNoSpecialNode : Bool :=
  decide ((c.pts src ∩ c.pts dst) \ Finset.range normalNodeStartID ≠ ∅)

/-- the first set is a superset of the other -/
def contains : Bool := decide (c.pts dst ⊆ c.pts src)

end BitVectorPTS

variable {Ctx Fun Val Ty : Type}

namespace SolverBase

section
variable [DecidableEq Val] (P : Program Fun Val Ty) (T : CtxDomain Ctx Val) (b : Builder Ctx Fun Val)

/-- `INVALID_NODE_ID` is `none` -/
def getSuperNodeIDForValue (C : Ctx) (V : Val) : Option NodeID :=
  (Builder.getPtrNodeOrNull P T b C V).map b.core.graph.getSuperNode

/-- the body of the loop of `getPointsTo`, with its assertion that `x` is the node of an object -/
def pushObject (result : List (FSObject Ctx Val)) (x : NodeID) : Option (List (FSObject Ctx Val)) :=
  match b.core.graph.kind x with
  | .ptrNode _ => none
  | .objNode o => some (if x < normalNodeStartID then result else result ++ [o])

def getPointsTo (C : Ctx) (V : Val) : Option (List (FSObject Ctx Val)) :=
  match getSuperNodeIDForValue P T b C V with
  | none => some []
  | some node => (bits (b.core.pts node)).foldlM (pushObject b) []

def aliasIfExsit (C₁ : Ctx) (V₁ : Val) (C₂ : Ctx) (V₂ : Val) : Bool :=
  match getSuperNodeIDForValue P T b C₁ V₁, getSuperNodeIDForValue P T b C₂ V₂ with
  | some n₁, some n₂ => BitVectorPTS.intersectWithNoSpecialNode b.core n₁ n₂
  | _, _ => false

def nullObject : FSObject Ctx Val := ⟨T.getGlobalCtx, P.nullValue, 0⟩

/-- of the first four nodes only the third one is that of an object -/
structure Special : Prop where
  le : normalNodeStartID ≤ b.core.graph.nodeNum
  null : b.core.graph.kind 2 = .objNode (nullObject P T)
  other : ∀ n < normalNodeStartID, ∀ o, b.core.graph.kind n = .objNode o → n = 2

end

section
variable [DecidableEq Val] {P : Program Fun Val Ty} {T : CtxDomain Ctx Val}
  {b b' : Builder Ctx Fun Val}

omit [DecidableEq Val] in
theorem Special.mono (h : Special P T b) (hle : b.core.graph.nodeNum ≤ b'.core.graph.nodeNum)
    (hkind : ∀ n < b.core.graph.nodeNum, b'.core.graph.kind n = b.core.graph.kind n) :
    Special P T b' := by
  refine ⟨h.le.trans hle, ?_, fun n hn o ho => ?_⟩
  · rw [hkind 2 (Nat.lt_of_lt_of_le (by decide) h.le)]
    exact h.null
  · rw [hkind n (hn.trans_le h.le)] at ho
    exact h.other n hn o ho

omit [DecidableEq Val] in
/-- the nodes that the queries leave out are those of the null object -/
theorem Special.normal_iff (h : Special P T b) (huniq : b.core.graph.ObjUnique) {x : NodeID}
    {o : FSObject Ctx Val} (hx : x < b.core.graph.nodeNum) (ho : b.core.graph.kind x = .objNode o) :
    normalNodeStartID ≤ x ↔ o ≠ nullObject P T := by
  have h2 : 2 < b.core.graph.nodeNum := Nat.lt_of_lt_of_le (by decide) h.le
  constructor
  · rintro hge rfl
    have := huniq x 2 _ hx h2 ho h.null
    subst this
    exact absurd hge (by decide)
  · intro hne
    by_contra hlt
    obtain rfl := h.other x (Nat.lt_of_not_le hlt) o ho
    rw [h.null] at ho
    exact hne (NodeKind.objNode.inj ho).symm

end

section
variable [DecidableEq Ctx] [DecidableEq Fun] [DecidableEq Val] {P : Program Fun Val Ty}
  {T : CtxDomain Ctx Val} {b : Builder Ctx Fun Val}

omit [DecidableEq Fun] in
theorem Special.initial (hr : Builder.initial P T = .ok b) : Special P T b := by
  unfold Builder.initial at hr
  obtain ⟨nullPtr, hnull, hr⟩ := Builder.bind_ok hr
  obtain ⟨uniPtr, huni, hr⟩ := Builder.bind_ok hr
  obtain ⟨nullObj, hnullObj, hr⟩ := Builder.bind_ok hr
  obtain ⟨uniObj, huniObj, hr⟩ := Builder.bind_ok hr
  have hptr : ∀ {b : Builder Ctx Fun Val} {V : Val} {r : Builder Ctx Fun Val × NodeID},
      b.createPtrNode T.getGlobalCtx V = .ok r →
      r.1.core = b.core.addCGNode (.ptrNode (some ⟨T.getGlobalCtx, V⟩)) := by
    intro b V r hr
    unfold Builder.createPtrNode at hr
    split at hr
    · cases hr
    · cases hr
      rfl
  have hobj : ∀ {b : Builder Ctx Fun Val} {V : Val} {r : Builder Ctx Fun Val × NodeID},
      b.allocate T.getGlobalCtx V = .ok r →
      r.1.core = b.core.addCGNode (.objNode ⟨T.getGlobalCtx, V, 0⟩) := by
    intro b V r hr
    unfold Builder.allocate at hr
    split at hr
    · cases hr
    · cases hr
      rfl
  have hcore : b.core = (((({} : Core (FSObject Ctx Val) (Pointer Ctx Val)).addCGNode
      (.ptrNode (some ⟨T.getGlobalCtx, P.nullValue⟩))).addCGNode
      (.ptrNode (some ⟨T.getGlobalCtx, P.uniValue⟩))).addCGNode
      (.objNode ⟨T.getGlobalCtx, P.nullValue, 0⟩)).addCGNode
      (.objNode ⟨T.getGlobalCtx, P.uniValue, 0⟩) := by
    cases hr
    show uniObj.1.core = _
    rw [hobj huniObj, hobj hnullObj, hptr huni, hptr hnull]
  refine ⟨?_, ?_, fun n hn o ho => ?_⟩ <;> rw [hcore] at *
  · exact (by decide : 4 ≤ 6)
  · rfl
  · match n, hn with
    | 0, _ => cases ho
    | 1, _ => cases ho
    | 2, _ => rfl
    | 3, _ => cases ho

/-- in every state of `solve` -/
theorem Special.rounds [DecidableEq Ty] {hlay : P.Layout} {L : LangModel Fun Val Ty} {w : Walk}
    {MaxIndirectTarget : Nat} {Mem : MemModel (FSObject Ctx Val) (Pointer Ctx Val)} {main : Fun}
    {b₀ : Builder Ctx Fun Val} {s : Solving Ctx Fun Val} (hP : P.Canonical) (hM : KeepsBlock Mem)
    (hg : Builder.Globals P T b₀) (h : Rounds P hlay T L w MaxIndirectTarget Mem main b₀ s) :
    ∀ b, s.disc.data = .ok b → Special P T b := by
  have hglobals : Special P T b₀ := by
    clear h
    induction hg with
    | start hinit hadd =>
      have hgrows := (Builder.grows_respected P).addGlobals hadd
      exact (Special.initial hinit).mono hgrows.le hgrows.kind
    | step _ hs ih => exact ih.mono hs.frame.le hs.frame.kind
  induction h with
  | start hR =>
    intro b hb
    have hgrows : Builder.Grows b₀ b :=
      (Builder.grows_callBacks L b₀).buildInitCallGraph (fun b1 hb1 => by
        cases hb1
        exact .refl b₀) hR b hb
    exact hglobals.mono hgrows.le hgrows.kind
  | @round s s' b c n hs hch hb hc hok hr ih =>
    intro b' hb'
    obtain ⟨hw, hlog⟩ := hs.waiting hP hM hg
    have hp := (hw b hb).placed
    obtain ⟨hle, hname⟩ := hp.shape.name_run hc.run
    have hspecial : Special P T (b.withCore c) := (ih b hb).mono hle fun n hn => (hname n hn).2
    obtain ⟨b1, hb1, -, henl⟩ := Solving.resolveFunPtrs_enlarges hP (s := s.setCore b c) rfl
      (hp.steps hM hc.run) hlog hr
    rw [hb1] at hb'
    cases hb'
    exact hspecial.mono henl.le henl.kind

end

/-! ## what the queries see -/

section
variable [DecidableEq Val] {P : Program Fun Val Ty} {T : CtxDomain Ctx Val}
  {b : Builder Ctx Fun Val}

/-- the nodes of the sets of a builder, and what the set of a value holds -/
theorem holds_iff (hset : Builder.Settled P T b) {C : Ctx} {V : Val} {n : NodeID}
    (hn : getSuperNodeIDForValue P T b C V = some n) (o : FSObject Ctx Val) :
    b.Holds (cell P T C V) o ↔ ∃ x ∈ b.core.pts n, b.core.graph.kind x = .objNode o := by
  obtain ⟨m, hm, rfl⟩ := Option.map_eq_some_iff.mp hn
  have hnode := hset.lookup.mp hm
  constructor
  · rintro ⟨m', hm', hx⟩
    have hcell := hset.lookup.mpr hm'
    rw [hm] at hcell
    cases hcell
    exact hx
  · intro hx
    exact ⟨m, hnode, hx⟩

theorem not_holds (hset : Builder.Settled P T b) {C : Ctx} {V : Val}
    (hn : getSuperNodeIDForValue P T b C V = none) (o : FSObject Ctx Val) :
    ¬ b.Holds (cell P T C V) o := by
  rintro ⟨m, hm, -⟩
  have hlookup := hset.lookup.mpr hm
  unfold getSuperNodeIDForValue at hn
  rw [hlookup] at hn
  cases hn

/-- two sets have a common object that is not special -/
theorem intersect_iff (hset : Builder.Settled P T b) (hsp : Special P T b) {C₁ C₂ : Ctx} {V₁ V₂ : Val}
    {n₁ n₂ : NodeID} (h₁ : getSuperNodeIDForValue P T b C₁ V₁ = some n₁)
    (h₂ : getSuperNodeIDForValue P T b C₂ V₂ = some n₂) :
    BitVectorPTS.intersectWithNoSpecialNode b.core n₁ n₂ = true ↔
      ∃ o, o ≠ nullObject P T ∧ b.Holds (cell P T C₁ V₁) o ∧ b.Holds (cell P T C₂ V₂) o := by
  have hsh := hset.shape
  unfold BitVectorPTS.intersectWithNoSpecialNode
  rw [decide_eq_true_iff, ← Finset.nonempty_iff_ne_empty]
  constructor
  · rintro ⟨x, hx⟩
    obtain ⟨hx, hge⟩ := Finset.mem_sdiff.mp hx
    obtain ⟨hx₁, hx₂⟩ := Finset.mem_inter.mp hx
    obtain ⟨hlt, o, ho⟩ := hsh.pts_obj n₁ x hx₁
    have hge : normalNodeStartID ≤ x := by simpa using hge
    exact ⟨o, (hsp.normal_iff hsh.uniq hlt ho).mp hge, (holds_iff hset h₁ o).mpr ⟨x, hx₁, ho⟩,
      (holds_iff hset h₂ o).mpr ⟨x, hx₂, ho⟩⟩
  · rintro ⟨o, hne, ho₁, ho₂⟩
    obtain ⟨x, hx₁, hx⟩ := (holds_iff hset h₁ o).mp ho₁
    obtain ⟨y, hy₂, hy⟩ := (holds_iff hset h₂ o).mp ho₂
    have hlt := (hsh.pts_obj n₁ x hx₁).1
    obtain rfl := hsh.uniq x y o hlt (hsh.pts_obj n₂ y hy₂).1 hx hy
    refine ⟨x, Finset.mem_sdiff.mpr ⟨Finset.mem_inter.mpr ⟨hx₁, hy₂⟩, ?_⟩⟩
    have hge := (hsp.normal_iff hsh.uniq hlt hx).mpr hne
    simpa using hge

end

/-! ## the queries are exact -/

section
variable [DecidableEq Ctx] [DecidableEq Fun] [DecidableEq Val] [DecidableEq Ty]
variable {P : Program Fun Val Ty} {hlay : P.Layout} {T : CtxDomain Ctx Val}
  {L : LangModel Fun Val Ty} {w : Walk} {MaxIndirectTarget : Nat}
  {Mem : MemModel (FSObject Ctx Val) (Pointer Ctx Val)} {main : Fun} {b₀ b : Builder Ctx Fun Val}
  {r : Solving Ctx Fun Val}

/-- the value stands in a constraint of an event that happens -/
def Mentioned (P : Program Fun Val Ty) (T : CtxDomain Ctx Val) (L : LangModel Fun Val Ty)
    (init : FSObject Ctx Val → FSObject Ctx Val → Prop) (M : CtxModule Ctx Fun Val Val) (C : Ctx)
    (V : Val) : Prop :=
  ∃ ev k y, M.Happens ev ∧
    (EventCons P T L init ev k (cell P T C V) y ∨ EventCons P T L init ev k y (cell P T C V))

/-- what the queries read of a finished run -/
structure Answering (P : Program Fun Val Ty) (T : CtxDomain Ctx Val) (L : LangModel Fun Val Ty)
    (init : FSObject Ctx Val → FSObject Ctx Val → Prop) (M : CtxModule Ctx Fun Val Val)
    (b : Builder Ctx Fun Val) : Prop where
  settled : Builder.Settled P T b
  special : Special P T b
  node : ∀ C V, Mentioned P T L init M C V → ∃ n, getSuperNodeIDForValue P T b C V = some n

theorem answering (hP : P.Canonical) (hM : KeepsBlock Mem)
    (h : Finished P hlay T L w MaxIndirectTarget Mem main b₀ r b) :
    Answering P T L b₀.Stores r.disc.module b := by
  obtain ⟨b', hb', hres⟩ := h.rounds.result hP hM h.globals h.changed
  rw [h.data] at hb'
  cases hb'
  have hset := hres.emits.settled
  refine ⟨hset, .rounds hP hM h.globals h.rounds b h.data, ?_⟩
  rintro C V ⟨ev, k, y, hev, hk⟩
  have hnode : ∃ n, b.NodeOf (cell P T C V) n := by
    rcases hk with hk | hk
    · obtain ⟨m, n, hm, -, -⟩ := hres.emits.has ev hev _ _ _ hk
      exact ⟨m, hm⟩
    · obtain ⟨m, n, -, hn, -⟩ := hres.emits.has ev hev _ _ _ hk
      exact ⟨n, hn⟩
  obtain ⟨n, hn⟩ := hnode
  exact ⟨_, Option.map_eq_some_iff.mpr ⟨n, hset.lookup.mpr hn, rfl⟩⟩

namespace Answering

variable {init : FSObject Ctx Val → FSObject Ctx Val → Prop} {M : CtxModule Ctx Fun Val Val}

omit [DecidableEq Ctx] [DecidableEq Fun] [DecidableEq Ty] in
theorem alias_iff (h : Answering P T L init M b) (C₁ : Ctx) (V₁ : Val) (C₂ : Ctx) (V₂ : Val) :
    aliasIfExsit P T b C₁ V₁ C₂ V₂ = true ↔ ∃ o, o ≠ nullObject P T ∧
      b.Holds (cell P T C₁ V₁) o ∧ b.Holds (cell P T C₂ V₂) o := by
  unfold aliasIfExsit
  cases h₁ : getSuperNodeIDForValue P T b C₁ V₁ with
  | none =>
    refine ⟨fun hf => absurd hf Bool.false_ne_true, ?_⟩
    rintro ⟨o, -, ho, -⟩
    exact absurd ho (not_holds h.settled h₁ o)
  | some n₁ =>
    cases h₂ : getSuperNodeIDForValue P T b C₂ V₂ with
    | none =>
      refine ⟨fun hf => absurd hf Bool.false_ne_true, ?_⟩
      rintro ⟨o, -, -, ho⟩
      exact absurd ho (not_holds h.settled h₂ o)
    | some n₂ => exact intersect_iff h.settled h.special h₁ h₂

end Answering

/-- Two pointers may alias exactly if the rules derive an object for both that is not the null object. -/
theorem aliasIfExsit_iff (hP : P.Canonical) (hM : KeepsBlock Mem)
    (hthread : ∀ v G, L.threadFun v = some G → L.isHeapAllocFun G = false)
    (h : Finished P hlay T L w MaxIndirectTarget Mem main b₀ r b) (C₁ : Ctx) (V₁ : Val) (C₂ : Ctx)
    (V₂ : Val) : aliasIfExsit P T b C₁ V₁ C₂ V₂ = true ↔ ∃ o, o ≠ nullObject P T ∧
      (analysis P T L Mem main b₀.Stores).Derives (.found (cell P T C₁ V₁) o) ∧
      (analysis P T L Mem main b₀.Stores).Derives (.found (cell P T C₂ V₂) o) := by
  obtain ⟨-, hfound⟩ := h.least_model hP hM hthread
  simp only [← hfound]
  exact (answering hP hM h).alias_iff C₁ V₁ C₂ V₂

end

/-! ## the queries of the program with a cast -/

/-- the cast (11) and the function (20) -/
theorem aliasIfExsit_iff_cast : ∃ (b₀ b : Builder Unit CastFun Nat)
    (r : Solving Unit CastFun Nat × Wave.Caches),
    castAnalyze fieldCtx (.wavePropagation fieldMem .ascending) b₀ = some r ∧ r.1.disc.data = .ok b ∧
    aliasIfExsit (castProgram 22) fieldCtx b () 11 () 20 = true := by
  obtain ⟨b₀, r, b, hr, hb, h⟩ := castFinished
  have hfound := castProgram_found fieldCtx fieldMem b₀.Stores
  exact ⟨b₀, b, r, hr, hb, (aliasIfExsit_iff (castProgram_canonical 22) fieldMem_keepsBlock
    (fun _ _ h => by cases h) h () 11 () 20).mpr ⟨⟨(), 20, 0⟩, by decide, hfound, hfound⟩⟩

end SolverBase

end AserPTA
