import AserPTA.Program.Emission
import AserPTA.Program.Traversal

/-!
# Every event has its constraints

The functions that are reached and the calls between them are the events of the rules.  In every state of
the analysis the graph has the constraints of all of them.

* `Happens`        the events of a call graph;
* `Settled.steps`    a solver keeps the builder's invariant and loses no constraint;
* `Leads.direct`   what the interceptions say of a call that leads to a function;
* `Emits`          the graph has the constraints of the events, and the nodes that are not expanded need
                   not be;
* `emits_follows`  the traversal keeps it.
-/

namespace AserPTA

open ConsGraph AserPTA.Core Loop Relation

variable {Ctx Fun Val Ty : Type}

/-- the event happens in the call graph -/
inductive CtxModule.Happens (M : CtxModule Ctx Fun Val Val) : Event Ctx Fun Val → Prop where
  | program : M.Happens .program
  | body {id : CallNodeID} {f : CtxFunction Ctx Fun Val} : M.nodes[id]? = some (.direct f) →
      f.isExt = false → M.Happens (.body f.context f.function)
  | call {e : CallEdge Val} {f g : CtxFunction Ctx Fun Val} : e ∈ M.edges →
      M.nodes[e.src]? = some (.direct f) → M.nodes[e.dst]? = some (.direct g) →
      M.Happens (.call f.context e.inst g.function)

namespace CtxModule

variable {M M' : CtxModule Ctx Fun Val Val}

/-- the edges lead between nodes -/
def EdgesIn (M : CtxModule Ctx Fun Val Val) : Prop :=
  ∀ e ∈ M.edges, e.src < M.nodes.length ∧ e.dst < M.nodes.length

/-! ### a node is added -/

theorem node_of_append {n m : CallGraphNode Ctx Fun Val Val} (hnodes : M'.nodes = M.nodes ++ [n])
    {id : CallNodeID} (hm : M'.nodes[id]? = some m) : M.nodes[id]? = some m ∨ m = n := by
  rw [hnodes] at hm
  rcases Nat.lt_or_ge id M.nodes.length with hlt | hge
  · rw [List.getElem?_append_left hlt] at hm
    exact .inl hm
  · rw [List.getElem?_append_right hge] at hm
    exact .inr (List.mem_singleton.mp (List.mem_of_getElem? hm))

theorem Extends.of_append {n : CallGraphNode Ctx Fun Val Val} (hnodes : M'.nodes = M.nodes ++ [n])
    (hedges : M'.edges = M.edges) : M.Extends M' := by
  refine .of_nodes (fun e he => hedges ▸ he) fun i m hm => ?_
  rw [hnodes, List.getElem?_append_left (List.getElem?_eq_some_iff.mp hm).1]
  exact hm

theorem EdgesIn.addNode (h : M.EdgesIn) {n : CallGraphNode Ctx Fun Val Val}
    (hnodes : M'.nodes = M.nodes ++ [n]) (hedges : M'.edges = M.edges) : M'.EdgesIn := by
  intro e he
  rw [hedges] at he
  obtain ⟨h1, h2⟩ := h e he
  rw [hnodes, List.length_append]
  exact ⟨Nat.lt_add_right _ h1, Nat.lt_add_right _ h2⟩

/-- a new node has no edge -/
theorem Happens.of_addNode {ev : Event Ctx Fun Val} (h : M'.Happens ev) (hM : M.EdgesIn)
    {n : CallGraphNode Ctx Fun Val Val} (hnodes : M'.nodes = M.nodes ++ [n])
    (hedges : M'.edges = M.edges) :
    M.Happens ev ∨ ∃ f, n = .direct f ∧ f.isExt = false ∧ ev = .body f.context f.function := by
  have hold : ∀ (id : CallNodeID) m, id < M.nodes.length → M'.nodes[id]? = some m →
      M.nodes[id]? = some m := by
    intro id m hlt hm
    rwa [hnodes, List.getElem?_append_left hlt] at hm
  cases h with
  | program => exact .inl .program
  | body hf hb =>
    rcases node_of_append hnodes hf with hf | hn
    · exact .inl (.body hf hb)
    · exact .inr ⟨_, hn.symm, hb, rfl⟩
  | call he hf hg =>
    rw [hedges] at he
    obtain ⟨h1, h2⟩ := hM _ he
    exact .inl (.call he (hold _ _ h1 hf) (hold _ _ h2 hg))

/-! ### an edge is added -/

section
variable [DecidableEq Val] {e : CallEdge Val}

theorem EdgesIn.insertEdge (h : M.EdgesIn) (hlt : e.src < M.nodes.length ∧ e.dst < M.nodes.length) :
    (M.insertEdge e).EdgesIn := by
  intro e' he'
  rw [insertEdge_nodes]
  rcases (mem_insertEdge ..).mp he' with he' | rfl
  · exact h e' he'
  · exact hlt

theorem Happens.of_insertEdge {ev : Event Ctx Fun Val} (h : (M.insertEdge e).Happens ev) :
    M.Happens ev ∨ ∃ f g, M.nodes[e.src]? = some (.direct f) ∧ M.nodes[e.dst]? = some (.direct g) ∧
      ev = .call f.context e.inst g.function := by
  cases h with
  | program => exact .inl .program
  | body hf hb =>
    rw [insertEdge_nodes] at hf
    exact .inl (.body hf hb)
  | @call e' f g he' hf hg =>
    rw [insertEdge_nodes] at hf hg
    rcases (mem_insertEdge ..).mp he' with he' | rfl
    · exact .inl (.call he' hf hg)
    · exact .inr ⟨f, g, hf, hg, rfl⟩

end

/-! ### a call gets other targets -/

variable {id : CallNodeID} {c c' : InDirectCallSite Ctx Fun Val Val}

theorem setCall_direct (hc : M.nodes[id]? = some (.inDirect c)) (hs : c.Same c') {i : CallNodeID}
    {f : CtxFunction Ctx Fun Val} (hf : (M.setCall id c').nodes[i]? = some (.direct f)) :
    M.nodes[i]? = some (.direct f) := by
  obtain ⟨n, hn, -, hback⟩ := setCall_back hc hs hf
  rw [hback f rfl] at hn
  exact hn

/-- an indirect node is the one that it was but for the targets -/
theorem setCall_inDirect (hc : M.nodes[id]? = some (.inDirect c)) (hs : c.Same c') {i : CallNodeID}
    {d : InDirectCallSite Ctx Fun Val Val} (hd : (M.setCall id c').nodes[i]? = some (.inDirect d)) :
    ∃ d₀, M.nodes[i]? = some (.inDirect d₀) ∧ d₀.Same d := by
  by_cases hi : i = id
  · subst hi
    rw [setCall_self hc] at hd
    cases hd
    exact ⟨c, hc, hs⟩
  · rw [setCall_of_ne hi] at hd
    exact ⟨d, hd, .refl d⟩

theorem EdgesIn.setCall (h : M.EdgesIn) : (M.setCall id c').EdgesIn := by
  intro e he
  show e.src < (M.nodes.set id _).length ∧ e.dst < (M.nodes.set id _).length
  rw [List.length_set]
  exact h e he

theorem Happens.of_setCall (hc : M.nodes[id]? = some (.inDirect c)) (hs : c.Same c')
    {ev : Event Ctx Fun Val} (h : (M.setCall id c').Happens ev) : M.Happens ev := by
  cases h with
  | program => exact .program
  | body hf hb => exact .body (setCall_direct hc hs hf) hb
  | call he hf hg => exact .call he (setCall_direct hc hs hf) (setCall_direct hc hs hg)

end CtxModule

namespace Builder

variable {P : Program Fun Val Ty} {T : CtxDomain Ctx Val} {b b' : Builder Ctx Fun Val}

/-- the builder with another graph -/
abbrev withCore (b : Builder Ctx Fun Val) (c : Core (FSObject Ctx Val) (Pointer Ctx Val)) :
    Builder Ctx Fun Val := { b with core := c }

section
variable [DecidableEq Ctx] [DecidableEq Val] {M : MemModel (FSObject Ctx Val) (Pointer Ctx Val)}
  {w : Walk} {c : Core (FSObject Ctx Val) (Pointer Ctx Val)}

theorem Placed.steps (hM : KeepsBlock M) (h : Placed P T b) (hs : Steps M w b.core c) :
    Placed P T (b.withCore c) := by
  induction hs with
  | refl => exact h
  | tail _ hs ih => exact ih.step hM hs

theorem Settled.steps (hM : KeepsBlock M) (h : Settled P T b) (hs : Steps M w b.core c) :
    Settled P T (b.withCore c) :=
  ⟨h.placed.steps hM hs, h.null_ptr, h.uni_ptr⟩

omit [DecidableEq Ctx] [DecidableEq Val] in
theorem NodeOf.kinds (hle : b.core.graph.nodeNum ≤ c.graph.nodeNum)
    (hk : ∀ n < b.core.graph.nodeNum, c.graph.kind n = b.core.graph.kind n)
    {x : Cell Ctx Fun Val} {n : NodeID} (hx : b.NodeOf x n) : (b.withCore c).NodeOf x n := by
  cases x with
  | ptr C V => exact hx
  | ret C F => exact hx
  | obj o => exact ⟨hx.1.trans_le hle, (hk n hx.1).trans hx.2⟩

theorem Settled.nodeOf_steps (h : Settled P T b) (hs : Steps M w b.core c) {x : Cell Ctx Fun Val}
    {n : NodeID} (hx : b.NodeOf x n) : (b.withCore c).NodeOf x n := by
  obtain ⟨hle, hname⟩ := h.shape.name_run hs
  exact hx.kinds hle fun n hn => (hname n hn).2

theorem Settled.has_steps (h : Settled P T b) (hs : Steps M w b.core c) {k : Constraints}
    {x y : Cell Ctx Fun Val} (hc : b.Has k x y) : (b.withCore c).Has k x y := by
  obtain ⟨m, n, hx, hy, hcov⟩ := hc
  have hk : k.stored ≠ .addrOf := by
    unfold Constraints.stored
    split
    · decide
    · assumption
  exact ⟨m, n, h.nodeOf_steps hs hx, h.nodeOf_steps hs hy, h.shape.covers_run hs hk hcov⟩

end

end Builder

namespace Discovery

variable [DecidableEq Ctx] [DecidableEq Fun] [DecidableEq Val] [DecidableEq Ty]
variable {P : Program Fun Val Ty} {hlay : P.Layout} {T : CtxDomain Ctx Val}
  {L : LangModel Fun Val Ty} {A : Ctx → Val → Fun → Prop}

/-- a call of a function goes to `G` after its interception -/
theorem Leads.direct {C C' : Ctx} {I : Val} {G : Fun} {option : InterceptOption}
    (h : Leads (P.callSites hlay) T (Builder.callBacks P T L) A C I (.direct C' G) option) :
    C' = T.contextEvolve C I ∧ ∃ fn, Redirects P L I fn G ∧
      option = (Builder.overrideFunction P L fn I).option ∧
      ((P.callSites hlay).getTargetFunction I = some fn ∨ A C I fn) := by
  generalize hk : CallKey.direct C' G = k at h
  cases h with
  | visit hcall =>
    subst hk
    unfold callee at hcall
    split at hcall
    · cases hcall
    · rename_i fn hfn
      split at hcall
      · cases hcall
      · rename_i hig
        unfold Discovery.target at hcall
        split at hcall
        · rename_i F hF
          cases hcall
          refine ⟨rfl, fn, ⟨hF, hig⟩, ?_, .inl hfn⟩
          unfold optionOf
          rw [hfn]
          rfl
        · cases hcall
  | target hA hG hig =>
    cases hk
    exact ⟨rfl, _, ⟨hG, hig⟩, rfl, .inr hA⟩

/-- what making the node of a function does to the builder -/
theorem discover_callBacks (R : Discovery Ctx Fun Val Val (Except Abort (Builder Ctx Fun Val)))
    (C : Ctx) (G : Fun) (I : Val) (option : InterceptOption) :
    let R1 := discover (Builder.callBacks P T L) R C G I option
    R1.module.nodes = R.module.nodes ++
        [.direct ⟨C, G, some I, !(decide (option = .expandBody) && P.hasBody G)⟩] ∧
      R1.module.edges = R.module.edges ∧
      R1.data = if option = .expandBody then R.data.bind (Builder.initFunction P T · C G)
        else R.data := by
  have hmod : ∀ n : CallGraphNode Ctx Fun Val Val,
      (R.module.nodes ++ [n]).modify R.module.nodes.length CallGraphNode.markAsExtFunction =
        R.module.nodes ++ [n.markAsExtFunction] := by
    intro n
    rw [List.modify_eq_take_cons_drop (by simp)]
    simp
  have hnode : (R.module.createCallNode C G (some I)).1.nodes[R.module.nodes.length]? =
      some (.direct ⟨C, G, some I, false⟩) := by
    show (R.module.nodes ++ [_])[R.module.nodes.length]? = _
    simp
  have hcall : (Builder.callBacks P T L).onNewDirect (R.module.createCallNode C G (some I)).1
      (R.module.createCallNode C G (some I)).2 R.data =
      (R.data.bind (Builder.initFunction P T · C G), P.hasBody G) := by
    unfold Builder.callBacks
    dsimp only
    rw [show (R.module.createCallNode C G (some I)).2 = R.module.nodes.length from rfl, hnode]
  unfold discover createDirect
  cases option with
  | expandBody =>
    dsimp only
    rw [hcall]
    cases P.hasBody G with
    | true => simp [CtxModule.createCallNode]
    | false => simp [CtxModule.createCallNode, CtxModule.markAsExtFunction, hmod,
        CallGraphNode.markAsExtFunction]
  | onlyCallSite => simp [CtxModule.createCallNode, CtxModule.markAsExtFunction, hmod,
      CallGraphNode.markAsExtFunction]
  | ignore => simp [CtxModule.createCallNode, CtxModule.markAsExtFunction, hmod,
      CallGraphNode.markAsExtFunction]

/-- what making the node of an indirect call does to the builder -/
theorem discoverIndirect_callBacks (R : Discovery Ctx Fun Val Val (Except Abort (Builder Ctx Fun Val)))
    (C : Ctx) (I : Val) (target : Option Val) {V : Val}
    (hV : (InDirectCallSite.mk C I target [] [] : InDirectCallSite Ctx Fun Val Val).getValue P =
      some V) :
    let R1 := discoverIndirect (Builder.callBacks P T L) R C I target
    R1.module.nodes = R.module.nodes ++ [.inDirect ⟨C, I, target, [], []⟩] ∧
      R1.module.edges = R.module.edges ∧
      R1.data = R.data.bind (Builder.initIndirectCall P T · C V R.module.nodes.length) := by
  have hnode : (R.module.createIndCallNode C target I).1.nodes[R.module.nodes.length]? =
      some (.inDirect ⟨C, I, target, [], []⟩) := by
    show (R.module.nodes ++ [_])[R.module.nodes.length]? = _
    simp
  refine ⟨rfl, rfl, ?_⟩
  show (Builder.callBacks P T L).onNewInDirect (R.module.createIndCallNode C target I).1
    R.module.nodes.length R.data = _
  unfold Builder.callBacks
  dsimp only
  rw [hnode]
  dsimp only
  rw [hV]

end Discovery

/-! ## the constraints of the events -/

section
variable [DecidableEq Ctx] [DecidableEq Fun] [DecidableEq Val] [DecidableEq Ty]

structure Emits (P : Program Fun Val Ty) (T : CtxDomain Ctx Val) (L : LangModel Fun Val Ty)
    (init : FSObject Ctx Val → FSObject Ctx Val → Prop) (M : CtxModule Ctx Fun Val Val)
    (b : Builder Ctx Fun Val) : Prop where
  settled : Builder.Settled P T b
  has : ∀ ev, M.Happens ev → ∀ k x y, EventCons P T L init ev k x y → b.Has k x y
  body : ∀ (id : CallNodeID) (f : CtxFunction Ctx Fun Val), M.nodes[id]? = some (.direct f) →
    f.isExt = false → P.hasBody f.function = true
  external : ∀ (id : CallNodeID) (g : CtxFunction Ctx Fun Val), M.nodes[id]? = some (.direct g) →
    g.isExt = true → L.isHeapAllocFun g.function = true ∨ P.hasBody g.function = false
  pending : ∀ (id : CallNodeID) (c : InDirectCallSite Ctx Fun Val Val),
    M.nodes[id]? = some (.inDirect c) → Pending P L c.callSite c.funPtr
  edge_lt : M.EdgesIn

variable {P : Program Fun Val Ty} {hlay : P.Layout} {T : CtxDomain Ctx Val}
  {L : LangModel Fun Val Ty} {A : Ctx → Val → Fun → Prop}
  {init : FSObject Ctx Val → FSObject Ctx Val → Prop} {M M' : CtxModule Ctx Fun Val Val}
  {b b' : Builder Ctx Fun Val}

omit [DecidableEq Ctx] [DecidableEq Fun] [DecidableEq Ty] in
theorem legal_body (hP : P.Canonical) (C : Ctx) (F : Fun) : Builder.Legal P T fun k x y =>
    P.hasBody F = true ∧ ∃ I ∈ P.insts F, InstCons P T C F I k x y := by
  refine ⟨?_, ?_, ?_⟩
  · rintro x y ⟨-, I, -, hI⟩
    exact (legal_inst hP C F I).addrOf x y hI
  · rintro k x C' V hk ⟨-, I, -, hI⟩
    exact (legal_inst hP C F I).fed k x C' V hk hI
  · rintro x y ⟨-, I, -, hI⟩
    exact (legal_inst hP C F I).offset x y hI

omit [DecidableEq Ty] in
/-- the body of a function with a body, or nothing, is emitted -/
theorem Builder.Settled.initBody (hP : P.Canonical) (h : Builder.Settled P T b) {C : Ctx} {F : Fun}
    (hr : Builder.initFunction P T b C F = .ok b') :
    Builder.Emitted P T (fun k x y => P.hasBody F = true ∧ ∃ I ∈ P.insts F, InstCons P T C F I k x y)
      b b' := by
  by_cases hbody : P.hasBody F = true
  · have he := h.initFunction hP hbody hr
    have hmono : ∀ k x y, (∃ I ∈ P.insts F, InstCons P T C F I k x y) →
        P.hasBody F = true ∧ ∃ I ∈ P.insts F, InstCons P T C F I k x y := fun _ _ _ hI => ⟨hbody, hI⟩
    exact ⟨Builder.Additions.mono hmono he.additions, fun k x y hk => he.has k x y hk.2⟩
  · unfold Builder.initFunction at hr
    rw [if_neg hbody] at hr
    cases hr
    exact .none .refl fun k x y hk => hbody hk.1

namespace Emits

omit [DecidableEq Ctx] [DecidableEq Fun] [DecidableEq Ty] in
/-- a node is added -/
theorem addNode (h : Emits P T L init M b) {n : CallGraphNode Ctx Fun Val Val}
    (hnodes : M'.nodes = M.nodes ++ [n]) (hedges : M'.edges = M.edges) (hr : Builder.Settled P T b')
    (hg : Builder.Grows b b')
    (hbody : ∀ f, n = .direct f → f.isExt = false → P.hasBody f.function = true ∧
      ∀ I ∈ P.insts f.function, ∀ k x y, InstCons P T f.context f.function I k x y → b'.Has k x y)
    (hext : ∀ g, n = .direct g → g.isExt = true →
      L.isHeapAllocFun g.function = true ∨ P.hasBody g.function = false)
    (hpend : ∀ c, n = .inDirect c → Pending P L c.callSite c.funPtr) : Emits P T L init M' b' := by
  have hkeep : ∀ k x y, b.Has k x y → b'.Has k x y :=
    fun k x y hc => hc.grows hg h.settled.shape.inv hr.shape.inv
  refine ⟨hr, fun ev hev k x y hk => ?_, fun id f hf hb => ?_, fun id g hg' he => ?_,
    fun id c hc => ?_, h.edge_lt.addNode hnodes hedges⟩
  · rcases hev.of_addNode h.edge_lt hnodes hedges with hev | ⟨f, hn, hb, rfl⟩
    · exact hkeep k x y (h.has ev hev k x y hk)
    · cases hk with
      | body hI hk => exact (hbody f hn hb).2 _ hI k x y hk
  · rcases CtxModule.node_of_append hnodes hf with hf | hn
    · exact h.body id f hf hb
    · exact (hbody f hn.symm hb).1
  · rcases CtxModule.node_of_append hnodes hg' with hg' | hn
    · exact h.external id g hg' he
    · exact hext g hn.symm he
  · rcases CtxModule.node_of_append hnodes hc with hc | hn
    · exact h.pending id c hc
    · exact hpend c hn.symm

omit [DecidableEq Ctx] [DecidableEq Fun] [DecidableEq Ty] in
/-- an edge is added -/
theorem addEdge (h : Emits P T L init M b) (e : CallEdge Val) (hr : Builder.Settled P T b')
    (hg : Builder.Grows b b') (hlt : e.src < M.nodes.length ∧ e.dst < M.nodes.length)
    (hcall : ∀ f g, M.nodes[e.src]? = some (.direct f) → M.nodes[e.dst]? = some (.direct g) →
      ∀ k x y, CallCons P T L f.context e.inst g.function k x y → b'.Has k x y) :
    Emits P T L init (M.insertEdge e) b' := by
  have hnodes : (M.insertEdge e).nodes = M.nodes := CtxModule.insertEdge_nodes _ _
  have hkeep : ∀ k x y, b.Has k x y → b'.Has k x y :=
    fun k x y hc => hc.grows hg h.settled.shape.inv hr.shape.inv
  refine ⟨hr, fun ev hev k x y hk => ?_, by rw [hnodes]; exact h.body,
    by rw [hnodes]; exact h.external, by rw [hnodes]; exact h.pending, h.edge_lt.insertEdge hlt⟩
  rcases hev.of_insertEdge with hev | ⟨f, g, hf, hg', rfl⟩
  · exact hkeep k x y (h.has ev hev k x y hk)
  · cases hk with
    | call hk => exact hcall f g hf hg' k x y hk

omit [DecidableEq Ctx] [DecidableEq Fun] [DecidableEq Ty] in
/-- a call gets other targets -/
theorem setCall (h : Emits P T L init M b) {id : CallNodeID}
    {c c' : InDirectCallSite Ctx Fun Val Val} (hc : M.nodes[id]? = some (.inDirect c))
    (hs : c.Same c') : Emits P T L init (M.setCall id c') b := by
  refine ⟨h.settled, fun ev hev => h.has ev (hev.of_setCall hc hs),
    fun i f hf => h.body i f (CtxModule.setCall_direct hc hs hf),
    fun i g hg => h.external i g (CtxModule.setCall_direct hc hs hg), fun i d hd => ?_, h.edge_lt.setCall⟩
  obtain ⟨d₀, hd₀, hsame⟩ := CtxModule.setCall_inDirect hc hs hd
  rw [hsame.callSite, hsame.funPtr]
  exact h.pending i d₀ hd₀

end Emits

/-! ## the traversal keeps them -/

omit [DecidableEq Ctx] [DecidableEq Fun] [DecidableEq Val] [DecidableEq Ty] in
/-- only the body of an allocation function is not wanted -/
theorem overrideFunction_onlyCallSite {F G : Fun} {I : Val}
    (h : (Builder.overrideFunction P L F I).option ≠ .expandBody) (hr : Redirects P L I F G) :
    L.isHeapAllocFun G = true := by
  obtain ⟨hred, hig⟩ := hr
  unfold Builder.overrideFunction at h hred hig
  split at h
  · rename_i hheap
    rw [if_pos hheap] at hred
    cases hred
    exact hheap
  · rename_i hheap
    rw [if_neg hheap] at hig
    split at h
    · rename_i hint
      rw [if_pos hint] at hig
      exact absurd rfl hig
    · split at h
      · split at h
        · exact absurd rfl h
        · split at h <;> exact absurd rfl h
      · exact absurd rfl h

omit [DecidableEq Fun] [DecidableEq Val] [DecidableEq Ty] in
theorem mem_calls {F : Fun} {I : Val} :
    I ∈ (P.callSites hlay).calls F ↔ I ∈ P.insts F ∧ ∃ cs, (P.instr I).callInst = some cs := by
  show I ∈ (P.insts F).filter _ ↔ _
  rw [List.mem_filter, Option.isSome_iff_exists]

omit [DecidableEq Ctx] [DecidableEq Fun] [DecidableEq Val] [DecidableEq Ty] in
theorem Pending.value {I : Val} {funPtr : Option Val} (h : Pending P L I funPtr) (C : Ctx) :
    ∃ V, (InDirectCallSite.mk C I funPtr [] [] : InDirectCallSite Ctx Fun Val Val).getValue P =
      some V := by
  cases h with
  | redirected _ _ _ _ => exact ⟨_, rfl⟩
  | @indirect cs hcs _ =>
    refine ⟨cs.calledValue, ?_⟩
    show (P.instr I).callInst.map (·.calledValue) = _
    rw [hcs]
    rfl

/-- the pointer of an indirect node -/
theorem Discovery.Awaits.pending {I : Val} {target : Option Val} {cs : CallInst Fun Val}
    (hcs : (P.instr I).callInst = some cs)
    (h : Discovery.Awaits (P.callSites hlay) (Builder.callBacks P T L) I target) :
    Pending P L I target := by
  have htarget : (P.callSites hlay).getTargetFunction I = cs.getTargetFunction := by
    show (P.instr I).callInst.bind _ = _
    rw [hcs]
    rfl
  cases h with
  | indirect hnone => exact .indirect hcs (htarget.symm.trans hnone)
  | redirected hfn hr hig => exact .redirected hcs (htarget.symm.trans hfn) hr hig

/-- what a new edge does to the builder -/
theorem onNewEdge_direct {M : CtxModule Ctx Fun Val Val} {e : CallEdge Val}
    {f g : CtxFunction Ctx Fun Val} (s : Except Abort (Builder Ctx Fun Val))
    (hf : M.nodes[e.src]? = some (.direct f)) (hg : M.nodes[e.dst]? = some (.direct g)) :
    (Builder.callBacks P T L).onNewEdge M e s =
      s.bind (Builder.onNewCallEdge P T L · f.context f.function g.context g.function e.inst) := by
  unfold Builder.callBacks
  dsimp only
  rw [hf, hg]

theorem onNewEdge_inDirect {M : CtxModule Ctx Fun Val Val} {e : CallEdge Val}
    {c : InDirectCallSite Ctx Fun Val Val} (s : Except Abort (Builder Ctx Fun Val))
    (hc : M.nodes[e.dst]? = some (.inDirect c)) :
    (Builder.callBacks P T L).onNewEdge M e s = s := by
  unfold Builder.callBacks
  dsimp only
  rw [hc]
  split <;> simp_all

theorem emits_follows (hP : P.Canonical) (hlay : P.Layout) (T : CtxDomain Ctx Val)
    (L : LangModel Fun Val Ty) (init : FSObject Ctx Val → FSObject Ctx Val → Prop)
    (A : Ctx → Val → Fun → Prop) :
    Discovery.Follows (P.callSites hlay) T (Builder.callBacks P T L) A
      fun M s => ∀ b, s = .ok b → Emits P T L init M b where
  node := by
    intro R R1 src f I k id hB hsite hl hJ b1 hb1
    obtain ⟨cs, hcs⟩ := (mem_calls.mp hsite.call).2
    cases hl with
    | known _ => exact hJ b1 hb1
    | @direct C' G option hleads _ =>
      obtain ⟨hnodes, hedges, hdata⟩ := Discovery.discover_callBacks (P := P) (T := T) (L := L) R C' G
        I option
      obtain ⟨rfl, fn, hred, hopt, -⟩ := hleads.direct
      rw [hdata] at hb1
      by_cases hexp : option = .expandBody
      · rw [if_pos hexp] at hb1
        obtain ⟨b0, hb0, hb1⟩ := Builder.bind_ok hb1
        have h0 := hJ b0 hb0
        have he := h0.settled.initBody hP hb1
        refine h0.addNode hnodes hedges (h0.settled.additions hP (legal_body hP _ _) he.additions)
          (Builder.Additions.grows he.additions) (fun g hg hb => ?_) (fun g hg hb => ?_)
          fun c hc => (by cases hc)
        · cases hg
          have hbody : P.hasBody G = true := by
            cases h : P.hasBody G with
            | true => rfl
            | false => simp [h] at hb
          exact ⟨hbody, fun I hI k x y hk => he.has k x y ⟨hbody, I, hI, hk⟩⟩
        · cases hg
          right
          cases h : P.hasBody G with
          | true => simp [h, hexp] at hb
          | false => rfl
      · rw [if_neg hexp] at hb1
        have h0 := hJ b1 hb1
        refine h0.addNode hnodes hedges h0.settled (.refl _) (fun g hg hb => ?_) (fun g hg hb => ?_)
          fun c hc => (by cases hc)
        · cases hg
          simp [hexp] at hb
        · cases hg
          exact .inl (overrideFunction_onlyCallSite (hopt ▸ hexp) hred)
    | @inDirect target hw _ =>
      have hpend := hw.pending hcs
      obtain ⟨V, hV⟩ := hpend.value f.context
      obtain ⟨hnodes, hedges, hdata⟩ := Discovery.discoverIndirect_callBacks (T := T) (L := L) R
        f.context I target hV
      rw [hdata] at hb1
      obtain ⟨b0, hb0, hb1⟩ := Builder.bind_ok hb1
      have h0 := hJ b0 hb0
      obtain ⟨hr, hg⟩ := h0.settled.initIndirectCall hb1
      refine h0.addNode hnodes hedges hr hg (fun g hg => by cases hg) (fun g hg => by cases hg)
        fun c hc => ?_
      cases hc
      exact hpend
  edge := by
    intro M s src dst f I n option hsite hn hl hJ b1 hb1
    have hnodes : (M.insertEdge ⟨src, I, dst⟩).nodes = M.nodes := CtxModule.insertEdge_nodes _ _
    have hlt : src < M.nodes.length ∧ dst < M.nodes.length :=
      ⟨(List.getElem?_eq_some_iff.mp hsite.node).1, (List.getElem?_eq_some_iff.mp hn).1⟩
    cases n with
    | inDirect c =>
      rw [onNewEdge_inDirect s (hnodes.symm ▸ hn)] at hb1
      have h0 := hJ b1 hb1
      refine h0.addEdge _ h0.settled (.refl _) hlt fun f' g' _ hg' => ?_
      rw [hn] at hg'
      cases hg'
    | direct g =>
      rw [onNewEdge_direct s (hnodes.symm ▸ hsite.node) (hnodes.symm ▸ hn)] at hb1
      obtain ⟨b0, hb0, hb1⟩ := Builder.bind_ok hb1
      have h0 := hJ b0 hb0
      obtain ⟨-, he⟩ := h0.settled.processCallSite hP (Builder.onNewCallEdge_ok hb1)
      have hA := legal_call (T := T) (L := L) hP f.context I g.function
      refine h0.addEdge _ (h0.settled.additions hP hA he.additions)
        (Builder.Additions.grows he.additions) hlt fun f' g' hf' hg' => ?_
      rw [hsite.node] at hf'
      cases hf'
      rw [hn] at hg'
      cases hg'
      exact he.has
  call := by
    intro M s id c c' hc hs hJ b hb
    exact (hJ b hb).setCall hc hs

end

end AserPTA
