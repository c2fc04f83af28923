import AserPTA.Program.Bounded

/-!
# What is found can be derived

In every state of the analysis the events that happen and what the nodes point to can be derived by the
rules.  Together with the completeness of the last round this makes the result the least model.

* `Derived`           the events, the calls that are waiting, and the points-to sets are derived;
* `derived_follows`   the traversal keeps it;
* `Rounds.derived`    so it holds after every round;
* `Finished`          a run that has come to its end;
* `Finished.least_model`   it has found exactly what can be derived;
* `Finished.runs_agree`    two runs find the same, whatever solver, walk or schedule they use.
-/

namespace AserPTA

open ConsGraph AserPTA.Core Loop Relation

variable {Ctx Fun Val Ty : Type} [DecidableEq Ctx] [DecidableEq Fun] [DecidableEq Val] [DecidableEq Ty]

/-- The events of the call graph can be derived, and the graph is below what can be derived. -/
structure Derived (P : Program Fun Val Ty) (T : CtxDomain Ctx Val) (L : LangModel Fun Val Ty)
    (Mem : MemModel (FSObject Ctx Val) (Pointer Ctx Val)) (main : Fun)
    (init : FSObject Ctx Val → FSObject Ctx Val → Prop) (M : CtxModule Ctx Fun Val Val)
    (s : Except Abort (Builder Ctx Fun Val)) : Prop where
  event : ∀ ev, M.Happens ev → (analysis P T L Mem main init).Derives (.event ev)
  site : ∀ (id : CallNodeID) (c : InDirectCallSite Ctx Fun Val Val), M.nodes[id]? = some (.inDirect c) →
    ∃ F, (analysis P T L Mem main init).Derives (.event (.body c.context F)) ∧
      c.callSite ∈ P.insts F ∧ Pending P L c.callSite c.funPtr
  edge_lt : M.EdgesIn
  fits : ∀ b, s = .ok b →
    Builder.Fits P T Mem (fun x o => (analysis P T L Mem main init).Derives (.found x o)) b ∧
      Builder.Standing P T M b

variable {P : Program Fun Val Ty} {hlay : P.Layout} {T : CtxDomain Ctx Val}
  {L : LangModel Fun Val Ty} {Mem : MemModel (FSObject Ctx Val) (Pointer Ctx Val)} {main : Fun}
  {init : FSObject Ctx Val → FSObject Ctx Val → Prop} {M M' : CtxModule Ctx Fun Val Val}
  {s s' : Except Abort (Builder Ctx Fun Val)}

omit [DecidableEq Ctx] in
/-- the constraints of an event that is derived are satisfied by what is derived -/
theorem EventCons.meets {ev : Event Ctx Fun Val}
    (hev : (analysis P T L Mem main init).Derives (.event ev)) {k : Constraints}
    {x y : Cell Ctx Fun Val} (hk : EventCons P T L init ev k x y) :
    Cell.Meets Mem (fun x o => (analysis P T L Mem main init).Derives (.found x o)) x y k :=
  Inclusion.Dynamic.Model.meets (Inclusion.Dynamic.Derives.model _) hev hk

namespace Derived

omit [DecidableEq Ctx] [DecidableEq Fun] in
/-- a node is added -/
theorem addNode (h : Derived P T L Mem main init M s) {n : CallGraphNode Ctx Fun Val Val}
    (hnodes : M'.nodes = M.nodes ++ [n]) (hedges : M'.edges = M.edges)
    (hbody : ∀ f, n = .direct f → f.isExt = false →
      (analysis P T L Mem main init).Derives (.event (.body f.context f.function)))
    (hsite : ∀ c, n = .inDirect c → ∃ F,
      (analysis P T L Mem main init).Derives (.event (.body c.context F)) ∧
        c.callSite ∈ P.insts F ∧ Pending P L c.callSite c.funPtr)
    (hfits : ∀ b, s' = .ok b →
      Builder.Fits P T Mem (fun x o => (analysis P T L Mem main init).Derives (.found x o)) b ∧
        Builder.Standing P T M' b) : Derived P T L Mem main init M' s' := by
  refine ⟨fun ev hev => ?_, fun id c hc => ?_, h.edge_lt.addNode hnodes hedges, hfits⟩
  · rcases hev.of_addNode h.edge_lt hnodes hedges with hev | ⟨f, hn, hb, rfl⟩
    · exact h.event ev hev
    · exact hbody f hn hb
  · rcases CtxModule.node_of_append hnodes hc with hc | hn
    · exact h.site id c hc
    · exact hsite c hn.symm

omit [DecidableEq Ctx] [DecidableEq Fun] in
/-- an edge is added -/
theorem addEdge (h : Derived P T L Mem main init M s) (e : CallEdge Val)
    (hlt : e.src < M.nodes.length ∧ e.dst < M.nodes.length)
    (hcall : ∀ f g, M.nodes[e.src]? = some (.direct f) → M.nodes[e.dst]? = some (.direct g) →
      (analysis P T L Mem main init).Derives (.event (.call f.context e.inst g.function)))
    (hfits : ∀ b, s' = .ok b →
      Builder.Fits P T Mem (fun x o => (analysis P T L Mem main init).Derives (.found x o)) b ∧
        Builder.Standing P T M b) : Derived P T L Mem main init (M.insertEdge e) s' := by
  have hnodes : (M.insertEdge e).nodes = M.nodes := CtxModule.insertEdge_nodes _ _
  refine ⟨fun ev hev => ?_, by rw [hnodes]; exact h.site, h.edge_lt.insertEdge hlt, fun b hb => ?_⟩
  · rcases hev.of_insertEdge with hev | ⟨f, g, hf, hg, rfl⟩
    · exact h.event ev hev
    · exact hcall f g hf hg
  · obtain ⟨hf, hst⟩ := hfits b hb
    exact ⟨hf, hst.mono (CtxModule.insertEdge_extends M e)⟩

omit [DecidableEq Ctx] [DecidableEq Fun] in
/-- a call gets other targets -/
theorem setCall (h : Derived P T L Mem main init M s) {id : CallNodeID}
    {c c' : InDirectCallSite Ctx Fun Val Val} (hc : M.nodes[id]? = some (.inDirect c))
    (hs : c.Same c') : Derived P T L Mem main init (M.setCall id c') s := by
  refine ⟨fun ev hev => h.event ev (hev.of_setCall hc hs), fun i d hd => ?_, h.edge_lt.setCall,
    fun b hb => ?_⟩
  · obtain ⟨d₀, hd₀, hsame⟩ := CtxModule.setCall_inDirect hc hs hd
    rw [hsame.context, hsame.callSite, hsame.funPtr]
    exact h.site i d₀ hd₀
  · obtain ⟨hf, hst⟩ := h.fits b hb
    exact ⟨hf, hst.mono (CtxModule.setCall_extends hc hs)⟩

end Derived

/-! ## the traversal -/

omit [DecidableEq Ctx] [DecidableEq Fun] [DecidableEq Val] [DecidableEq Ty] in
/-- the body of an allocation function is not wanted, unless it is the start routine of a thread -/
theorem overrideFunction_expandBody
    (hthread : ∀ v G, L.threadFun v = some G → L.isHeapAllocFun G = false) {F G : Fun} {I : Val}
    (h : (Builder.overrideFunction P L F I).option = .expandBody) (hr : Redirects P L I F G) :
    L.isHeapAllocFun G = false := by
  obtain ⟨hred, -⟩ := hr
  unfold Builder.overrideFunction at h hred
  by_cases hheap : L.isHeapAllocFun F = true
  · rw [if_pos hheap] at h
    cases h
  · rw [if_neg hheap] at h hred
    have hF : L.isHeapAllocFun F = false := Bool.eq_false_iff.mpr hheap
    by_cases hint : P.isIntrinsic F = true
    · rw [if_pos hint] at h
      cases h
    · rw [if_neg hint] at hred
      split at hred
      · split at hred
        · cases hred
          exact hF
        · split at hred
          · rename_i hfun
            cases hred
            exact hthread _ _ hfun
          · cases hred
      · cases hred
        exact hF

/-- what a function that is offered to a call must satisfy -/
def Offers (P : Program Fun Val Ty) (T : CtxDomain Ctx Val) (L : LangModel Fun Val Ty)
    (Mem : MemModel (FSObject Ctx Val) (Pointer Ctx Val)) (main : Fun)
    (init : FSObject Ctx Val → FSObject Ctx Val → Prop) (C : Ctx) (I : Val) (F : Fun) : Prop :=
  ∀ G, Redirects P L I F G → (analysis P T L Mem main init).Derives (.event (.call C I G))

/-- a call that leads to a function is derived -/
theorem Derived.leads (h : Derived P T L Mem main init M s) {src : CallNodeID}
    {f : CtxFunction Ctx Fun Val} {I : Val} {C' : Ctx} {G : Fun} {option : InterceptOption}
    (hsite : Discovery.Site (P.callSites hlay) M src f I)
    (hl : Discovery.Leads (P.callSites hlay) T (Builder.callBacks P T L) (Offers P T L Mem main init)
      f.context I (.direct C' G) option) :
    C' = T.contextEvolve f.context I ∧
      (analysis P T L Mem main init).Derives (.event (.call f.context I G)) ∧
      ∃ fn, Redirects P L I fn G ∧ option = (Builder.overrideFunction P L fn I).option := by
  obtain ⟨hI, cs, hcs⟩ := mem_calls.mp hsite.call
  obtain ⟨hctx, fn, hred, hopt, hwhy⟩ := hl.direct
  refine ⟨hctx, ?_, fn, hred, hopt⟩
  rcases hwhy with hfn | hoffer
  · refine .next (h.event _ (.body hsite.node hsite.body))
      (.inl ⟨_, _, _, _, rfl, rfl, cs, fn, hI, hcs, ?_, hred⟩)
    have htarget : (P.callSites hlay).getTargetFunction I = cs.getTargetFunction := by
      show (P.instr I).callInst.bind _ = _
      rw [hcs]
      rfl
    exact htarget.symm.trans hfn
  · exact hoffer G hred

theorem derived_follows (hP : P.Canonical) (hlay : P.Layout)
    (hthread : ∀ v G, L.threadFun v = some G → L.isHeapAllocFun G = false) :
    Discovery.Follows (P.callSites hlay) T (Builder.callBacks P T L) (Offers P T L Mem main init)
      (Derived P T L Mem main init) where
  node := by
    intro R R1 src f I k id hB hsite hl hJ
    obtain ⟨hI, cs, hcs⟩ := mem_calls.mp hsite.call
    have hbody := hJ.event _ (.body hsite.node hsite.body)
    cases hl with
    | known _ => exact hJ
    | @direct C' G option hleads _ =>
      obtain ⟨hnodes, hedges, hdata⟩ := Discovery.discover_callBacks (P := P) (T := T) (L := L) R C' G
        I option
      obtain ⟨rfl, hcall, fn, hred, hopt⟩ := hJ.leads hsite hleads
      have hexpand : option = .expandBody → P.hasBody G = true →
          (analysis P T L Mem main init).Derives (.event (.body (T.contextEvolve f.context I) G)) :=
        fun hexp hbody => .next hcall (.inr ⟨_, _, _, rfl, rfl, hbody,
          overrideFunction_expandBody hthread (hopt ▸ hexp) hred⟩)
      refine hJ.addNode hnodes hedges (fun g hg hb => ?_) (fun c hc => by cases hc) fun b1 hb1 => ?_
      · cases hg
        by_cases hexp : option = .expandBody <;> cases hG : P.hasBody G <;> simp [hexp, hG] at hb
        exact hexpand hexp hG
      · rw [hdata] at hb1
        have hext := CtxModule.Extends.of_append hnodes hedges
        by_cases hexp : option = .expandBody
        · rw [if_pos hexp] at hb1
          obtain ⟨b0, hb0, hb1⟩ := Builder.bind_ok hb1
          obtain ⟨hfits, hst⟩ := hJ.fits b0 hb0
          have he := hfits.settled.initBody hP hb1
          have hA := legal_body (T := T) hP (T.contextEvolve f.context I) G
          refine ⟨hfits.additions hP hA (fun k x y hk => ?_) he.additions,
            (hst.additions hP hA hfits.settled he.additions).mono hext⟩
          obtain ⟨hbody, J, hJ, hk⟩ := hk
          exact EventCons.meets (hexpand hexp hbody) (.body hJ hk)
        · rw [if_neg hexp] at hb1
          obtain ⟨hfits, hst⟩ := hJ.fits b1 hb1
          exact ⟨hfits, hst.mono hext⟩
    | @inDirect target hw _ =>
      have hpend := hw.pending hcs
      obtain ⟨V, hV⟩ := hpend.value f.context
      obtain ⟨hnodes, hedges, hdata⟩ := Discovery.discoverIndirect_callBacks (T := T) (L := L) R
        f.context I target hV
      refine hJ.addNode hnodes hedges (fun g hg => by cases hg) (fun c hc => ?_) fun b1 hb1 => ?_
      · cases hc
        exact ⟨f.function, hbody, hI, hpend⟩
      · rw [hdata] at hb1
        obtain ⟨b0, hb0, hb1⟩ := Builder.bind_ok hb1
        obtain ⟨hfits, hst⟩ := hJ.fits b0 hb0
        exact ⟨hfits.initIndirectCall hb1, (hst.mono (.of_append hnodes hedges)).initIndirectCall
          hfits.settled (by rw [hnodes]; simp) hV hb1⟩
  edge := by
    intro M s src dst f I n option hsite hn hl hJ
    have hnodes : (M.insertEdge ⟨src, I, dst⟩).nodes = M.nodes := CtxModule.insertEdge_nodes _ _
    have hlt : src < M.nodes.length ∧ dst < M.nodes.length :=
      ⟨(List.getElem?_eq_some_iff.mp hsite.node).1, (List.getElem?_eq_some_iff.mp hn).1⟩
    cases n with
    | inDirect c =>
      rw [onNewEdge_inDirect s (hnodes.symm ▸ hn)]
      refine hJ.addEdge _ hlt (fun f' g' _ hg' => ?_) hJ.fits
      rw [hn] at hg'
      cases hg'
    | direct g =>
      rw [onNewEdge_direct s (hnodes.symm ▸ hsite.node) (hnodes.symm ▸ hn)]
      obtain ⟨-, hcall, -⟩ := hJ.leads hsite hl
      refine hJ.addEdge _ hlt (fun f' g' hf' hg' => ?_) fun b1 hb1 => ?_
      · rw [hsite.node] at hf'
        cases hf'
        rw [hn] at hg'
        cases hg'
        exact hcall
      · obtain ⟨b0, hb0, hb1⟩ := Builder.bind_ok hb1
        obtain ⟨hfits, hst⟩ := hJ.fits b0 hb0
        obtain ⟨-, he⟩ := hfits.settled.processCallSite hP (Builder.onNewCallEdge_ok hb1)
        have hA := legal_call (T := T) (L := L) hP f.context I g.function
        exact ⟨hfits.additions hP hA (fun k x y hk => EventCons.meets hcall (.call hk)) he.additions,
          hst.additions hP hA hfits.settled he.additions⟩
  call := by
    intro M s id c c' hc hs hJ
    exact hJ.setCall hc hs

/-! ## rounds -/

namespace Rounds

variable {w w' : Walk} {MaxIndirectTarget MaxIndirectTarget' : Nat} {b₀ : Builder Ctx Fun Val}
  {r r' : Solving Ctx Fun Val}

omit [DecidableEq Ctx] [DecidableEq Fun] in
/-- a function is offered to a call because the pointer of the call is found to hold it -/
theorem offers (hd : Derived P T L Mem main init r.disc.module r.disc.data) {id : CallNodeID}
    {target : Fun} {c : InDirectCallSite Ctx Fun Val Val} (hoff : r.Offered P id target)
    (hc : r.disc.module.nodes[id]? = some (.inDirect c)) (hcomp : c.compatible P L target ≠ some false) :
    Offers P T L Mem main init c.context c.callSite target := by
  obtain ⟨b, q, x, o, hb, hid, hx, hxo, htarget⟩ := hoff
  obtain ⟨hfits, hst⟩ := hd.fits b hb
  obtain ⟨c', V, p, hc', hV, hp, hrep⟩ := hst _ id hid
  rw [hc] at hc'
  cases hc'
  obtain ⟨F, hbody, hI, hpend⟩ := hd.site id c hc
  rw [rep_rep hfits.settled.shape.inv] at hrep
  have hfound := hfits.bounded.holds hfits.settled.toNodes hfits.distinct
    ⟨p, hp, x, hrep.symm ▸ hx, hxo⟩
  intro G hred
  exact .trigger hbody hfound ⟨_, _, _, _, rfl, rfl, c.funPtr, V, target, hI, hpend, hV, rfl, htarget,
    hcomp, hred⟩

/-- In every state of `solve` what happens and what is found can be derived. -/
theorem derived (hP : P.Canonical) (hM : KeepsBlock Mem) (hg : Builder.Globals P T b₀)
    (hthread : ∀ v G, L.threadFun v = some G → L.isHeapAllocFun G = false)
    (h : Rounds P hlay T L w MaxIndirectTarget Mem main b₀ r) :
    Derived P T L Mem main b₀.Stores r.disc.module r.disc.data := by
  obtain ⟨hfits, hst⟩ : Builder.Fits P T Mem
      (fun x o => (analysis P T L Mem main b₀.Stores).Derives (.found x o)) b₀ ∧
      Builder.Standing P T {} b₀ :=
    hg.fits hP fun k x y hk => EventCons.meets (.start (.inl rfl)) (.program hk)
  refine (h.traversed hP hM hg (derived_follows hP hlay hthread) (fun hbody => ?_)
    (fun M b c hJ hs => ?_) (fun M b hJ => ?_) fun s id target c hJ hoff hc hcomp => ?_).1.data
  · -- the entry function
    have hempty : Derived P T L Mem main b₀.Stores ({} : CtxModule Ctx Fun Val Val) (.ok b₀) := by
      refine ⟨fun ev hev => ?_, fun id c hc => (by cases hc), fun e he => (by cases he),
        fun b hb => ?_⟩
      · cases hev with
        | program => exact .start (.inl rfl)
        | body hf _ => cases hf
        | call he _ _ => cases he
      · cases hb
        exact ⟨hfits, hst⟩
    have hstart : (analysis P T L Mem main b₀.Stores).Derives (.event (.body T.getInitialCtx main)) :=
      .start (.inr rfl)
    refine hempty.addNode (n := .direct ⟨T.getInitialCtx, main, none, false⟩) rfl rfl
      (fun f hf _ => ?_) (fun c hc => by cases hc) fun b1 hb1 => ?_
    · cases hf
      exact hstart
    · have he := hfits.settled.initBody hP hb1
      have hA := legal_body (T := T) hP T.getInitialCtx main
      refine ⟨hfits.additions hP hA (fun k x y hk => ?_) he.additions, ?_⟩
      · obtain ⟨-, J, hJ, hk⟩ := hk
        exact EventCons.meets hstart (.body hJ hk)
      · exact (hst.additions hP hA hfits.settled he.additions).mono
          (.of_append (n := .direct ⟨T.getInitialCtx, main, none, false⟩) rfl rfl)
  · refine ⟨hJ.event, hJ.site, hJ.edge_lt, fun b' hb' => ?_⟩
    cases hb'
    obtain ⟨hf, hst⟩ := hJ.fits b rfl
    exact ⟨hf.steps hM hs, hst.steps hM hf.settled hs⟩
  · refine ⟨hJ.event, hJ.site, hJ.edge_lt, fun b' hb' => ?_⟩
    cases hb'
    obtain ⟨hf, hst⟩ := hJ.fits b rfl
    exact ⟨hf.clearFunPtrs, hst⟩
  · exact offers hJ hoff hc hcomp

end Rounds

/-! ## the result is the least model -/

/-- A run of `solve` that has come to its end: the last round resolved nothing, and no call has reached
the limit of targets. -/
structure Finished (P : Program Fun Val Ty) (hlay : P.Layout) (T : CtxDomain Ctx Val)
    (L : LangModel Fun Val Ty) (w : Walk) (MaxIndirectTarget : Nat)
    (Mem : MemModel (FSObject Ctx Val) (Pointer Ctx Val)) (main : Fun) (b₀ : Builder Ctx Fun Val)
    (r : Solving Ctx Fun Val) (b : Builder Ctx Fun Val) : Prop where
  globals : Builder.Globals P T b₀
  rounds : Rounds P hlay T L w MaxIndirectTarget Mem main b₀ r
  changed : r.changed = false
  data : r.disc.data = .ok b
  limit : ∀ (id : CallNodeID) c, r.disc.module.nodes[id]? = some (.inDirect c) →
    c.targets.length < MaxIndirectTarget

namespace Finished

variable {w w' : Walk} {MaxIndirectTarget MaxIndirectTarget' : Nat}
  {b₀ b₀' b b' : Builder Ctx Fun Val} {r r' : Solving Ctx Fun Val}

/-- whatever can be derived is in the result -/
theorem complete (hP : P.Canonical) (hM : KeepsBlock Mem)
    (h : Finished P hlay T L w MaxIndirectTarget Mem main b₀ r b) :
    (analysis P T L Mem main b₀.Stores).Model r.disc.module.Happens b.Holds := by
  obtain ⟨b', hb', hres⟩ := h.rounds.result hP hM h.globals h.changed
  rw [h.data] at hb'
  cases hb'
  exact hres.model h.limit

/-- whatever is in the result can be derived -/
theorem sound (hP : P.Canonical) (hM : KeepsBlock Mem)
    (hthread : ∀ v G, L.threadFun v = some G → L.isHeapAllocFun G = false)
    (h : Finished P hlay T L w MaxIndirectTarget Mem main b₀ r b) :
    (∀ ev, r.disc.module.Happens ev → (analysis P T L Mem main b₀.Stores).Derives (.event ev)) ∧
      ∀ x o, b.Holds x o → (analysis P T L Mem main b₀.Stores).Derives (.found x o) := by
  have hd := h.rounds.derived hP hM h.globals hthread
  obtain ⟨hfits, -⟩ := hd.fits b h.data
  exact ⟨hd.event, fun x o ho => hfits.bounded.holds hfits.settled.toNodes hfits.distinct ho⟩

/-- What happens in the final call graph and what the final points-to sets hold is exactly what the rules
of the analysis derive. -/
theorem least_model (hP : P.Canonical) (hM : KeepsBlock Mem)
    (hthread : ∀ v G, L.threadFun v = some G → L.isHeapAllocFun G = false)
    (h : Finished P hlay T L w MaxIndirectTarget Mem main b₀ r b) :
    (∀ ev, r.disc.module.Happens ev ↔ (analysis P T L Mem main b₀.Stores).Derives (.event ev)) ∧
      ∀ x o, b.Holds x o ↔ (analysis P T L Mem main b₀.Stores).Derives (.found x o) := by
  obtain ⟨hev, hfound⟩ := h.sound hP hM hthread
  have hmodel := h.complete hP hM
  exact ⟨fun ev => ⟨hev ev, fun hd => hd.le hmodel⟩, fun x o => ⟨hfound x o, fun hd => hd.le hmodel⟩⟩

/-- Two runs on the same globals have the same call graph and the same points-to sets, whatever their
solvers, the order in which sets are walked, their rounds and their limits are. -/
theorem runs_agree (hP : P.Canonical) (hM : KeepsBlock Mem)
    (hthread : ∀ v G, L.threadFun v = some G → L.isHeapAllocFun G = false)
    (h : Finished P hlay T L w MaxIndirectTarget Mem main b₀ r b)
    (h' : Finished P hlay T L w' MaxIndirectTarget' Mem main b₀' r' b')
    (hinit : b₀.Stores = b₀'.Stores) :
    (∀ ev, r.disc.module.Happens ev ↔ r'.disc.module.Happens ev) ∧
      ∀ x o, b.Holds x o ↔ b'.Holds x o := by
  obtain ⟨hev, hfound⟩ := h.sound hP hM hthread
  obtain ⟨hev', hfound'⟩ := h'.sound hP hM hthread
  have hmodel := h.complete hP hM
  have hmodel' := h'.complete hP hM
  rw [hinit] at hev hfound hmodel
  refine ⟨fun ev => ⟨fun hh => (hev ev hh).le hmodel', fun hh => (hev' ev hh).le hmodel⟩, fun x o =>
    ⟨fun hh => (hfound x o hh).le hmodel', fun hh => (hfound' x o hh).le hmodel⟩⟩

end Finished

end AserPTA
