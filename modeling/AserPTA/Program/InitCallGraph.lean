import AserPTA.Program.CtxModule
import Mathlib.Data.Fintype.Prod
import Mathlib.Logic.Relation

/-!
# The initial call graph

What `buildInitCallGraph` yields, for every program, every finite domain of contexts and whatever the
callbacks do.

* `Base`           the maps are exact, a function body waits in the queue or was visited, not both;
* `Links`          the edges of the calls that were visited, and the trace of the callbacks;
* `InitCallGraph`  the two at the end of the construction;
* `buildInitCallGraph_spec`   the construction ends, and ends so.
-/

namespace AserPTA

open Loop Relation

variable {Ctx Fun Inst Val σ : Type}

/-- `src` calls `dst` -/
def CtxModule.Calls (M : CtxModule Ctx Fun Inst Val) (src dst : CallNodeID) : Prop :=
  ∃ I, ⟨src, I, dst⟩ ∈ M.edges

/-- the first edge to a node, the one for which it was made -/
def CtxModule.creator (M : CtxModule Ctx Fun Inst Val) (id : CallNodeID) : Option (CallEdge Inst) :=
  M.edges.find? fun e => e.dst = id

/-- the edges for the call instruction `I` of the body of a node -/
def CtxModule.callEdges [DecidableEq Inst] (M : CtxModule Ctx Fun Inst Val) (src : CallNodeID)
    (I : Inst) : List (CallEdge Inst) :=
  M.edges.filter fun e => e.src = src ∧ e.inst = I

namespace Discovery

/-- the nodes whose bodies were visited -/
def visited (R : Discovery Ctx Fun Inst Val σ) : List CallNodeID :=
  R.trace.filterMap fun
    | .visit id => some id
    | _ => none

/-- the edges the edge callback was called for -/
def linked (R : Discovery Ctx Fun Inst Val σ) : List (CallEdge Inst) :=
  R.trace.filterMap fun
    | .newEdge e => some e
    | _ => none

/-- a callback was called for the node -/
def Started (trace : List (CallEvent Inst)) (id : CallNodeID) : Prop :=
  .newDirect id ∈ trace ∨ .newInDirect id ∈ trace

theorem visited_append {R R1 : Discovery Ctx Fun Inst Val σ} {t : List (CallEvent Inst)}
    (h : R1.trace = R.trace ++ t) (ht : ∀ id, .visit id ∉ t) : R1.visited = R.visited := by
  unfold visited
  rw [h, List.filterMap_append]
  have hnil : t.filterMap (fun | .visit id => some id | _ => none) = ([] : List CallNodeID) := by
    rw [List.filterMap_eq_nil_iff]
    intro e he
    cases e with
    | visit id => exact absurd he (ht id)
    | _ => rfl
  rw [hnil, List.append_nil]

theorem linked_append {R R1 : Discovery Ctx Fun Inst Val σ} {t : List (CallEvent Inst)}
    (h : R1.trace = R.trace ++ t) (ht : ∀ e, .newEdge e ∉ t) : R1.linked = R.linked := by
  unfold linked
  rw [h, List.filterMap_append]
  have hnil : t.filterMap (fun | .newEdge e => some e | _ => none) =
      ([] : List (CallEdge Inst)) := by
    rw [List.filterMap_eq_nil_iff]
    intro e he
    cases e with
    | newEdge e => exact absurd he (ht e)
    | _ => rfl
  rw [hnil, List.append_nil]

structure Base (R : Discovery Ctx Fun Inst Val σ) : Prop where
  find : ∀ (k : CallKey Ctx Fun Inst) (id : CallNodeID),
    R.module.find k = some id ↔ ∃ n, R.module.nodes[id]? = some n ∧ n.key = k
  nodup : (R.visited ++ R.queue).Nodup
  body : ∀ id : CallNodeID, id ∈ R.visited ++ R.queue ↔
    ∃ f, R.module.nodes[id]? = some (.direct f) ∧ f.isExt = false
  started : ∀ id ∈ R.visited ++ R.queue, .newDirect id ∈ R.trace
  bound : ∀ id : CallNodeID, Started R.trace id → id < R.module.nodes.length

theorem Base.unique {R : Discovery Ctx Fun Inst Val σ} (h : R.Base) {a b : CallNodeID}
    {m n : CallGraphNode Ctx Fun Inst Val} (ha : R.module.nodes[a]? = some m)
    (hb : R.module.nodes[b]? = some n) (hk : m.key = n.key) : a = b := by
  have h1 := (h.find n.key a).mpr ⟨m, ha, hk⟩
  have h2 := (h.find n.key b).mpr ⟨n, hb, rfl⟩
  rw [h1] at h2
  exact Option.some.inj h2

/-! ## looking up a node -/

variable {R R1 : Discovery Ctx Fun Inst Val σ}

/-- What changes until the node of a key is at hand: nothing, or a node is added that has no edge yet.
A new direct node is started unless only its call site is wanted. -/
structure Got (option : InterceptOption) (k : CallKey Ctx Fun Inst) (id : CallNodeID)
    (R R1 : Discovery Ctx Fun Inst Val σ) : Prop where
  edges : R1.module.edges = R.module.edges
  node : ∀ (i : CallNodeID) (n : CallGraphNode Ctx Fun Inst Val),
    R.module.nodes[i]? = some n → R1.module.nodes[i]? = some n
  found : ∃ n, R1.module.nodes[id]? = some n ∧ n.key = k
  only : ∀ i < R1.module.nodes.length, i < R.module.nodes.length ∨ i = id
  visited : R1.visited = R.visited
  linked : R1.linked = R.linked
  trace : ∃ t, R1.trace = R.trace ++ t ∧ ∀ e, .newEdge e ∉ t
  fresh : id < R.module.nodes.length ∧ R1.trace = R.trace ∨
    id = R.module.nodes.length ∧
      (Started R1.trace id ↔
        ¬ (option ≠ .expandBody ∧ ∃ f, R1.module.nodes[id]? = some (.direct f))) ∧
      ∀ i, i ≠ id → (Started R1.trace i ↔ Started R.trace i)

/-- a node added at the end is found by its key, and nothing else is found that was not -/
theorem find_append {M M1 : CtxModule Ctx Fun Inst Val} {n : CallGraphNode Ctx Fun Inst Val}
    (hfind : ∀ (k : CallKey Ctx Fun Inst) (id : CallNodeID),
      M.find k = some id ↔ ∃ n, M.nodes[id]? = some n ∧ n.key = k)
    (hnodes : M1.nodes = M.nodes ++ [n]) (hnone : M.find n.key = none)
    (hnew : M1.find n.key = some M.nodes.length) (hold : ∀ k, k ≠ n.key → M1.find k = M.find k)
    (k : CallKey Ctx Fun Inst) (id : CallNodeID) :
    M1.find k = some id ↔ ∃ m, M1.nodes[id]? = some m ∧ m.key = k := by
  have hlen : ∀ m : CallGraphNode Ctx Fun Inst Val, M.nodes[id]? = some m → id < M.nodes.length :=
    fun m hm => (List.getElem?_eq_some_iff.mp hm).1
  rw [hnodes]
  by_cases hk : k = n.key
  · subst hk
    rw [hnew]
    constructor
    · intro h
      cases h
      exact ⟨n, by simp, rfl⟩
    · rintro ⟨m, hm, hkey⟩
      rcases Nat.lt_trichotomy id M.nodes.length with hlt | rfl | hgt
      · rw [List.getElem?_append_left hlt] at hm
        have := (hfind n.key id).mpr ⟨m, hm, hkey⟩
        rw [hnone] at this
        cases this
      · rfl
      · rw [List.getElem?_eq_none (by simp; omega)] at hm
        cases hm
  · rw [hold k hk, hfind]
    constructor
    · rintro ⟨m, hm, hkey⟩
      exact ⟨m, by rw [List.getElem?_append_left (hlen m hm)]; exact hm, hkey⟩
    · rintro ⟨m, hm, hkey⟩
      rcases Nat.lt_trichotomy id M.nodes.length with hlt | rfl | hgt
      · rw [List.getElem?_append_left hlt] at hm
        exact ⟨m, hm, hkey⟩
      · rw [List.getElem?_append_right le_rfl, Nat.sub_self] at hm
        cases hm
        exact absurd hkey.symm hk
      · rw [List.getElem?_eq_none (by simp; omega)] at hm
        cases hm

/-- a node is added at the end, with `q` for the queue and the calls `t` of callbacks -/
structure Added (n : CallGraphNode Ctx Fun Inst Val) (q : List CallNodeID)
    (t : List (CallEvent Inst)) (R R1 : Discovery Ctx Fun Inst Val σ) : Prop where
  nodes : R1.module.nodes = R.module.nodes ++ [n]
  edges : R1.module.edges = R.module.edges
  unknown : R.module.find n.key = none
  new : R1.module.find n.key = some R.module.nodes.length
  old : ∀ k, k ≠ n.key → R1.module.find k = R.module.find k
  queue : R1.queue = R.queue ++ q
  trace : R1.trace = R.trace ++ t
  event : ∀ e ∈ t, e = .newDirect R.module.nodes.length ∨ e = .newInDirect R.module.nodes.length
  body : q = [R.module.nodes.length] ∧ (∃ f, n = .direct f ∧ f.isExt = false) ∧
      .newDirect R.module.nodes.length ∈ t ∨
    q = [] ∧ ∀ f, n = .direct f → f.isExt = true

variable {n : CallGraphNode Ctx Fun Inst Val} {q : List CallNodeID} {t : List (CallEvent Inst)}

theorem Added.visited (h : Added n q t R R1) : R1.visited = R.visited := by
  apply visited_append h.trace
  intro id hid
  rcases h.event _ hid with h | h <;> cases h

theorem Added.notEdge (h : Added n q t R R1) (e : CallEdge Inst) : .newEdge e ∉ t := by
  intro he
  rcases h.event _ he with h | h <;> cases h

theorem Added.node (h : Added n q t R R1) {i : CallNodeID} (hi : i < R.module.nodes.length) :
    R1.module.nodes[i]? = R.module.nodes[i]? := by
  rw [h.nodes, List.getElem?_append_left hi]

theorem Added.last (h : Added n q t R R1) :
    R1.module.nodes[R.module.nodes.length]? = some n := by
  rw [h.nodes]
  simp

theorem Added.started (h : Added n q t R R1) {i : CallNodeID} (hi : i ≠ R.module.nodes.length) :
    Started R1.trace i ↔ Started R.trace i := by
  unfold Started
  rw [h.trace, List.mem_append, List.mem_append]
  have h1 : .newDirect i ∉ t := by
    intro hm
    rcases h.event _ hm with h | h
    · exact hi (CallEvent.newDirect.inj h)
    · cases h
  have h2 : .newInDirect i ∉ t := by
    intro hm
    rcases h.event _ hm with h | h
    · cases h
    · exact hi (CallEvent.newInDirect.inj h)
  simp only [h1, h2, or_false]

theorem Added.base (h : Added n q t R R1) (hR : R.Base) : R1.Base := by
  have hlen : ∀ i ∈ R.visited ++ R.queue, i < R.module.nodes.length := by
    intro i hi
    obtain ⟨f, hf, _⟩ := (hR.body i).mp hi
    exact (List.getElem?_eq_some_iff.mp hf).1
  have hnext : R.module.nodes.length ∉ R.visited ++ R.queue :=
    fun hm => Nat.lt_irrefl _ (hlen _ hm)
  have hall : R1.visited ++ R1.queue = R.visited ++ R.queue ++ q := by
    rw [h.visited, h.queue, List.append_assoc]
  refine ⟨fun k id => find_append hR.find h.nodes h.unknown h.new h.old k id, ?_, ?_, ?_, ?_⟩
  · rw [hall]
    rcases h.body with ⟨rfl, _⟩ | ⟨rfl, _⟩
    · refine List.Nodup.append hR.nodup (List.nodup_singleton _) ?_
      intro a ha hb
      rw [List.mem_singleton] at hb
      subst hb
      exact hnext ha
    · rw [List.append_nil]
      exact hR.nodup
  · intro id
    rw [hall, List.mem_append]
    by_cases hid : id < R.module.nodes.length
    · rw [h.node hid, hR.body]
      have hq : id ∉ q := by
        rcases h.body with ⟨rfl, _⟩ | ⟨rfl, _⟩
        · rw [List.mem_singleton]
          exact hid.ne
        · exact List.not_mem_nil
      simp only [hq, or_false]
    · have hold : id ∉ R.visited ++ R.queue := fun hm => hid (hlen id hm)
      by_cases heq : id = R.module.nodes.length
      · subst heq
        rw [h.last]
        rcases h.body with ⟨rfl, ⟨f, rfl, hf⟩, _⟩ | ⟨rfl, hext⟩
        · simp [hf]
        · constructor
          · rintro (hm | hm)
            · exact absurd hm hold
            · cases hm
          · rintro ⟨f, hf, hfext⟩
            rw [hext f (Option.some.inj hf)] at hfext
            cases hfext
      · have hq : id ∉ q := by
          rcases h.body with ⟨rfl, _⟩ | ⟨rfl, _⟩
          · rw [List.mem_singleton]
            exact heq
          · exact List.not_mem_nil
        have hnone : R1.module.nodes[id]? = none := by
          rw [h.nodes]
          apply List.getElem?_eq_none
          rw [List.length_append, List.length_singleton]
          exact Nat.lt_of_le_of_ne (Nat.le_of_not_lt hid) (Ne.symm heq)
        rw [hnone]
        simp only [hold, hq, or_self, false_iff]
        rintro ⟨f, hf, _⟩
        cases hf
  · intro id hid
    rw [hall, List.mem_append] at hid
    rw [h.trace, List.mem_append]
    rcases hid with hid | hid
    · exact .inl (hR.started id hid)
    · rcases h.body with ⟨rfl, _, ht⟩ | ⟨rfl, _⟩
      · rw [List.mem_singleton] at hid
        subst hid
        exact .inr ht
      · cases hid
  · intro id hid
    rw [h.nodes, List.length_append, List.length_singleton]
    by_cases heq : id = R.module.nodes.length
    · rw [heq]
      exact Nat.lt_succ_self _
    · exact Nat.lt_succ_of_lt (hR.bound id ((h.started heq).mp hid))

theorem Added.got (h : Added n q t R R1) (hR : R.Base) {option : InterceptOption}
    (ht : t = [] ↔ option ≠ .expandBody ∧ ∃ f, n = .direct f) :
    Got option n.key R.module.nodes.length R R1 where
  edges := h.edges
  node i m hm := by
    rw [h.node (List.getElem?_eq_some_iff.mp hm).1]
    exact hm
  found := ⟨n, h.last, rfl⟩
  only i hi := by
    rw [h.nodes, List.length_append, List.length_singleton] at hi
    omega
  visited := h.visited
  linked := linked_append h.trace h.notEdge
  trace := ⟨t, h.trace, h.notEdge⟩
  fresh := by
    refine .inr ⟨rfl, ?_, fun i hi => h.started hi⟩
    have hnot : ¬ Started R.trace R.module.nodes.length :=
      fun hs => Nat.lt_irrefl _ (hR.bound _ hs)
    have hlast : (∃ f, R1.module.nodes[R.module.nodes.length]? = some (.direct f)) ↔
        ∃ f, n = .direct f := by
      rw [h.last]
      exact exists_congr fun f => Option.some_inj
    rw [hlast, ← ht]
    cases t with
    | nil =>
      have htrace : R1.trace = R.trace := by rw [h.trace, List.append_nil]
      rw [htrace]
      exact ⟨fun hs => absurd hs hnot, fun hne => absurd rfl hne⟩
    | cons e t =>
      refine ⟨fun _ hnil => List.cons_ne_nil _ _ hnil, fun _ => ?_⟩
      rw [h.trace]
      rcases h.event e List.mem_cons_self with rfl | rfl
      · exact .inl (List.mem_append_right _ List.mem_cons_self)
      · exact .inr (List.mem_append_right _ List.mem_cons_self)

section

variable [DecidableEq Ctx] [DecidableEq Fun] {K : CallBacks Ctx Fun Inst Val σ}

/-- what a new direct node changes -/
theorem discover_spec (K : CallBacks Ctx Fun Inst Val σ) (R : Discovery Ctx Fun Inst Val σ) (C : Ctx)
    (F : Fun) (I : Inst) (option : InterceptOption) :
    let R1 := discover K R C F I option
    let id := R.module.nodes.length
    ∃ isExt : Bool, (option ≠ .expandBody → isExt = true) ∧
      R1.module.nodes = R.module.nodes ++ [.direct ⟨C, F, some I, isExt⟩] ∧
      R1.module.edges = R.module.edges ∧
      R1.module.ctxFunMap = Function.update R.module.ctxFunMap (C, F) (some id) ∧
      R1.module.ctxFunPtrMap = R.module.ctxFunPtrMap ∧
      R1.queue = R.queue ++ (if isExt then [] else [id]) ∧
      R1.trace = R.trace ++ (if option = .expandBody then [.newDirect id] else []) := by
  have hmod : ∀ n : CallGraphNode Ctx Fun Inst Val,
      (R.module.nodes ++ [n]).modify R.module.nodes.length CallGraphNode.markAsExtFunction =
        R.module.nodes ++ [n.markAsExtFunction] := by
    intro n
    rw [List.modify_eq_take_cons_drop (by simp)]
    simp
  unfold discover createDirect
  cases option with
  | expandBody =>
    dsimp only
    cases hres : (K.onNewDirect (R.module.createCallNode C F (some I)).1
        (R.module.createCallNode C F (some I)).2 R.data).2 with
    | true =>
      refine ⟨false, fun h => absurd rfl h, ?_⟩
      simp [CtxModule.createCallNode]
    | false =>
      refine ⟨true, fun _ => rfl, ?_⟩
      simp [CtxModule.createCallNode, CtxModule.markAsExtFunction, hmod,
        CallGraphNode.markAsExtFunction]
  | onlyCallSite =>
    refine ⟨true, fun _ => rfl, ?_⟩
    simp [CtxModule.createCallNode, CtxModule.markAsExtFunction, hmod,
      CallGraphNode.markAsExtFunction]
  | ignore =>
    refine ⟨true, fun _ => rfl, ?_⟩
    simp [CtxModule.createCallNode, CtxModule.markAsExtFunction, hmod,
      CallGraphNode.markAsExtFunction]

variable [DecidableEq Inst]

/-- what is at hand then -/
theorem GetNode.got {option : InterceptOption} {I : Inst} {k : CallKey Ctx Fun Inst}
    {id : CallNodeID} (h : GetNode K option I R k id R1) (hR : R.Base) :
    R1.Base ∧ Got option k id R R1 := by
  cases h with
  | known h =>
    obtain ⟨n, hn, hk⟩ := (hR.find k id).mp h
    refine ⟨hR, rfl, fun _ _ h => h, ⟨n, hn, hk⟩, fun _ h => .inl h, rfl, rfl,
      ⟨[], (List.append_nil _).symm, fun _ h => by cases h⟩, .inl ⟨?_, rfl⟩⟩
    exact (List.getElem?_eq_some_iff.mp hn).1
  | direct C F h =>
    obtain ⟨isExt, hext, hnodes, hedges, hfun, hptr, hqueue, htrace⟩ :=
      discover_spec K R C F I option
    have hadd : Added (.direct ⟨C, F, some I, isExt⟩) (if isExt then [] else [R.module.nodes.length])
        (if option = .expandBody then [.newDirect R.module.nodes.length] else []) R
        (discover K R C F I option) := by
      refine ⟨hnodes, hedges, h, ?_, ?_, hqueue, htrace, ?_, ?_⟩
      · show (discover K R C F I option).module.ctxFunMap (C, F) = _
        rw [hfun, Function.update_self]
      · intro k hk
        cases k with
        | direct C' F' =>
          show (discover K R C F I option).module.ctxFunMap (C', F') = _
          rw [hfun, Function.update_of_ne]
          · rfl
          · intro heq
            cases heq
            exact hk rfl
        | inDirect C' I' =>
          show (discover K R C F I option).module.ctxFunPtrMap (C', I') = _
          rw [hptr]
          rfl
      · intro e he
        split at he
        · rw [List.mem_singleton] at he
          exact .inl he
        · cases he
      · cases isExt with
        | true => exact .inr ⟨rfl, fun f hf => by cases hf; rfl⟩
        | false =>
          have hopt : option = .expandBody := by
            by_contra hne
            have := hext hne
            cases this
          exact .inl ⟨rfl, ⟨_, rfl, rfl⟩, by rw [if_pos hopt]; exact List.mem_cons_self⟩
    refine ⟨hadd.base hR, hadd.got hR ?_⟩
    by_cases hopt : option = .expandBody <;> simp [hopt]
  | inDirect C target h =>
    have hadd : Added (.inDirect ⟨C, I, target, [], []⟩) [] [.newInDirect R.module.nodes.length] R
        (discoverIndirect K R C I target) := by
      refine ⟨rfl, rfl, h, ?_, ?_, (List.append_nil _).symm, rfl, ?_, ?_⟩
      · exact Function.update_self ..
      · intro k hk
        cases k with
        | direct C' F' => rfl
        | inDirect C' I' =>
          refine Function.update_of_ne ?_ _ _
          intro heq
          cases heq
          exact hk rfl
      · intro e he
        rw [List.mem_singleton] at he
        exact .inr he
      · exact .inr ⟨rfl, fun f hf => by cases hf⟩
    refine ⟨hadd.base hR, hadd.got hR ?_⟩
    simp

end

/-! ## the edges of a traversal -/

section

variable (P : CallSites Fun Inst) (T : CtxDomain Ctx Inst) (K : CallBacks Ctx Fun Inst Val σ)

/-- the node was made for a call whose body is not wanted -/
def OnlyCallSite (M : CtxModule Ctx Fun Inst Val) (id : CallNodeID) : Prop :=
  id ≠ 0 ∧ (∃ f, M.nodes[id]? = some (.direct f)) ∧
    ∃ e, M.creator id = some e ∧ optionOf P K e.inst = .onlyCallSite

/-- The calls in `rest` are still to be visited, those of the other visited bodies are linked. -/
structure Links (main : CtxFunction Ctx Fun Inst) (rest : List (CallNodeID × Inst))
    (R : Discovery Ctx Fun Inst Val σ) : Prop where
  called : ∀ id ∈ R.visited, ∀ f, R.module.nodes[id]? = some (.direct f) →
    ∀ I ∈ P.calls f.function, (id, I) ∉ rest → ∀ k, callee P T K f.context I = some k →
      ∃ d n, ⟨id, I, d⟩ ∈ R.module.edges ∧ R.module.nodes[d]? = some n ∧ n.key = k
  edge : ∀ e ∈ R.module.edges, e.src ∈ R.visited ∧ (e.src, e.inst) ∉ rest ∧
    ∃ f n, R.module.nodes[e.src]? = some (.direct f) ∧ e.inst ∈ P.calls f.function ∧
      R.module.nodes[e.dst]? = some n ∧ callee P T K f.context e.inst = some n.key
  nodup : R.module.edges.Nodup
  entry : R.module.nodes[0]? = some (.direct main)
  reach : ∀ id < R.module.nodes.length, ReflTransGen R.module.Calls 0 id
  linked : R.linked = R.module.edges
  started : ∀ id < R.module.nodes.length, Started R.trace id ↔ ¬ OnlyCallSite P K R.module id
  before : ∀ pre e post, R.trace = pre ++ .newEdge e :: post →
    Started pre e.src ∧ (Started pre e.dst ∨ OnlyCallSite P K R.module e.dst)

variable {P T K} {R R1 : Discovery Ctx Fun Inst Val σ} {rest : List (CallNodeID × Inst)}
variable {main : CtxFunction Ctx Fun Inst}

/-- every node but the entry node has an edge to it -/
theorem Links.creator (h : Links P T K main rest R) {id : CallNodeID} (hid : id < R.module.nodes.length)
    (h0 : id ≠ 0) : ∃ e, R.module.creator id = some e := by
  rcases (h.reach id hid).cases_tail with heq | ⟨a, _, I, he⟩
  · exact absurd heq h0
  · have : (R.module.creator id).isSome := by
      rw [CtxModule.creator, List.find?_isSome]
      exact ⟨_, he, decide_eq_true rfl⟩
    exact Option.isSome_iff_exists.mp this

/-- an edge more does not change how the older nodes came about -/
theorem Links.onlyCallSite (h : Links P T K main rest R) {M : CtxModule Ctx Fun Inst Val}
    {e : CallEdge Inst} (hedges : M.edges = R.module.edges ++ [e]) {id : CallNodeID}
    (hid : id < R.module.nodes.length) (hnode : M.nodes[id]? = R.module.nodes[id]?) :
    OnlyCallSite P K M id ↔ OnlyCallSite P K R.module id := by
  unfold OnlyCallSite
  refine and_congr_right fun h0 => ?_
  obtain ⟨e0, he0⟩ := h.creator hid h0
  have hc : M.creator id = R.module.creator id := by
    unfold CtxModule.creator at he0 ⊢
    rw [hedges, List.find?_append, he0]
    rfl
  rw [hnode, hc]

/-- an element that is not in the second part is in the first -/
theorem split_left {α : Type} {x : α} {l t pre post : List α} (hx : x ∉ t)
    (h : l ++ t = pre ++ x :: post) : ∃ post', l = pre ++ x :: post' := by
  rcases List.append_eq_append_iff.mp h with ⟨m, rfl, ht⟩ | ⟨m, rfl, hm⟩
  · exact absurd (by rw [ht]; simp) hx
  · cases m with
    | nil => exact absurd (by rw [← (List.nil_append t), ← hm]; exact List.mem_cons_self) hx
    | cons y m =>
      cases hm
      exact ⟨m, rfl⟩

/-- an element of a list with a last one is the last one or in the rest -/
theorem split_concat {α : Type} {x y : α} {l pre post : List α}
    (h : l ++ [y] = pre ++ x :: post) : pre = l ∧ x = y ∨ ∃ post', l = pre ++ x :: post' := by
  rcases List.eq_nil_or_concat post with rfl | ⟨post', z, rfl⟩
  · obtain ⟨h1, h2⟩ := List.append_inj' h rfl
    exact .inl ⟨h1.symm, (List.singleton_inj.mp h2).symm⟩
  · rw [List.concat_eq_append, ← List.cons_append, ← List.append_assoc] at h
    exact .inr ⟨post', (List.append_inj' h rfl).1⟩

/-- a call that is not ignored asks for the body or for the call site only -/
theorem optionOf_ne_ignore {C : Ctx} {I : Inst} {k : CallKey Ctx Fun Inst}
    (h : callee P T K C I = some k) : optionOf P K I ≠ .ignore := by
  unfold callee at h
  unfold optionOf
  cases hf : P.getTargetFunction I with
  | none => simp
  | some fn =>
    rw [hf] at h
    dsimp only at h ⊢
    intro hig
    rw [if_pos hig] at h
    cases h

/-- the edge to the node that was looked up or made -/
theorem Links.link (hB : R.Base) (hB1 : R1.Base) {node id : CallNodeID}
    {f : CtxFunction Ctx Fun Inst} {I : Inst} {k : CallKey Ctx Fun Inst}
    (hnode : R.module.nodes[node]? = some (.direct f)) (hvis : node ∈ R.visited)
    (hI : I ∈ P.calls f.function) (hrest : (node, I) ∉ rest)
    (hk : callee P T K f.context I = some k) (hgot : Got (optionOf P K I) k id R R1)
    (h : Links P T K main ((node, I) :: rest) R) {R' : Discovery Ctx Fun Inst Val σ}
    (hmod : R'.module = { R1.module with edges := R1.module.edges ++ [⟨node, I, id⟩] })
    (htrace : R'.trace = R1.trace ++ [.newEdge ⟨node, I, id⟩]) : Links P T K main rest R' := by
  obtain ⟨n, hn, hkey⟩ := hgot.found
  obtain ⟨t, ht, hedge⟩ := hgot.trace
  have hnodes : R'.module.nodes = R1.module.nodes := by rw [hmod]
  have hedges : R'.module.edges = R.module.edges ++ [⟨node, I, id⟩] := by rw [hmod, ← hgot.edges]
  have hvisited : R'.visited = R.visited := by
    rw [← hgot.visited]
    apply visited_append htrace
    simp
  have hold : ∀ i < R.module.nodes.length, R'.module.nodes[i]? = R.module.nodes[i]? := by
    intro i hi
    rw [hnodes, List.getElem?_eq_getElem hi]
    exact hgot.node i _ (List.getElem?_eq_getElem hi)
  have hlt : ∀ {i : CallNodeID} {m : CallGraphNode Ctx Fun Inst Val},
      R.module.nodes[i]? = some m → i < R.module.nodes.length :=
    fun hm => (List.getElem?_eq_some_iff.mp hm).1
  have hstarted' : ∀ i, Started R'.trace i ↔ Started R1.trace i := by
    intro i
    simp [Started, htrace]
  have hstarted : ∀ i < R'.module.nodes.length,
      Started R'.trace i ↔ ¬ OnlyCallSite P K R'.module i := by
    intro i hi
    rw [hnodes] at hi
    rw [hstarted']
    have hkeep : i < R.module.nodes.length → (Started R1.trace i ↔ Started R.trace i) →
        (Started R1.trace i ↔ ¬ OnlyCallSite P K R'.module i) := by
      intro hi hs
      rw [hs, h.onlyCallSite hedges hi (hold i hi)]
      exact h.started i hi
    rcases hgot.fresh with ⟨hid, hsame⟩ | ⟨hid, hnew, hother⟩
    · refine hkeep ?_ (by rw [hsame])
      rcases hgot.only i hi with hi | rfl
      · exact hi
      · exact hid
    · by_cases heq : i = id
      · subst heq
        rw [hnew, not_iff_not, OnlyCallSite, hnodes]
        have h0 : i ≠ 0 := by
          rw [hid]
          exact Nat.pos_iff_ne_zero.mp (hlt h.entry)
        have hc : R'.module.creator i = some ⟨node, I, i⟩ := by
          unfold CtxModule.creator
          rw [hedges, List.find?_append]
          have hnone : R.module.edges.find? (fun e => decide (e.dst = i)) = none := by
            rw [List.find?_eq_none]
            intro e he hdst
            obtain ⟨_, _, _, n', _, _, hn', _⟩ := h.edge e he
            rw [of_decide_eq_true hdst, hid] at hn'
            exact Nat.lt_irrefl _ (hlt hn')
          rw [hnone]
          simp
        have hopt : optionOf P K I ≠ .expandBody ↔ optionOf P K I = .onlyCallSite := by
          have := optionOf_ne_ignore hk
          cases ho : optionOf P K I with
          | expandBody => simp
          | onlyCallSite => simp
          | ignore => exact absurd ho this
        rw [hc, hopt]
        constructor
        · rintro ⟨ho, hf⟩
          exact ⟨h0, hf, _, rfl, ho⟩
        · rintro ⟨_, hf, e, he, ho⟩
          cases he
          exact ⟨ho, hf⟩
      · refine hkeep ?_ (hother i heq)
        rcases hgot.only i hi with hi | rfl
        · exact hi
        · exact absurd rfl heq
  have hnodelt : node < R.module.nodes.length := hlt hnode
  have hid : id < R'.module.nodes.length := by
    rw [hnodes]
    exact (List.getElem?_eq_some_iff.mp hn).1
  have hreach : ∀ i < R.module.nodes.length, ReflTransGen R'.module.Calls 0 i := by
    intro i hi
    refine ReflTransGen.mono ?_ _ _ (h.reach i hi)
    rintro a b ⟨J, hJ⟩
    exact ⟨J, by rw [hedges]; exact List.mem_append_left _ hJ⟩
  refine ⟨?_, ?_, ?_, ?_, ?_, ?_, hstarted, ?_⟩
  · intro i hi f' hf' I' hI' hnot k' hk'
    rw [hvisited] at hi
    obtain ⟨f0, hf0, _⟩ := (hB.body i).mp (List.mem_append_left _ hi)
    rw [hold i (hlt hf0)] at hf'
    by_cases heq : (i, I') = (node, I)
    · cases heq
      rw [hnode] at hf'
      cases hf'
      rw [hk] at hk'
      cases hk'
      refine ⟨id, n, ?_, by rw [hnodes]; exact hn, hkey⟩
      rw [hedges]
      exact List.mem_append_right _ List.mem_cons_self
    · have hnot' : (i, I') ∉ (node, I) :: rest := fun hm =>
        (List.mem_cons.mp hm).elim heq hnot
      obtain ⟨d, m, hd, hm, hmk⟩ := h.called i hi f' hf' I' hI' hnot' k' hk'
      exact ⟨d, m, by rw [hedges]; exact List.mem_append_left _ hd, by rw [hold d (hlt hm)]; exact hm,
        hmk⟩
  · intro e he
    rw [hedges] at he
    rw [hvisited]
    rcases List.mem_append.mp he with he | he
    · obtain ⟨h1, h2, f', m, h3, h4, h5, h6⟩ := h.edge e he
      exact ⟨h1, fun hm => h2 (List.mem_cons_of_mem _ hm), f', m, by rw [hold _ (hlt h3)]; exact h3,
        h4, by rw [hold _ (hlt h5)]; exact h5, h6⟩
    · rw [List.mem_singleton] at he
      subst he
      exact ⟨hvis, hrest, f, n, by rw [hold _ hnodelt]; exact hnode, hI, by rw [hnodes]; exact hn,
        by rw [hk, hkey]⟩
  · rw [hedges]
    refine List.Nodup.append h.nodup (List.nodup_singleton _) ?_
    intro e he hm
    rw [List.mem_singleton] at hm
    subst hm
    exact (h.edge _ he).2.1 List.mem_cons_self
  · rw [hold 0 (hlt h.entry)]
    exact h.entry
  · intro i hi
    rw [hnodes] at hi
    rcases hgot.only i hi with hi | rfl
    · exact hreach i hi
    · refine (hreach node hnodelt).tail ⟨I, ?_⟩
      rw [hedges]
      exact List.mem_append_right _ List.mem_cons_self
  · rw [hedges, ← h.linked, ← hgot.linked]
    unfold Discovery.linked
    rw [htrace, List.filterMap_append]
    rfl
  · intro pre e post heq
    rw [htrace] at heq
    rcases split_concat heq with ⟨rfl, he⟩ | ⟨post', hpre⟩
    · cases he
      refine ⟨.inl (hB1.started node ?_), ?_⟩
      · rw [hgot.visited]
        exact List.mem_append_left _ hvis
      · by_cases ho : OnlyCallSite P K R'.module id
        · exact .inr ho
        · exact .inl ((hstarted' id).mp ((hstarted id hid).mpr ho))
    · rw [ht] at hpre
      obtain ⟨post'', hpre⟩ := split_left (hedge e) hpre
      obtain ⟨h1, h2⟩ := h.before pre e post'' hpre
      have he : e ∈ R.module.edges := by
        rw [← h.linked]
        unfold Discovery.linked
        rw [hpre]
        simp
      obtain ⟨_, _, _, m, _, _, hm, _⟩ := h.edge e he
      refine ⟨h1, h2.imp_right ?_⟩
      exact (h.onlyCallSite hedges (hlt hm) (hold _ (hlt hm))).mpr

variable [DecidableEq Inst]

theorem createEdge_of_notMem {e : CallEdge Inst} (he : e ∉ R.module.edges) :
    (createEdge K R e.src (some e.dst) e.inst).module =
      { R.module with edges := R.module.edges ++ [e] } := by
  show R.module.insertEdge e = _
  rw [CtxModule.insertEdge, if_neg he]

theorem Base.createEdge (hR : R.Base) (node id : CallNodeID) (I : Inst) :
    (createEdge K R node (some id) I).Base := by
  have htrace : (Discovery.createEdge K R node (some id) I).trace =
      R.trace ++ [.newEdge ⟨node, I, id⟩] := rfl
  have hnodes : (Discovery.createEdge K R node (some id) I).module.nodes = R.module.nodes := by
    show (R.module.insertEdge _).nodes = _
    unfold CtxModule.insertEdge
    split <;> rfl
  have hfind : ∀ k, (Discovery.createEdge K R node (some id) I).module.find k = R.module.find k := by
    intro k
    show (R.module.insertEdge _).find k = _
    unfold CtxModule.insertEdge
    split <;> cases k <;> rfl
  have hvis : (Discovery.createEdge K R node (some id) I).visited = R.visited := by
    apply visited_append htrace
    simp
  have hstarted : ∀ i, Started (Discovery.createEdge K R node (some id) I).trace i ↔
      Started R.trace i := by
    intro i
    simp [Started, htrace]
  refine ⟨?_, ?_, ?_, ?_, ?_⟩
  · intro k i
    rw [hfind, hnodes]
    exact hR.find k i
  · rw [hvis]
    exact hR.nodup
  · intro i
    rw [hvis, hnodes]
    exact hR.body i
  · intro i hi
    rw [hvis] at hi
    rw [htrace]
    exact List.mem_append_left _ (hR.started i hi)
  · intro i hi
    rw [hnodes]
    exact hR.bound i ((hstarted i).mp hi)

variable [DecidableEq Ctx] [DecidableEq Fun]

/-- the call instruction at the head of the list is visited -/
theorem Links.visitCall (hB : R.Base) {node : CallNodeID} {f : CtxFunction Ctx Fun Inst} {I : Inst}
    (hnode : R.module.nodes[node]? = some (.direct f)) (hvis : node ∈ R.visited)
    (hI : I ∈ P.calls f.function) (hrest : (node, I) ∉ rest)
    (h : Links P T K main ((node, I) :: rest) R) :
    (visitCall P T K node f.context R I).Base ∧
      Links P T K main rest (visitCall P T K node f.context R I) := by
  rcases visitCall_cases P T K node f.context R I with ⟨hnone, heq⟩ | ⟨k, id, R1, hk, hget, heq⟩
  · rw [heq]
    refine ⟨hB, ?_, ?_, h.nodup, h.entry, h.reach, h.linked, h.started, h.before⟩
    · intro id hid f' hf' I' hI' hnot k hk
      refine h.called id hid f' hf' I' hI' ?_ k hk
      intro hm
      rcases List.mem_cons.mp hm with heq' | hm
      · cases heq'
        rw [hnode] at hf'
        cases hf'
        rw [hnone] at hk
        cases hk
      · exact hnot hm
    · intro e he
      obtain ⟨h1, h2, h3⟩ := h.edge e he
      exact ⟨h1, fun hm => h2 (List.mem_cons_of_mem _ hm), h3⟩
  · obtain ⟨hB1, hgot⟩ := hget.got hB
    have hnew : (⟨node, I, id⟩ : CallEdge Inst) ∉ R1.module.edges := by
      rw [hgot.edges]
      exact fun hm => (h.edge _ hm).2.1 List.mem_cons_self
    rw [heq]
    exact ⟨hB1.createEdge node id I, h.link hB hB1 hnode hvis hI hrest hk hgot
      (createEdge_of_notMem hnew) rfl⟩

theorem visitCall_kept (hR : R.Base) (node : CallNodeID) (C : Ctx) (I : Inst) :
    (visitCall P T K node C R I).visited = R.visited ∧
      ∀ (i : CallNodeID) (n : CallGraphNode Ctx Fun Inst Val), R.module.nodes[i]? = some n →
        (visitCall P T K node C R I).module.nodes[i]? = some n := by
  rcases visitCall_cases P T K node C R I with ⟨_, heq⟩ | ⟨k, id, R1, _, hget, heq⟩
  · rw [heq]
    exact ⟨rfl, fun _ _ h => h⟩
  · obtain ⟨_, hgot⟩ := hget.got hR
    have hnodes : (createEdge K R1 node (some id) I).module.nodes = R1.module.nodes := by
      show (R1.module.insertEdge _).nodes = _
      unfold CtxModule.insertEdge
      split <;> rfl
    rw [heq, hnodes]
    refine ⟨?_, hgot.node⟩
    rw [← hgot.visited]
    have htrace : (createEdge K R1 node (some id) I).trace =
      R1.trace ++ [.newEdge ⟨node, I, id⟩] := rfl
    apply visited_append htrace
    simp

/-- the body of a function that waited in the queue is visited -/
theorem Links.visitCallNode {node : CallNodeID} {queue : List CallNodeID} (hB : R.Base)
    (h : Links P T K main [] R) (hqueue : R.queue = node :: queue) :
    let R' := visitCallNode P T K { R with queue := queue } node
    R'.Base ∧ Links P T K main [] R' := by
  have hmem : node ∈ R.visited ++ R.queue := by
    rw [hqueue]
    exact List.mem_append_right _ List.mem_cons_self
  obtain ⟨f, hf, _⟩ := (hB.body node).mp hmem
  -- the body is marked as visited first
  obtain ⟨R0, hR0⟩ : ∃ R0 : Discovery Ctx Fun Inst Val σ,
      R0 = { R with queue := queue, trace := R.trace ++ [.visit node] } := ⟨_, rfl⟩
  have hvis : R0.visited = R.visited ++ [node] := by
    subst hR0
    unfold visited
    rw [List.filterMap_append]
    rfl
  have hall : R0.visited ++ R0.queue = R.visited ++ R.queue := by
    rw [hvis, hqueue, hR0, List.append_assoc]
    rfl
  have hlinked : R0.linked = R.linked := by
    subst hR0
    apply linked_append rfl
    simp
  have hstarted : ∀ i, Started R0.trace i ↔ Started R.trace i := by
    intro i
    subst hR0
    simp [Started]
  have hmod : R0.module = R.module := by rw [hR0]
  have hB0 : R0.Base := by
    refine ⟨by rw [hmod]; exact hB.find, by rw [hall]; exact hB.nodup, ?_, ?_, ?_⟩
    · intro i
      rw [hall, hmod]
      exact hB.body i
    · intro i hi
      rw [hall] at hi
      rw [hR0]
      exact List.mem_append_left _ (hB.started i hi)
    · intro i hi
      rw [hmod]
      exact hB.bound i ((hstarted i).mp hi)
  have hnot : node ∉ R.visited := by
    have := hB.nodup
    rw [hqueue, List.nodup_append] at this
    exact fun hm => this.2.2 node hm node List.mem_cons_self rfl
  have h0 : Links P T K main ((P.calls f.function).map (node, ·)) R0 := by
    refine ⟨?_, ?_, by rw [hmod]; exact h.nodup, by rw [hmod]; exact h.entry,
      by rw [hmod]; exact h.reach, by rw [hlinked, hmod]; exact h.linked, ?_, ?_⟩
    · intro i hi f' hf' I hI hrest k hk
      rw [hmod] at hf' ⊢
      rw [hvis] at hi
      rcases List.mem_append.mp hi with hi | hi
      · exact h.called i hi f' hf' I hI List.not_mem_nil k hk
      · rw [List.mem_singleton] at hi
        subst hi
        rw [hf] at hf'
        cases hf'
        exact absurd (List.mem_map_of_mem hI) hrest
    · intro e he
      rw [hmod] at he ⊢
      rw [hvis]
      obtain ⟨h1, _, h3⟩ := h.edge e he
      refine ⟨List.mem_append_left _ h1, ?_, h3⟩
      intro hm
      obtain ⟨I, _, heq⟩ := List.mem_map.mp hm
      have hsrc : node = e.src := congrArg Prod.fst heq
      exact hnot (hsrc ▸ h1)
    · intro i hi
      rw [hmod] at hi ⊢
      rw [hstarted]
      exact h.started i hi
    · intro pre e post heq
      rw [hmod]
      rw [hR0] at heq
      rcases split_concat heq with ⟨_, he⟩ | ⟨post', hpre⟩
      · cases he
      · exact h.before pre e post' hpre
  have hrun : ∀ (l : List Inst) (R : Discovery Ctx Fun Inst Val σ), (∀ I ∈ l, I ∈ P.calls f.function) →
      l.Nodup → R.Base → node ∈ R.visited → R.module.nodes[node]? = some (.direct f) →
      Links P T K main (l.map (node, ·)) R →
      (l.foldl (Discovery.visitCall P T K node f.context) R).Base ∧
        Links P T K main [] (l.foldl (Discovery.visitCall P T K node f.context) R) := by
    intro l
    induction l with
    | nil => exact fun R _ _ hB _ _ h => ⟨hB, h⟩
    | cons I l ih =>
      intro R hsub hnd hB hv hn h
      obtain ⟨hI, hnd⟩ := List.nodup_cons.mp hnd
      have hrest : (node, I) ∉ l.map (node, ·) := by
        intro hm
        obtain ⟨J, hJ, heq⟩ := List.mem_map.mp hm
        cases heq
        exact hI hJ
      obtain ⟨hB', h'⟩ := h.visitCall hB hn hv (hsub I List.mem_cons_self) hrest
      obtain ⟨hvis', hnode'⟩ := visitCall_kept (P := P) (T := T) (K := K) hB node f.context I
      exact ih _ (fun J hJ => hsub J (List.mem_cons_of_mem _ hJ)) hnd hB' (by rw [hvis']; exact hv)
        (hnode' node _ hn) h'
  have heq : Discovery.visitCallNode P T K { R with queue := queue } node =
      (P.calls f.function).foldl (Discovery.visitCall P T K node f.context) R0 := by
    unfold Discovery.visitCallNode
    dsimp only
    rw [hf, hR0]
  intro R'
  show (Discovery.visitCallNode P T K _ node).Base ∧ Links P T K main [] (Discovery.visitCallNode ..)
  rw [heq]
  exact hrun _ R0 (fun _ h => h) (P.nodup _) hB0 (by rw [hvis]; simp) (by rw [hmod]; exact hf) h0

end

/-! ## termination -/

section

variable [DecidableEq Ctx] [DecidableEq Fun] [DecidableEq Inst] [Fintype Ctx] [Fintype Fun]
variable {P : CallSites Fun Inst} {T : CtxDomain Ctx Inst} {K : CallBacks Ctx Fun Inst Val σ}
variable {main : CtxFunction Ctx Fun Inst}

/-- the pairs of a context and a function that have no node yet -/
def unmapped (M : CtxModule Ctx Fun Inst Val) : Finset (Ctx × Fun) :=
  Finset.univ.filter fun k => M.ctxFunMap k = none

def work (R : Discovery Ctx Fun Inst Val σ) : Nat :=
  (unmapped R.module).card + R.queue.length

theorem GetNode.work {option : InterceptOption} {I : Inst} {k : CallKey Ctx Fun Inst}
    {id : CallNodeID} {R R1 : Discovery Ctx Fun Inst Val σ} (h : GetNode K option I R k id R1) :
    R1.work ≤ R.work := by
  cases h with
  | known h => exact le_rfl
  | inDirect C target h => exact le_rfl
  | direct C F h =>
    obtain ⟨isExt, _, _, _, hfun, _, hqueue, _⟩ := discover_spec K R C F I option
    have hsub : unmapped (discover K R C F I option).module =
        (unmapped R.module).erase (C, F) := by
      ext k
      unfold unmapped
      rw [hfun, Finset.mem_erase, Finset.mem_filter, Finset.mem_filter]
      by_cases hk : k = (C, F)
      · subst hk
        simp
      · rw [Function.update_of_ne hk]
        simp [hk]
    have hmem : (C, F) ∈ unmapped R.module := Finset.mem_filter.mpr ⟨Finset.mem_univ _, h⟩
    have hpos := Finset.card_pos.mpr ⟨_, hmem⟩
    unfold Discovery.work
    rw [hsub, Finset.card_erase_of_mem hmem, hqueue, List.length_append]
    cases isExt
    · simp
      omega
    · simp

theorem work_visitCall (node : CallNodeID) (C : Ctx) (R : Discovery Ctx Fun Inst Val σ) (I : Inst) :
    (visitCall P T K node C R I).work ≤ R.work := by
  rcases visitCall_cases P T K node C R I with ⟨_, heq⟩ | ⟨k, id, R1, _, hget, heq⟩
  · rw [heq]
  · have hfun : (createEdge K R1 node (some id) I).module.ctxFunMap = R1.module.ctxFunMap := by
      show (R1.module.insertEdge _).ctxFunMap = _
      unfold CtxModule.insertEdge
      split <;> rfl
    have hwork : (createEdge K R1 node (some id) I).work = R1.work := by
      unfold work unmapped
      rw [hfun]
      rfl
    rw [heq, hwork]
    exact hget.work

theorem work_visitCallNode (R : Discovery Ctx Fun Inst Val σ) (node : CallNodeID) :
    (visitCallNode P T K R node).work ≤ R.work := by
  unfold visitCallNode
  split
  · rename_i f hf
    have h0 : ({ R with trace := R.trace ++ [.visit node] } : Discovery Ctx Fun Inst Val σ).work =
      R.work := rfl
    exact foldl_inv (I := fun R' : Discovery Ctx Fun Inst Val σ => R'.work ≤ R.work)
      (fun R' I _ h => (work_visitCall node f.context R' I).trans h) h0.le
  · exact le_rfl

/-- the loop over the queue ends, with all bodies visited -/
theorem expandFromNode_spec {R : Discovery Ctx Fun Inst Val σ} (root : CallNodeID) (n : Nat)
    (hB : ({ R with queue := [root] } : Discovery Ctx Fun Inst Val σ).Base)
    (h : Links P T K main [] { R with queue := [root] })
    (hn : Fintype.card (Ctx × Fun) + 1 < n) :
    ∃ R', expandFromNode P T K n R root = some R' ∧ R'.Base ∧ Links P T K main [] R' ∧
      R'.queue = [] := by
  have hstep : ∀ R : Discovery Ctx Fun Inst Val σ, R.Base ∧ Links P T K main [] R →
      (!R.queue.isEmpty) = true → ∃ R', expandNext P T K R = some R' ∧
        (R'.Base ∧ Links P T K main [] R') ∧ R'.work < R.work := by
    rintro R ⟨hB, h⟩ hc
    unfold expandNext
    cases hq : R.queue with
    | nil =>
      rw [hq] at hc
      cases hc
    | cons node queue =>
      refine ⟨_, rfl, h.visitCallNode hB hq, ?_⟩
      refine Nat.lt_of_le_of_lt (work_visitCallNode _ node) ?_
      unfold work
      rw [hq, List.length_cons]
      exact Nat.lt_succ_self _
  have hwork : ({ R with queue := [root] } : Discovery Ctx Fun Inst Val σ).work < n := by
    refine Nat.lt_of_le_of_lt ?_ hn
    exact Nat.add_le_add_right (Finset.card_le_univ _) 1
  obtain ⟨R', hR', ⟨hB', h'⟩, hc⟩ := loop_total work hstep n ⟨hB, h⟩ hwork
  refine ⟨R', hR', hB', h', ?_⟩
  cases hq : R'.queue with
  | nil => rfl
  | cons a l =>
    rw [hq] at hc
    cases hc

end

/-! ## the initial call graph -/

section

variable (P : CallSites Fun Inst) (T : CtxDomain Ctx Inst) (K : CallBacks Ctx Fun Inst Val σ)

/-- the call graph at the end of the construction -/
structure InitCallGraph [DecidableEq Inst] (main : CtxFunction Ctx Fun Inst)
    (R : Discovery Ctx Fun Inst Val σ) : Prop where
  /-- one direct node for a function in a context, one indirect node for a call in a context -/
  unique : ∀ (a b : CallNodeID) (m n : CallGraphNode Ctx Fun Inst Val),
    R.module.nodes[a]? = some m → R.module.nodes[b]? = some n → m.key = n.key → a = b
  /-- the bodies of the direct nodes that are not external are visited once -/
  visited : R.visited.Nodup ∧ ∀ id, id ∈ R.visited ↔
    ∃ f, R.module.nodes[id]? = some (.direct f) ∧ f.isExt = false
  /-- one edge for each call of a body that was visited, none if it is ignored -/
  called : ∀ id ∈ R.visited, ∀ f, R.module.nodes[id]? = some (.direct f) →
    ∀ I ∈ P.calls f.function, match callee P T K f.context I with
      | none => R.module.callEdges id I = []
      | some k => ∃ d n, R.module.callEdges id I = [⟨id, I, d⟩] ∧
          R.module.nodes[d]? = some n ∧ n.key = k
  /-- no other edges -/
  edge : ∀ e ∈ R.module.edges, e.src ∈ R.visited ∧
    ∃ f, R.module.nodes[e.src]? = some (.direct f) ∧ e.inst ∈ P.calls f.function
  /-- the entry node is the first one -/
  entry : R.module.nodes[0]? = some (.direct main)
  reach : ∀ id < R.module.nodes.length, ReflTransGen R.module.Calls 0 id
  /-- as `resolveCallTo` asserts -/
  inDirect : ∀ (id : CallNodeID) (c : InDirectCallSite Ctx Fun Inst Val),
    R.module.nodes[id]? = some (.inDirect c) → (R.module.predEdges id).length = 1
  /-- the edge callback is called once for every edge -/
  linked : R.linked = R.module.edges ∧ R.module.edges.Nodup
  /-- at that time both nodes were initialised, or the callee never will be -/
  before : ∀ pre e post, R.trace = pre ++ .newEdge e :: post →
    Started pre e.src ∧ (Started pre e.dst ∨ OnlyCallSite P K R.module e.dst)
  started : ∀ id < R.module.nodes.length, Started R.trace id ↔ ¬ OnlyCallSite P K R.module id

variable {P T K} {R : Discovery Ctx Fun Inst Val σ} {main : CtxFunction Ctx Fun Inst}

theorem filter_eq_singleton {α : Type} {p : α → Bool} {l : List α} {a : α} (hl : l.Nodup)
    (ha : a ∈ l) (hp : p a = true) (hu : ∀ b ∈ l, p b = true → b = a) : l.filter p = [a] := by
  have hnd := hl.filter p
  have hmem : ∀ b, b ∈ l.filter p ↔ b = a := by
    intro b
    rw [List.mem_filter]
    constructor
    · exact fun h => hu b h.1 h.2
    · rintro rfl
      exact ⟨ha, hp⟩
  refine List.perm_singleton.mp ((List.perm_ext_iff_of_nodup hnd (List.nodup_singleton a)).mpr ?_)
  intro b
  rw [hmem, List.mem_singleton]

/-- the key of an indirect node has the context and the instruction of the call -/
theorem callee_inDirect {C C' : Ctx} {I I' : Inst} (h : callee P T K C I = some (.inDirect C' I')) :
    C = C' ∧ I = I' := by
  unfold callee target at h
  split at h
  · cases h
    exact ⟨rfl, rfl⟩
  · split at h
    · cases h
    · split at h
      · cases h
      · cases h
        exact ⟨rfl, rfl⟩

theorem Links.initCallGraph [DecidableEq Inst] (hB : R.Base) (h : Links P T K main [] R)
    (hq : R.queue = []) : InitCallGraph P T K main R := by
  have hnd := hB.nodup
  have hbody := hB.body
  rw [hq, List.append_nil] at hnd hbody
  refine ⟨fun a b m n ha hb hk => hB.unique ha hb hk, ⟨hnd, hbody⟩, ?_, ?_, h.entry,
    h.reach, ?_,
    ⟨h.linked, h.nodup⟩, h.before, h.started⟩
  · intro id hid f hf I hI
    cases hk : callee P T K f.context I with
    | none =>
      show R.module.callEdges id I = []
      unfold CtxModule.callEdges
      rw [List.filter_eq_nil_iff]
      intro e he hp
      obtain ⟨hsrc, hinst⟩ := of_decide_eq_true hp
      obtain ⟨_, _, f', n, hf', _, _, hc⟩ := h.edge e he
      rw [hsrc, hf] at hf'
      cases hf'
      rw [hinst, hk] at hc
      cases hc
    | some k =>
      obtain ⟨d, n, hd, hn, hkey⟩ := h.called id hid f hf I hI List.not_mem_nil k hk
      refine ⟨d, n, ?_, hn, hkey⟩
      refine filter_eq_singleton h.nodup hd (decide_eq_true ⟨rfl, rfl⟩) ?_
      intro e he hp
      obtain ⟨hsrc, hinst⟩ := of_decide_eq_true hp
      obtain ⟨_, _, f', m, hf', _, hm, hc⟩ := h.edge e he
      rw [hsrc, hf] at hf'
      cases hf'
      rw [hinst, hk] at hc
      have hdst : e.dst = d := hB.unique hm hn (by rw [hkey]; exact (Option.some.inj hc).symm)
      rw [← hsrc, ← hinst, ← hdst]
  · intro e he
    obtain ⟨h1, _, f, _, h3, h4, _⟩ := h.edge e he
    exact ⟨h1, f, h3, h4⟩
  · intro id c hc
    have hlt := (List.getElem?_eq_some_iff.mp hc).1
    have h0 : id ≠ 0 := by
      rintro rfl
      rw [h.entry] at hc
      cases hc
    obtain ⟨e, he⟩ := h.creator hlt h0
    unfold CtxModule.creator at he
    have hmem := List.mem_of_find?_eq_some he
    have hdst : e.dst = id := by
      have := List.find?_some he
      exact of_decide_eq_true this
    have hcall : ∀ e' ∈ R.module.edges, e'.dst = id → e'.inst = c.callSite ∧
        ∃ f, R.module.nodes[e'.src]? = some (.direct f) ∧ f.context = c.context ∧
          e'.inst ∈ P.calls f.function := by
      intro e' he' hdst'
      obtain ⟨_, _, f, n, hf, hI, hn, hcallee⟩ := h.edge e' he'
      rw [hdst', hc] at hn
      cases hn
      obtain ⟨h1, h2⟩ := callee_inDirect hcallee
      exact ⟨h2, f, hf, h1, hI⟩
    have hone : R.module.predEdges id = [e] := by
      refine filter_eq_singleton h.nodup hmem (decide_eq_true hdst) ?_
      intro e' he' hp
      obtain ⟨hi, f, hf, hctx, hI⟩ := hcall e hmem hdst
      obtain ⟨hi', f', hf', hctx', hI'⟩ := hcall e' he' (of_decide_eq_true hp)
      have hfun : f'.function = f.function := by
        rw [hi] at hI
        rw [hi'] at hI'
        exact P.unique hI' hI
      have hsrc : e'.src = e.src := by
        refine hB.unique hf' hf ?_
        show CallKey.direct f'.context f'.function = CallKey.direct f.context f.function
        rw [hctx, hctx', hfun]
      have hdst' := of_decide_eq_true hp
      cases e
      cases e'
      simp_all
    rw [hone]
    rfl

variable [DecidableEq Ctx] [DecidableEq Fun] [DecidableEq Inst] [Fintype Ctx] [Fintype Fun]

/-- the construction ends with all bodies visited -/
theorem buildInitCallGraph_links (P : CallSites Fun Inst) (T : CtxDomain Ctx Inst)
    (K : CallBacks Ctx Fun Inst Val σ) (entryFun : Fun) (data : σ)
    (hentry : P.isDeclaration entryFun = false)
    (hnew : ∀ M : CtxModule Ctx Fun Inst Val,
      M.nodes[0]? = some (.direct ⟨T.getInitialCtx, entryFun, none, false⟩) →
        (K.onNewDirect M 0 data).2 = true)
    (n : Nat) (hn : Fintype.card (Ctx × Fun) + 1 < n) :
    ∃ R, buildInitCallGraph P T K n entryFun data = some R ∧ R.Base ∧
      Links P T K ⟨T.getInitialCtx, entryFun, none, false⟩ [] R ∧ R.queue = [] := by
  let M : CtxModule Ctx Fun Inst Val :=
    (CtxModule.createCallNode {} T.getInitialCtx entryFun none).1
  have hM0 : M.nodes[0]? = some (.direct ⟨T.getInitialCtx, entryFun, none, false⟩) := rfl
  have hbody := hnew M hM0
  let R0 : Discovery Ctx Fun Inst Val σ := ⟨M, [0], (K.onNewDirect M 0 data).1, [.newDirect 0]⟩
  have hone : ∀ (i : CallNodeID) (m : CallGraphNode Ctx Fun Inst Val), M.nodes[i]? = some m →
      i = 0 ∧ m = .direct ⟨T.getInitialCtx, entryFun, none, false⟩ := by
    intro i m hm
    cases i with
    | zero =>
      rw [hM0] at hm
      exact ⟨rfl, (Option.some.inj hm).symm⟩
    | succ i => cases hm
  have hstart : Added (.direct ⟨T.getInitialCtx, entryFun, none, false⟩) [0] [.newDirect 0]
      (⟨{}, [], data, []⟩ : Discovery Ctx Fun Inst Val σ) R0 := by
    refine ⟨rfl, rfl, rfl, ?_, ?_, rfl, rfl, fun e he => .inl (List.mem_singleton.mp he),
      .inl ⟨rfl, ⟨_, rfl, rfl⟩, List.mem_cons_self⟩⟩
    · exact Function.update_self ..
    · intro k hk
      cases k with
      | direct C F =>
        refine Function.update_of_ne ?_ _ _
        intro heq
        cases heq
        exact hk rfl
      | inDirect C I => rfl
  have hempty : (⟨{}, [], data, []⟩ : Discovery Ctx Fun Inst Val σ).Base := by
    refine ⟨?_, List.nodup_nil, ?_, fun id hid => (by cases hid), ?_⟩
    · intro k id
      constructor
      · intro h
        cases k <;> cases h
      · rintro ⟨n, hn, _⟩
        cases hn
    · intro id
      constructor
      · intro h
        cases h
      · rintro ⟨f, hf, _⟩
        cases hf
    · rintro id (h | h)
      · cases h
      · cases h
  have hB : R0.Base := hstart.base hempty
  have hL : Links P T K ⟨T.getInitialCtx, entryFun, none, false⟩ [] R0 := by
    refine ⟨fun id hid => (by cases hid), fun e he => (by cases he), List.nodup_nil, hM0, ?_, rfl,
      ?_, ?_⟩
    · intro id hid
      obtain ⟨rfl, _⟩ := hone id _ (List.getElem?_eq_getElem hid)
      exact .refl
    · intro id hid
      obtain ⟨rfl, _⟩ := hone id _ (List.getElem?_eq_getElem hid)
      exact ⟨fun _ h => h.1 rfl, fun _ => .inl List.mem_cons_self⟩
    · intro pre e post heq
      have : .newEdge e ∈ ([.newDirect 0] : List (CallEvent Inst)) := by
        rw [show ([.newDirect 0] : List (CallEvent Inst)) = pre ++ .newEdge e :: post from heq]
        simp
      cases List.mem_singleton.mp this
  obtain ⟨R, hR, hBR, hLR, hq⟩ := expandFromNode_spec (R := ⟨M, [], R0.data, R0.trace⟩) 0 n hB hL hn
  refine ⟨R, ?_, hBR, hLR, hq⟩
  unfold buildInitCallGraph
  rw [hentry]
  show (if (K.onNewDirect M 0 data).2 then _ else none) = _
  rw [if_pos hbody]
  exact hR

/-- The construction ends, for every domain of contexts that is finite, and yields the call graph of the
program, whatever else the callbacks do when they find the entry function to have a body. -/
theorem buildInitCallGraph_spec (P : CallSites Fun Inst) (T : CtxDomain Ctx Inst)
    (K : CallBacks Ctx Fun Inst Val σ) (entryFun : Fun) (data : σ)
    (hentry : P.isDeclaration entryFun = false)
    (hnew : ∀ M : CtxModule Ctx Fun Inst Val,
      M.nodes[0]? = some (.direct ⟨T.getInitialCtx, entryFun, none, false⟩) →
        (K.onNewDirect M 0 data).2 = true)
    (n : Nat) (hn : Fintype.card (Ctx × Fun) + 1 < n) :
    ∃ R, buildInitCallGraph P T K n entryFun data = some R ∧
      InitCallGraph P T K ⟨T.getInitialCtx, entryFun, none, false⟩ R := by
  obtain ⟨R, hR, hB, hL, hq⟩ := buildInitCallGraph_links P T K entryFun data hentry hnew n hn
  exact ⟨R, hR, hL.initCallGraph hB hq⟩

end

/-! ## a program with a recursive function -/

/-- function 0 calls function 1, which calls itself -/
def sampleCalls : CallSites (Fin 2) (Fin 2) where
  calls F := [F]
  getTargetFunction _ := some (Fin.last 1)
  isDeclaration _ := false
  nodup F := List.nodup_singleton F
  unique hF hG := (List.mem_singleton.mp hF).symm.trans (List.mem_singleton.mp hG)

/-- one context for the entry function, one for all calls -/
def sampleCtx : CtxDomain Bool (Fin 2) := ⟨false, false, fun _ _ => true⟩

/-- calls of function 1 are intercepted -/
def sampleCallBacks (option : InterceptOption) : CallBacks Bool (Fin 2) (Fin 2) Unit Unit where
  beforeNewNode F _ := ⟨.function F, if F = Fin.last 1 then option else .expandBody⟩
  onNewDirect _ _ s := (s, true)
  onNewInDirect _ _ s := s
  onNewEdge _ _ s := s

/-- the entry function is visited, the callback of its call comes, and then function 1 is visited -/
theorem sampleCalls_trace :
    (buildInitCallGraph sampleCalls sampleCtx (sampleCallBacks .expandBody) 6 0 ()).map (·.trace) =
      some [.newDirect 0, .visit 0, .newDirect 1, .newEdge ⟨0, 0, 1⟩, .visit 1, .newEdge ⟨1, 1, 1⟩] := by
  decide

theorem buildInitCallGraph_spec_sample :
    (∃ R, buildInitCallGraph sampleCalls sampleCtx (sampleCallBacks .expandBody) 6 0 () = some R ∧
      InitCallGraph sampleCalls sampleCtx (sampleCallBacks .expandBody) ⟨false, 0, none, false⟩ R ∧
      R.trace = [.newDirect 0, .visit 0, .newDirect 1, .newEdge ⟨0, 0, 1⟩, .visit 1,
        .newEdge ⟨1, 1, 1⟩]) ∧
    (∃ R, buildInitCallGraph sampleCalls sampleCtx (sampleCallBacks .onlyCallSite) 6 0 () = some R ∧
      InitCallGraph sampleCalls sampleCtx (sampleCallBacks .onlyCallSite) ⟨false, 0, none, false⟩ R) ∧
    ∃ R, buildInitCallGraph sampleCalls sampleCtx (sampleCallBacks .ignore) 6 0 () = some R ∧
      InitCallGraph sampleCalls sampleCtx (sampleCallBacks .ignore) ⟨false, 0, none, false⟩ R := by
  have hspec := fun option => buildInitCallGraph_spec sampleCalls sampleCtx (sampleCallBacks option) 0 ()
    rfl (fun _ _ => rfl) 6 (by decide)
  refine ⟨?_, hspec .onlyCallSite, hspec .ignore⟩
  obtain ⟨R, hR, hgraph⟩ := hspec .expandBody
  have htrace := sampleCalls_trace
  rw [hR] at htrace
  exact ⟨R, hR, hgraph, Option.some.inj htrace⟩

/-- The body of function 1 is not wanted, so the node of the function is not initialised when the edge
to it is. -/
theorem callee_not_initialised :
    ¬ ∀ R, buildInitCallGraph sampleCalls sampleCtx (sampleCallBacks .onlyCallSite) 6 0 () = some R →
      ∀ pre e post, R.trace = pre ++ .newEdge e :: post → Started pre e.src ∧ Started pre e.dst := by
  intro h
  have hrun : (buildInitCallGraph sampleCalls sampleCtx (sampleCallBacks .onlyCallSite) 6 0 ()).map
      (·.trace) = some [.newDirect 0, .visit 0, .newEdge ⟨0, 0, 1⟩] := by
    decide
  obtain ⟨R, hR, htrace⟩ := Option.map_eq_some_iff.mp hrun
  obtain ⟨_, h1⟩ := h R hR [.newDirect 0, .visit 0] ⟨0, 0, 1⟩ [] htrace
  revert h1
  unfold Started
  decide

end Discovery

end AserPTA
