import AserPTA.Context.Domains
import AserPTA.Program.Execution

/-!
# Contexts only refine the analysis

Two analyses of one program, with a policy of contexts that coarsens to another one: the one that tells
more contexts apart finds nothing that the other one does not find.

* `FSObject.coarsen`, `Cell.coarsen`, `Event.coarsen`   the maps of contexts on the facts;
* `EventCons.coarsen`          constraints go to constraints;
* `coarsening`                 the map between the two systems of rules;
* `Finished.coarsen`           so between the results of two runs;
* `aliasIfExsit_coarsen`, `getPointsTo_coarsen`   and between the answers to the queries.
-/

namespace AserPTA

variable {Ctx Ctx' Fun Val Ty : Type}

/-! ## facts -/

section
variable (f : Ctx → Ctx')

def FSObject.coarsen (o : FSObject Ctx Val) : FSObject Ctx' Val := ⟨f o.context, o.value, o.pOffset⟩

def Cell.coarsen : Cell Ctx Fun Val → Cell Ctx' Fun Val
  | .ptr C V => .ptr (f C) V
  | .ret C F => .ret (f C) F
  | .obj o => .obj (o.coarsen f)

def Event.coarsen : Event Ctx Fun Val → Event Ctx' Fun Val
  | .program => .program
  | .body C F => .body (f C) F
  | .call C I G => .call (f C) I G

end

section
variable [DecidableEq Val] {P : Program Fun Val Ty} {T : CtxDomain Ctx Val} {T' : CtxDomain Ctx' Val}
  {L : LangModel Fun Val Ty} (m : T.Coarsens T')

theorem cell_coarsen (C : Ctx) (V : Val) : (cell P T C V : Cell Ctx Fun Val).coarsen m.map =
    cell P T' (m.map C) V := by
  unfold cell Builder.ctxOf
  split
  · exact congrArg (Cell.ptr · _) m.global
  · split
    · exact congrArg (Cell.ptr · _) m.global
    · rfl

/-! ## constraints -/

variable {C : Ctx} {F G : Fun} {I : Val} {k : Constraints} {x y : Cell Ctx Fun Val}

theorem InstCons.coarsen (h : InstCons P T C F I k x y) :
    InstCons P T' (m.map C) F I k (x.coarsen m.map) (y.coarsen m.map) := by
  cases h with
  | alloca h => exact .alloca h
  | load h hptr =>
    rw [cell_coarsen, cell_coarsen]
    exact .load h hptr
  | store h hptr huni hnull =>
    rw [cell_coarsen, cell_coarsen]
    exact .store h hptr huni hnull
  | gep h hne =>
    rw [cell_coarsen, cell_coarsen]
    exact .gep h hne
  | phi h hptr hV =>
    rw [cell_coarsen, cell_coarsen]
    exact .phi h hptr hV
  | select h hptr hV =>
    rw [cell_coarsen, cell_coarsen]
    exact .select h hptr hV
  | ret h hptr =>
    rw [cell_coarsen]
    exact .ret h hptr

theorem CallCons.coarsen (h : CallCons P T L C I G k x y) :
    CallCons P T' L (m.map C) I G k (x.coarsen m.map) (y.coarsen m.map) := by
  cases h with
  | heap h =>
    rw [cell_coarsen]
    exact .heap h
  | thread h hcs hthread hargs hop =>
    rw [cell_coarsen, cell_coarsen, m.evolve]
    exact .thread h hcs hthread hargs hop
  | arg h hcs hthread hnames hbody hp =>
    rw [cell_coarsen, cell_coarsen, m.evolve]
    exact .arg h hcs hthread hnames hbody hp
  | ret h hcs hthread hnames hbody hreturned hptr =>
    rw [cell_coarsen]
    show CallCons P T' L (m.map C) I G .copy (.ret (m.map (T.contextEvolve C I)) G) _
    rw [m.evolve]
    exact .ret h hcs hthread hnames hbody hreturned hptr

variable {init : FSObject Ctx Val → FSObject Ctx Val → Prop}
  {init' : FSObject Ctx' Val → FSObject Ctx' Val → Prop}

theorem EventCons.coarsen (hinit : ∀ o o', init o o' → init' (o.coarsen m.map) (o'.coarsen m.map))
    {e : Event Ctx Fun Val} (h : EventCons P T L init e k x y) :
    EventCons P T' L init' (e.coarsen m.map) k (x.coarsen m.map) (y.coarsen m.map) := by
  cases h with
  | program h =>
    cases h with
    | addr hV =>
      show EventCons P T' L init' .program .addrOf (.obj ⟨m.map T.getGlobalCtx, _, 0⟩)
        (.ptr (m.map T.getGlobalCtx) _)
      rw [m.global]
      exact .program (.addr hV)
    | init h => exact .program (.init (hinit _ _ h))
  | body hI h => exact .body hI (h.coarsen m)
  | call h => exact .call (h.coarsen m)

/-! ## rules -/

variable [DecidableEq Ty]
  {Mem : MemModel (FSObject Ctx Val) (Pointer Ctx Val)}
  {Mem' : MemModel (FSObject Ctx' Val) (Pointer Ctx' Val)}

/-- the memory models take the same fields, in whatever context -/
def SameFields (f : Ctx → Ctx') (Mem : MemModel (FSObject Ctx Val) (Pointer Ctx Val))
    (Mem' : MemModel (FSObject Ctx' Val) (Pointer Ctx' Val)) : Prop :=
  ∀ o C V field, Mem.indexObject o ⟨C, V⟩ = some field →
    Mem'.indexObject (o.coarsen f) ⟨f C, V⟩ = some (field.coarsen f)

/-- the map from the rules of one analysis to those of the other -/
def coarsening (hMem : SameFields m.map Mem Mem') (main : Fun)
    (hinit : ∀ o o', init o o' → init' (o.coarsen m.map) (o'.coarsen m.map)) :
    Inclusion.Dynamic.Morphism (analysis P T L Mem main init) (analysis P T' L Mem' main init') where
  var := Cell.coarsen m.map
  obj := FSObject.coarsen m.map
  event := Event.coarsen m.map
  cell _ := rfl
  index e s d o field _ h := by
    cases d with
    | ptr C V => exact hMem o C V field h
    | ret C F => cases h
    | obj o => cases h
  start e h := by
    rcases h with rfl | rfl
    · exact .inl rfl
    · exact .inr (congrArg (Event.body · main) m.initial)
  next e e' h := by
    rcases h with ⟨C, F, I, G, rfl, rfl, h⟩ | ⟨C, I, G, rfl, rfl, h⟩
    · exact .inl ⟨m.map C, F, I, G, rfl, rfl, h⟩
    · exact .inr ⟨m.map C, I, G, rfl, congrArg (Event.body · G) (m.evolve C I), h⟩
  trigger e x o e' h := by
    obtain ⟨C, F, I, G, rfl, rfl, funPtr, V, fn, hI, hpending, hV, rfl, h⟩ := h
    exact ⟨m.map C, F, I, G, rfl, rfl, funPtr, V, fn, hI, hpending, hV, cell_coarsen m C V, h⟩
  base _ _ _ h := h.coarsen m hinit
  copy _ _ _ h := h.coarsen m hinit
  load _ _ _ h := h.coarsen m hinit
  store _ _ _ h := h.coarsen m hinit
  offset _ _ _ h := h.coarsen m hinit

/-! ## no null object is found -/

/-- what the program allocates and what it stores in its globals is not null -/
structure NonNull (P : Program Fun Val Ty) (init : FSObject Ctx Val → FSObject Ctx Val → Prop) :
    Prop where
  insts : ∀ F, ∀ I ∈ P.insts F, I ≠ P.nullValue
  symbols : ∀ V ∈ P.globals ++ P.functions.map P.value, V ≠ P.nullValue
  init : ∀ o o', init o o' → o'.value ≠ P.nullValue

theorem call_mem {main : Fun}
    (h : (analysis P T L Mem main init).Derives (.event (.call C I G))) : ∃ F, I ∈ P.insts F := by
  cases h with
  | start hs => rcases hs with hs | hs <;> cases hs
  | next _ hn =>
    rcases hn with ⟨C', F, I', G', -, heq, cs, fn, hI, -⟩ | ⟨C', I', G', -, heq, -⟩
    · cases heq
      exact ⟨F, hI⟩
    · cases heq
  | trigger _ _ ht =>
    obtain ⟨C', F, I', G', -, heq, funPtr, V, fn, hI, -⟩ := ht
    cases heq
    exact ⟨F, hI⟩

theorem NonNull.found {main : Fun} (h : NonNull P init) (hM : KeepsBlock Mem) {x : Cell Ctx Fun Val}
    {o : FSObject Ctx Val} (hd : (analysis P T L Mem main init).Derives (.found x o)) :
    o.value ≠ P.nullValue := by
  suffices hall : ∀ fact, (analysis P T L Mem main init).Derives fact →
      Inclusion.Dynamic.Within (fun _ => True) (fun _ o => o.value ≠ P.nullValue) fact from hall _ hd
  intro fact hfact
  induction hfact with
  | start _ => trivial
  | next _ _ _ => trivial
  | trigger _ _ _ _ _ => trivial
  | base he hc _ =>
    cases hc with
    | program hc =>
      cases hc with
      | addr hV => exact h.symbols _ hV
      | init hi => exact h.init _ _ hi
    | body hI hc =>
      cases hc
      exact h.insts _ _ hI
    | call hc =>
      obtain ⟨F, hI⟩ := call_mem he
      cases hc
      exact h.insts F _ hI
  | copy _ _ _ _ ih => exact ih
  | load _ _ _ _ _ _ ih => exact ih
  | store _ _ _ _ _ _ ih => exact ih
  | @offset e s d o f _ _ _ hf _ ih =>
    cases d with
    | ptr C V =>
      show f.value ≠ P.nullValue
      rw [(hM o ⟨C, V⟩ f hf).2]
      exact ih
    | ret C F => cases hf
    | obj o => cases hf

end

/-! ## results -/

section
variable [DecidableEq Ctx] [DecidableEq Ctx'] [DecidableEq Fun] [DecidableEq Val] [DecidableEq Ty]
variable {P : Program Fun Val Ty} {hlay : P.Layout} {T : CtxDomain Ctx Val} {T' : CtxDomain Ctx' Val}
  {L : LangModel Fun Val Ty} {w w' : Walk} {MaxIndirectTarget MaxIndirectTarget' : Nat}
  {Mem : MemModel (FSObject Ctx Val) (Pointer Ctx Val)}
  {Mem' : MemModel (FSObject Ctx' Val) (Pointer Ctx' Val)} {main : Fun}
  {b₀ b : Builder Ctx Fun Val} {b₀' b' : Builder Ctx' Fun Val} {r : Solving Ctx Fun Val}
  {r' : Solving Ctx' Fun Val} (m : T.Coarsens T')

/-- What a run with more contexts finds, a run with fewer contexts finds as well, whatever their solvers
are: the functions and calls that are reached, and the objects in each cell. -/
theorem Finished.coarser (hP : P.Canonical) (hM : KeepsBlock Mem) (hM' : KeepsBlock Mem')
    (hthread : ∀ v G, L.threadFun v = some G → L.isHeapAllocFun G = false)
    (hMem : SameFields m.map Mem Mem')
    (h : Finished P hlay T L w MaxIndirectTarget Mem main b₀ r b)
    (h' : Finished P hlay T' L w' MaxIndirectTarget' Mem' main b₀' r' b')
    (hinit : ∀ o o', b₀.Stores o o' → b₀'.Stores (o.coarsen m.map) (o'.coarsen m.map)) :
    (∀ ev, r.disc.module.Happens ev → r'.disc.module.Happens (ev.coarsen m.map)) ∧
      ∀ x o, b.Holds x o → b'.Holds (x.coarsen m.map) (o.coarsen m.map) := by
  obtain ⟨hev, hfound⟩ := h.sound hP hM hthread
  have hmodel := h'.complete hP hM'
  exact ⟨fun ev h => ((hev ev h).map (coarsening m hMem main hinit)).le hmodel,
    fun x o h => ((hfound x o h).map (coarsening m hMem main hinit)).le hmodel⟩

namespace SolverBase

/-- Pointers that may alias in two contexts may alias in the coarser ones. -/
theorem aliasIfExsit_coarsen (hP : P.Canonical) (hM : KeepsBlock Mem) (hM' : KeepsBlock Mem')
    (hthread : ∀ v G, L.threadFun v = some G → L.isHeapAllocFun G = false)
    (hMem : SameFields m.map Mem Mem')
    (h : Finished P hlay T L w MaxIndirectTarget Mem main b₀ r b)
    (h' : Finished P hlay T' L w' MaxIndirectTarget' Mem' main b₀' r' b')
    (hinit : ∀ o o', b₀.Stores o o' → b₀'.Stores (o.coarsen m.map) (o'.coarsen m.map))
    (hnull : NonNull P b₀.Stores) {C₁ C₂ : Ctx} {V₁ V₂ : Val}
    (halias : aliasIfExsit P T b C₁ V₁ C₂ V₂ = true) :
    aliasIfExsit P T' b' (m.map C₁) V₁ (m.map C₂) V₂ = true := by
  obtain ⟨-, hfound⟩ := h.sound hP hM hthread
  obtain ⟨o, -, ho₁, ho₂⟩ := ((answering hP hM h).alias_iff C₁ V₁ C₂ V₂).mp halias
  have hcell : ∀ C V, b.Holds (cell P T C V) o →
      b'.Holds (cell P T' (m.map C) V) (o.coarsen m.map) := by
    intro C V ho
    rw [← cell_coarsen m]
    exact ((hfound _ _ ho).map (coarsening m hMem main hinit)).le (h'.complete hP hM')
  refine ((answering hP hM' h').alias_iff _ V₁ _ V₂).mpr
    ⟨o.coarsen m.map, fun heq => ?_, hcell C₁ V₁ ho₁, hcell C₂ V₂ ho₂⟩
  exact hnull.found hM (hfound _ _ ho₁) (congrArg FSObject.value heq)

end SolverBase

end

/-! ## a run with call strings and a run without contexts -/

namespace Builder

/-- nothing is stored in the globals -/
def storesNothing (b : Builder Ctx Fun Val) : Bool :=
  (List.range b.core.graph.nodeNum).all fun m => (List.range b.core.graph.nodeNum).all fun n =>
    match b.core.graph.kind m, b.core.graph.kind n with
    | .objNode _, .objNode _ => decide (n ∉ b.core.graph.succ .copy (m + 1))
    | _, _ => true

theorem not_stores {b : Builder Ctx Fun Val} (h : b.storesNothing = true) (o o' : FSObject Ctx Val) :
    ¬ b.Stores o o' := by
  rintro ⟨m, n, ⟨hm, hkm⟩, ⟨hn, hkn⟩, hsucc⟩
  have h := List.all_eq_true.mp (List.all_eq_true.mp h m (List.mem_range.mpr hm)) n
    (List.mem_range.mpr hn)
  rw [hkm, hkn] at h
  exact of_decide_eq_true h hsucc

end Builder

namespace SolverBase

/-- no fields, with call strings -/
def stringMem : MemModel (FSObject (CallString Nat) Nat) (Pointer (CallString Nat) Nat) :=
  ⟨fun _ _ => none, ∅, fun _ _ _ h => (by cases h)⟩

theorem castString_ok : ∃ b₀, castGlobals (kCallSite 1) = .ok b₀ ∧ b₀.storesNothing = true ∧
    castRun (kCallSite 1) (.wavePropagation stringMem .ascending) (fun _ => true) b₀ = true := by
  have hrun : (castGlobals (kCallSite 1)).toOption.any (fun b₀ => b₀.storesNothing &&
      castRun (kCallSite 1) (.wavePropagation stringMem .ascending) (fun _ => true) b₀) = true := by
    decide +kernel
  obtain ⟨b₀, hb₀, hrun⟩ := ok_of_any hrun
  exact ⟨b₀, hb₀, Bool.and_eq_true_iff.mp hrun⟩

/-- the two runs, of which the second one has no contexts -/
theorem castBoth : ∃ (b₀ b : Builder (CallString Nat) CastFun Nat) (b₀' b' : Builder Unit CastFun Nat)
    (r r' : _ × Wave.Caches),
    castAnalyze (kCallSite 1) (.wavePropagation stringMem .ascending) b₀ = some r ∧
    castAnalyze fieldCtx (.wavePropagation fieldMem .ascending) b₀' = some r' ∧
    (∀ o o', ¬ b₀.Stores o o') ∧
    Finished (castProgram 22) (castProgram_layout 22) (kCallSite 1) castLang .ascending 100 stringMem
      .main b₀ r.1 b ∧
    Finished (castProgram 22) (castProgram_layout 22) fieldCtx castLang .ascending 100 fieldMem .main
      b₀' r'.1 b' := by
  obtain ⟨b₀, hb₀, hstores, hrun⟩ := castString_ok
  obtain ⟨r, b, hr, -, h⟩ := castRun_finished (fun _ _ => trivial) (fun _ _ => rfl) hb₀ hrun
  obtain ⟨b₀', r', b', hr', -, h'⟩ := castFinished
  exact ⟨b₀, b, b₀', b', r, r', hr, hr', Builder.not_stores hstores, h, h'⟩

theorem stringMem_keepsBlock : KeepsBlock stringMem := fun _ _ _ h => by cases h

theorem stringMem_sameFields (f : CallString Nat → Unit) : SameFields f stringMem fieldMem :=
  fun _ _ _ _ h => by cases h

theorem castProgram_nonNull {init : FSObject (CallString Nat) Nat → FSObject (CallString Nat) Nat → Prop}
    (h : ∀ o o', ¬ init o o') : NonNull (castProgram 22) init where
  insts F I hI := (castProgram_runnable.computed F I (List.mem_append_left _ hI)).2.2
  symbols := by decide
  init o o' ho := absurd ho (h o o')

/-- `first` is called, and its call string is forgotten -/
theorem coarser_cast : ∃ (b₀ : Builder (CallString Nat) CastFun Nat) (b₀' : Builder Unit CastFun Nat)
    (r r' : _ × Wave.Caches),
    castAnalyze (kCallSite 1) (.wavePropagation stringMem .ascending) b₀ = some r ∧
    castAnalyze fieldCtx (.wavePropagation fieldMem .ascending) b₀' = some r' ∧
    r.1.disc.module.Happens (.body (.sites [12]) .first) ∧
    r'.1.disc.module.Happens (.body () .first) := by
  obtain ⟨b₀, b, b₀', b', r, r', hr, hr', hno, h, h'⟩ := castBoth
  obtain ⟨hev, -⟩ := Finished.coarser (.toNoCtx (kCallSite 1)) (castProgram_canonical 22)
    stringMem_keepsBlock fieldMem_keepsBlock (fun _ _ h => by cases h) (stringMem_sameFields _) h h'
    fun o o' ho => absurd ho (hno o o')
  have hcalled : r.1.disc.module.Happens (.body (.sites [12]) .first) :=
    (castProgram_called (kCallSite 1) stringMem b₀.Stores).le
      (h.complete (castProgram_canonical 22) stringMem_keepsBlock)
  exact ⟨b₀, b₀', r, r', hr, hr', hcalled, hev _ hcalled⟩

/-- the cast (11) and the function (20) -/
theorem aliasIfExsit_coarsen_cast : ∃ (b₀ b : Builder (CallString Nat) CastFun Nat)
    (b₀' b' : Builder Unit CastFun Nat) (r r' : _ × Wave.Caches),
    castAnalyze (kCallSite 1) (.wavePropagation stringMem .ascending) b₀ = some r ∧
    castAnalyze fieldCtx (.wavePropagation fieldMem .ascending) b₀' = some r' ∧
    aliasIfExsit (castProgram 22) (kCallSite 1) b (.sites []) 11 (.sites [12]) 20 = true ∧
    aliasIfExsit (castProgram 22) fieldCtx b' () 11 () 20 = true := by
  obtain ⟨b₀, b, b₀', b', r, r', hr, hr', hno, h, h'⟩ := castBoth
  have hthread : ∀ v G, castLang.threadFun v = some G → castLang.isHeapAllocFun G = false :=
    fun _ _ h => by cases h
  have hfound := castProgram_found (kCallSite 1) stringMem b₀.Stores
  have hmodel := h.complete (castProgram_canonical 22) stringMem_keepsBlock
  have halias : aliasIfExsit (castProgram 22) (kCallSite 1) b (.sites []) 11 (.sites [12]) 20 = true :=
    ((answering (castProgram_canonical 22) stringMem_keepsBlock h).alias_iff _ _ _ _).mpr
      ⟨⟨.globCtx, 20, 0⟩, by decide, hfound.le hmodel, hfound.le hmodel⟩
  exact ⟨b₀, b, b₀', b', r, r', hr, hr', halias, aliasIfExsit_coarsen (.toNoCtx (kCallSite 1))
    (castProgram_canonical 22) stringMem_keepsBlock fieldMem_keepsBlock hthread (stringMem_sameFields _)
    h h' (fun o o' ho => absurd ho (hno o o')) (castProgram_nonNull hno) halias⟩

end SolverBase

end AserPTA
