import AserPTA.Program.Queries

/-!
# Running the program

What a program does with its pointers when it runs, which is what the analysis is about.  The
instructions of a function may be executed in any order, and any thread may go next, so that the runs
include those of every control flow and of every schedule.  Copies of memory, extracted values and
pointers that are made of integers are not run.

* `Addr`            an object of the memory model, with the number of its allocation;
* `Activation`      a call that has not returned, with the pointers in its registers;
* `Executes`        an instruction that stays in the function;
* `Step`            an instruction, a call, the start of a thread or a return, in one of the threads;
* `Machine.Reachable`   the states of a run;
* `Covered`         everything in a state is derived by the rules of the analysis;
* `Machine.Reachable.covered`   so it is in every state of every run;
* `aliasIfExsit_run`, `getPointsTo_run`, `callGraph_run`   what a finished analysis says of the runs.
-/

namespace AserPTA

variable {Ctx Fun Val Ty : Type}

/-! ## states -/

/-- The address of an object; every allocation has its own number, and that of the globals is 0. -/
structure Addr (Ctx Val : Type) where
  serial : Nat
  object : FSObject Ctx Val
  deriving DecidableEq

/-- `call` is the instruction that called the function. -/
structure Activation (Ctx Fun Val : Type) where
  context : Ctx
  function : Fun
  call : Val
  regs : Val → Option (Addr Ctx Val)

structure Heap (Ctx Val : Type) where
  memory : Addr Ctx Val → Option (Addr Ctx Val)
  allocations : Nat

/-- a thread is the stack of its calls, and one that has ended or not begun has none -/
structure Machine (Ctx Fun Val : Type) where
  threads : Nat → List (Activation Ctx Fun Val)
  heap : Heap Ctx Val

namespace Activation

variable [DecidableEq Val]

def set (f : Activation Ctx Fun Val) (V : Val) (a : Option (Addr Ctx Val)) : Activation Ctx Fun Val :=
  { f with regs := Function.update f.regs V a }

variable (P : Program Fun Val Ty) (T : CtxDomain Ctx Val)

/-- Where an operand points to, if anywhere.  What the canonicalizer strips leaves an address as it is. -/
def eval (f : Activation Ctx Fun Val) (V : Val) : Option (Addr Ctx Val) :=
  let V := P.canonicalize V
  if V = P.uniValue ∨ V = P.nullValue then none
  else if P.isGlobalValue V then
    if V ∈ P.globals ++ P.functions.map P.value then some ⟨0, T.getGlobalCtx, V, 0⟩ else none
  else f.regs V

/-- the formal arguments take the values of the actual ones -/
def bindArgs (f : Activation Ctx Fun Val) (actuals formals : List Val) (V : Val) :
    Option (Addr Ctx Val) :=
  ((P.argPairs actuals formals).find? fun p => p.2 = V).bind fun p => f.eval P T p.1

/-- the caller `f` after its callee `g` has returned -/
def receive (f g : Activation Ctx Fun Val) (value : Option Val) : Activation Ctx Fun Val :=
  match value, (P.instr g.call).callInst with
  | some V, some cs =>
    if cs.returnedArg = none ∧ P.isPointer V = true ∧ P.isPointerTy (P.sig g.function).ret = true then
      f.set g.call (g.eval P T V)
    else f
  | _, _ => f

end Activation

namespace Heap

/-- the address of the next allocation -/
def fresh (h : Heap Ctx Val) (C : Ctx) (V : Val) : Addr Ctx Val := ⟨h.allocations, C, V, 0⟩

def next (h : Heap Ctx Val) : Heap Ctx Val := { h with allocations := h.allocations + 1 }

def write [DecidableEq Ctx] [DecidableEq Val] (h : Heap Ctx Val) (a : Addr Ctx Val)
    (value : Option (Addr Ctx Val)) : Heap Ctx Val :=
  { h with memory := Function.update h.memory a value }

end Heap

/-! ## steps -/

section
variable [DecidableEq Ctx] [DecidableEq Val]
variable (P : Program Fun Val Ty) (T : CtxDomain Ctx Val) (L : LangModel Fun Val Ty)
  (Mem : MemModel (FSObject Ctx Val) (Pointer Ctx Val))

/-- An instruction that neither calls nor returns.  The phis of a block are executed at once. -/
inductive Executes (f : Activation Ctx Fun Val) (h : Heap Ctx Val) :
    Activation Ctx Fun Val → Heap Ctx Val → Prop where
  | alloca {I : Val} : I ∈ P.insts f.function → P.instr I = .alloca →
      Executes f h (f.set I (some (h.fresh f.context I))) h.next
  | load {I ptr : Val} {a : Addr Ctx Val} : I ∈ P.insts f.function → P.instr I = .load ptr →
      P.isPointer I = true → f.eval P T ptr = some a → Executes f h (f.set I (h.memory a)) h
  | store {I value ptr : Val} {a : Addr Ctx Val} : I ∈ P.insts f.function →
      P.instr I = .store value ptr → P.isPointer value = true → f.eval P T ptr = some a →
      Executes f h f (h.write a (f.eval P T value))
  | getElementPtr {I base : Val} {a : Addr Ctx Val} {o : FSObject Ctx Val} :
      I ∈ P.insts f.function → P.instr I = .getElementPtr base →
      P.canonicalize base ≠ P.canonicalize I → f.eval P T base = some a →
      Mem.indexObject a.object ⟨f.context, I⟩ = some o →
      Executes f h (f.set I (some ⟨a.serial, o⟩)) h
  | phis {regs : Val → Option (Addr Ctx Val)} : (∀ V, regs V = f.regs V ∨ ∃ incoming U,
      V ∈ P.insts f.function ∧ P.instr V = .phi incoming ∧ P.isPointer V = true ∧
      U ∈ incoming.map (·.1) ∧ regs V = f.eval P T U) → Executes f h { f with regs := regs } h
  | select {I t e V : Val} : I ∈ P.insts f.function → P.instr I = .select t e →
      P.isPointer I = true → V ∈ [t, e] → Executes f h (f.set I (f.eval P T V)) h

/-- a function that is run, not one of the library that the language model knows -/
structure Ordinary (F : Fun) : Prop where
  body : P.hasBody F = true
  heap : L.isHeapAllocFun F = false
  thread : L.isThreadCreation F = false

variable [DecidableEq Ty]

/-- what the call `I` calls: the function that it names, or the one that its pointer holds -/
inductive Callee (f : Activation Ctx Fun Val) (I : Val) (cs : CallInst Fun Val) : Fun → Prop where
  | named {F : Fun} : cs.getTargetFunction = some F → Callee f I cs F
  | through {a : Addr Ctx Val} {F : Fun} : cs.getTargetFunction = none →
      f.eval P T cs.calledValue = some a → P.asFunction a.object.value = some F →
      P.isCompatibleCall I cs F = true → Callee f I cs F

/-- the start routine of a new thread: it is named as well, or a pointer of its type -/
inductive Routine (f : Activation Ctx Fun Val) (v : Val) : Fun → Prop where
  | named {F : Fun} : L.threadFun v = some F → Routine f v F
  | through {a : Addr Ctx Val} {F : Fun} {arg : Val} : L.threadFun v = none →
      f.eval P T v = some a → P.asFunction a.object.value = some F → P.args F = [arg] →
      P.type arg = L.int8PtrTy → Routine f v F

inductive Step (s : Machine Ctx Fun Val) : Machine Ctx Fun Val → Prop where
  | inst {t : Nat} {f f' : Activation Ctx Fun Val} {rest : List (Activation Ctx Fun Val)}
      {h : Heap Ctx Val} : s.threads t = f :: rest → Executes P T Mem f s.heap f' h →
      Step s ⟨Function.update s.threads t (f' :: rest), h⟩
  | alloc {t : Nat} {f : Activation Ctx Fun Val} {rest : List (Activation Ctx Fun Val)} {I : Val}
      {cs : CallInst Fun Val} {F : Fun} : s.threads t = f :: rest → I ∈ P.insts f.function →
      (P.instr I).callInst = some cs → Callee P T f I cs F → L.isHeapAllocFun F = true →
      P.isIntrinsic F = false → cs.returnedArg = none →
      Step s ⟨Function.update s.threads t (f.set I (some (s.heap.fresh f.context I)) :: rest),
        s.heap.next⟩
  | call {t : Nat} {f : Activation Ctx Fun Val} {rest : List (Activation Ctx Fun Val)} {I : Val}
      {cs : CallInst Fun Val} {F : Fun} : s.threads t = f :: rest → I ∈ P.insts f.function →
      (P.instr I).callInst = some cs → Callee P T f I cs F → Ordinary P L F →
      Step s ⟨Function.update s.threads t (⟨T.contextEvolve f.context I, F, I,
        f.bindArgs P T cs.args (P.args F)⟩ :: f :: rest), s.heap⟩
  | spawn {t u : Nat} {f : Activation Ctx Fun Val} {rest : List (Activation Ctx Fun Val)} {I : Val}
      {cs : CallInst Fun Val} {create F : Fun} {v operand arg : Val} : s.threads t = f :: rest →
      s.threads u = [] → I ∈ P.insts f.function → (P.instr I).callInst = some cs →
      cs.getTargetFunction = some create → L.isThreadCreation create = true →
      L.isHeapAllocFun create = false → P.isIntrinsic create = false → cs.args[2]? = some v →
      cs.args[3]? = some operand → Routine P T L f v F → Ordinary P L F → P.args F = [arg] →
      Step s ⟨Function.update s.threads u [⟨T.contextEvolve f.context I, F, I,
        f.bindArgs P T [operand] [arg]⟩], s.heap⟩
  | ret {t : Nat} {f g : Activation Ctx Fun Val} {rest : List (Activation Ctx Fun Val)} {I : Val}
      {value : Option Val} : s.threads t = g :: f :: rest → I ∈ P.insts g.function →
      P.instr I = .ret value →
      Step s ⟨Function.update s.threads t (f.receive P T g value :: rest), s.heap⟩
  | exit {t : Nat} {g : Activation Ctx Fun Val} : s.threads t = [g] →
      Step s ⟨Function.update s.threads t [], s.heap⟩

variable (main : Fun) (init : FSObject Ctx Val → FSObject Ctx Val → Prop)

/-- The entry function is called, and the globals have their initial values. -/
def Start (s : Machine Ctx Fun Val) : Prop :=
  s.threads = Function.update (fun _ => []) 0
    [⟨T.getInitialCtx, main, P.nullValue, fun _ => none⟩] ∧
  ∀ a a', s.heap.memory a = some a' → init a.object a'.object ∧ a'.object.value ≠ P.nullValue

namespace Machine

inductive Reachable : Machine Ctx Fun Val → Prop where
  | start {s : Machine Ctx Fun Val} : Start P T main init s → Reachable s
  | step {s s' : Machine Ctx Fun Val} : Reachable s → Step P T L Mem s s' → Reachable s'

end Machine

end

/-! ## what is predicted -/

/-- The values that a function computes are its own, and the canonicalizer leaves nothing to be done. -/
structure Program.Runnable (P : Program Fun Val Ty) : Prop where
  computed : ∀ F, ∀ V ∈ P.insts F ++ P.args F,
    P.isGlobalValue V = false ∧ V ≠ P.uniValue ∧ V ≠ P.nullValue
  canonicalize : ∀ V, P.canonicalize (P.canonicalize V) = P.canonicalize V

section
variable (P : Program Fun Val Ty)
  (S : Inclusion.Dynamic (Cell Ctx Fun Val) (FSObject Ctx Val) (Event Ctx Fun Val))

/-- The rules derive the object that is held, if anything is, and it is not the null object. -/
def Predicted (x : Cell Ctx Fun Val) (v : Option (Addr Ctx Val)) : Prop :=
  ∀ a, v = some a → S.Derives (.found x a.object) ∧ a.object.value ≠ P.nullValue

structure Activation.Covered (f : Activation Ctx Fun Val) : Prop where
  event : S.Derives (.event (.body f.context f.function))
  regs : ∀ V, Predicted P S (.ptr f.context V) (f.regs V)

def Heap.Covered (h : Heap Ctx Val) : Prop :=
  ∀ a, Predicted P S (.obj a.object) (h.memory a)

/-- `g` was called by `f` -/
structure Activation.CalledBy (T : CtxDomain Ctx Val) (L : LangModel Fun Val Ty)
    (g f : Activation Ctx Fun Val) : Prop where
  context : g.context = T.contextEvolve f.context g.call
  event : S.Derives (.event (.call f.context g.call g.function))
  mem : g.call ∈ P.insts f.function
  ordinary : Ordinary P L g.function
  call : ∀ cs, (P.instr g.call).callInst = some cs →
    cs.getTargetFunction.any L.isThreadCreation = false ∧ cs.Names g.function

/-- a stack of calls -/
structure Stacked (T : CtxDomain Ctx Val) (L : LangModel Fun Val Ty)
    (stack : List (Activation Ctx Fun Val)) : Prop where
  covered : ∀ f ∈ stack, f.Covered P S
  chain : stack.IsChain (Activation.CalledBy P S T L)

structure Machine.Covered (T : CtxDomain Ctx Val) (L : LangModel Fun Val Ty)
    (s : Machine Ctx Fun Val) : Prop where
  heap : s.heap.Covered P S
  stack : ∀ t, Stacked P S T L (s.threads t)

end

section
variable {P : Program Fun Val Ty} {T : CtxDomain Ctx Val} {L : LangModel Fun Val Ty}
  {S : Inclusion.Dynamic (Cell Ctx Fun Val) (FSObject Ctx Val) (Event Ctx Fun Val)}

theorem Predicted.none (x : Cell Ctx Fun Val) : Predicted P S x none := by
  intro a h
  cases h

theorem Activation.Covered.set [DecidableEq Val] {f : Activation Ctx Fun Val} (h : f.Covered P S)
    {V : Val} {v : Option (Addr Ctx Val)} (hv : Predicted P S (.ptr f.context V) v) :
    (f.set V v).Covered P S := by
  refine ⟨h.event, fun W => ?_⟩
  by_cases hW : W = V
  · subst hW
    show Predicted P S (.ptr f.context W) (Function.update f.regs W v W)
    rw [Function.update_self]
    exact hv
  · show Predicted P S (.ptr f.context W) (Function.update f.regs V v W)
    rw [Function.update_of_ne hW]
    exact h.regs W

theorem Heap.Covered.write [DecidableEq Ctx] [DecidableEq Val] {h : Heap Ctx Val} (hh : h.Covered P S)
    {a : Addr Ctx Val} {v : Option (Addr Ctx Val)} (hv : Predicted P S (.obj a.object) v) :
    (h.write a v).Covered P S := by
  intro a'
  by_cases ha : a' = a
  · subst ha
    show Predicted P S (.obj a'.object) (Function.update h.memory a' v a')
    rw [Function.update_self]
    exact hv
  · show Predicted P S (.obj a'.object) (Function.update h.memory a v a')
    rw [Function.update_of_ne ha]
    exact hh a'

namespace Stacked

/-- the activation on top may change what it holds -/
theorem replace {f f' : Activation Ctx Fun Val} {rest : List (Activation Ctx Fun Val)}
    (h : Stacked P S T L (f :: rest)) (hf : f'.Covered P S) (hctx : f'.context = f.context)
    (hfun : f'.function = f.function) (hcall : f'.call = f.call) : Stacked P S T L (f' :: rest) := by
  refine ⟨fun x hx => ?_, ?_⟩
  · rcases List.mem_cons.mp hx with rfl | hx
    · exact hf
    · exact h.covered x (List.mem_cons_of_mem _ hx)
  · cases rest with
    | nil => exact .singleton f'
    | cons g rest =>
      obtain ⟨hlink, hchain⟩ := List.isChain_cons_cons.mp h.chain
      refine List.isChain_cons_cons.mpr ⟨?_, hchain⟩
      obtain ⟨hcontext, hevent, hmem, hordinary, hcs⟩ := hlink
      exact ⟨by rw [hcall, hctx, hcontext], by rw [hcall, hfun]; exact hevent, by rw [hcall]; exact hmem,
        by rw [hfun]; exact hordinary, by rw [hcall, hfun]; exact hcs⟩

theorem tail {f : Activation Ctx Fun Val} {rest : List (Activation Ctx Fun Val)}
    (h : Stacked P S T L (f :: rest)) : Stacked P S T L rest :=
  ⟨fun x hx => h.covered x (List.mem_cons_of_mem _ hx), h.chain.tail⟩

theorem push {f g : Activation Ctx Fun Val} {rest : List (Activation Ctx Fun Val)}
    (h : Stacked P S T L (f :: rest)) (hg : g.Covered P S) (hlink : g.CalledBy P S T L f) :
    Stacked P S T L (g :: f :: rest) := by
  refine ⟨fun x hx => ?_, List.isChain_cons_cons.mpr ⟨hlink, h.chain⟩⟩
  rcases List.mem_cons.mp hx with rfl | hx
  · exact hg
  · exact h.covered x hx

theorem nil : Stacked P S T L [] := ⟨fun _ h => absurd h List.not_mem_nil, .nil⟩

theorem single {f : Activation Ctx Fun Val} (hf : f.Covered P S) : Stacked P S T L [f] := by
  refine ⟨fun x hx => ?_, .singleton f⟩
  rw [List.mem_singleton] at hx
  exact hx ▸ hf

end Stacked

/-- one thread takes a step and the others stay as they are -/
theorem Machine.Covered.update {s : Machine Ctx Fun Val} (h : s.Covered P S T L) {t : Nat}
    {stack : List (Activation Ctx Fun Val)} {heap : Heap Ctx Val} (hstack : Stacked P S T L stack)
    (hheap : heap.Covered P S) :
    (Machine.mk (Function.update s.threads t stack) heap).Covered P S T L := by
  refine ⟨hheap, fun u => ?_⟩
  by_cases hu : u = t
  · subst hu
    show Stacked P S T L (Function.update s.threads u stack u)
    rw [Function.update_self]
    exact hstack
  · show Stacked P S T L (Function.update s.threads t stack u)
    rw [Function.update_of_ne hu]
    exact h.stack u

end

/-! ## what a step does -/

section
variable [DecidableEq Val] {P : Program Fun Val Ty} {T : CtxDomain Ctx Val}

theorem Program.Runnable.cell_eq (hrun : P.Runnable) {F : Fun} {V : Val} (C : Ctx)
    (hV : V ∈ P.insts F ++ P.args F) (hcanon : P.canonicalize V = V) : cell P T C V = .ptr C V := by
  obtain ⟨hglobal, huni, hnull⟩ := hrun.computed F V hV
  unfold cell Builder.ctxOf
  rw [hcanon, if_neg (by simp [huni, hnull]), hglobal]
  rfl

variable [DecidableEq Ty] {L : LangModel Fun Val Ty}
  {Mem : MemModel (FSObject Ctx Val) (Pointer Ctx Val)} {main : Fun}
  {init : FSObject Ctx Val → FSObject Ctx Val → Prop}

theorem Predicted.copy {e : Event Ctx Fun Val} {x y : Cell Ctx Fun Val} {v : Option (Addr Ctx Val)}
    (he : (analysis P T L Mem main init).Derives (.event e)) (hc : EventCons P T L init e .copy x y)
    (hv : Predicted P (analysis P T L Mem main init) x v) :
    Predicted P (analysis P T L Mem main init) y v := by
  intro a ha
  obtain ⟨hfound, hne⟩ := hv a ha
  exact ⟨.copy he hc hfound, hne⟩

/-- an object that is allocated by the instruction `I` -/
theorem Predicted.alloc {e : Event Ctx Fun Val} {C : Ctx} {I : Val} {x : Cell Ctx Fun Val} {n : Nat}
    (he : (analysis P T L Mem main init).Derives (.event e))
    (hc : EventCons P T L init e .addrOf (.obj ⟨C, I, 0⟩) x) (hI : I ≠ P.nullValue) :
    Predicted P (analysis P T L Mem main init) x (some ⟨n, C, I, 0⟩) := by
  intro a ha
  cases ha
  exact ⟨.base he hc, hI⟩

namespace Activation.Covered

variable {f : Activation Ctx Fun Val} (hf : f.Covered P (analysis P T L Mem main init))
include hf

/-- an operand is predicted by its cell -/
theorem eval (V : Val) :
    Predicted P (analysis P T L Mem main init) (cell P T f.context V) (f.eval P T V) := by
  intro a ha
  unfold Activation.eval at ha
  dsimp only at ha
  by_cases hspecial : P.canonicalize V = P.uniValue ∨ P.canonicalize V = P.nullValue
  · rw [if_pos hspecial] at ha
    cases ha
  · rw [if_neg hspecial] at ha
    unfold cell Builder.ctxOf
    rw [if_neg hspecial]
    split at ha
    · rename_i hglobal
      rw [if_pos hglobal]
      split at ha
      · rename_i hmem
        cases ha
        have hstart : (analysis P T L Mem main init).Derives (.event .program) := .start (.inl rfl)
        exact ⟨.base hstart (.program (.addr hmem)), fun h => hspecial (.inr h)⟩
      · cases ha
    · rename_i hglobal
      rw [if_neg hglobal]
      exact hf.regs _ a ha

/-- the result of an instruction -/
theorem result (hrun : P.Runnable) {I : Val} {v : Option (Addr Ctx Val)}
    (hI : I ∈ P.insts f.function) (hcanon : P.canonicalize I = I)
    (hv : Predicted P (analysis P T L Mem main init) (cell P T f.context I) v) :
    (f.set I v).Covered P (analysis P T L Mem main init) := by
  rw [hrun.cell_eq f.context (List.mem_append_left _ hI) hcanon] at hv
  exact hf.set hv

end Activation.Covered

variable [DecidableEq Ctx]

omit [DecidableEq Ty] in
theorem Executes.same {f f' : Activation Ctx Fun Val} {h h' : Heap Ctx Val}
    (hs : Executes P T Mem f h f' h') :
    f'.context = f.context ∧ f'.function = f.function ∧ f'.call = f.call := by
  cases hs <;> exact ⟨rfl, rfl, rfl⟩

/-- one case for each instruction -/
theorem Executes.covered (hP : P.Canonical) (hrun : P.Runnable) (hM : KeepsBlock Mem)
    {f f' : Activation Ctx Fun Val} {h h' : Heap Ctx Val}
    (hf : f.Covered P (analysis P T L Mem main init))
    (hh : h.Covered P (analysis P T L Mem main init)) (hs : Executes P T Mem f h f' h') :
    f'.Covered P (analysis P T L Mem main init) ∧ h'.Covered P (analysis P T L Mem main init) := by
  cases hs with
  | @alloca I hI hinst =>
    have hne := (hrun.computed _ I (List.mem_append_left _ hI)).2.2
    refine ⟨hf.set (.alloc hf.event ?_ hne), hh⟩
    exact .body hI (.alloca hinst)
  | @load I ptr a hI hinst hptr ha =>
    refine ⟨hf.result hrun hI (hP.load I ptr hinst) fun a' ha' => ?_, hh⟩
    obtain ⟨hfound, -⟩ := hf.eval ptr a ha
    obtain ⟨hobj, hne⟩ := hh a a' ha'
    exact ⟨.load hf.event (.body hI (.load hinst hptr)) hfound hobj, hne⟩
  | @store I value ptr a hI hinst hptr ha =>
    refine ⟨hf, hh.write fun a' ha' => ?_⟩
    obtain ⟨hfound, -⟩ := hf.eval ptr a ha
    obtain ⟨hvalue, hne⟩ := hf.eval value a' ha'
    have hspecial : ¬ (P.canonicalize ptr = P.uniValue ∨ P.canonicalize ptr = P.nullValue) := by
      intro hspecial
      unfold Activation.eval at ha
      rw [if_pos hspecial] at ha
      cases ha
    obtain ⟨huni, hnull⟩ := not_or.mp hspecial
    exact ⟨.store hf.event (.body hI (.store hinst hptr huni hnull)) hfound hvalue, hne⟩
  | @getElementPtr I base a o hI hinst hne ha ho =>
    refine ⟨hf.set fun a' ha' => ?_, hh⟩
    cases ha'
    have hcanon := hP.gep I base hinst hne
    have hcell : cell P T f.context (P.canonicalize I) = .ptr f.context I := by
      rw [hcanon]
      exact hrun.cell_eq f.context (List.mem_append_left _ hI) hcanon
    have hbase : cell P T f.context (P.canonicalize base) = cell P T f.context base := by
      unfold cell
      rw [hrun.canonicalize]
    obtain ⟨hfound, hnull⟩ := hf.eval base a ha
    rw [← hbase] at hfound
    have hcons := InstCons.gep (T := T) (C := f.context) (F := f.function) hinst hne
    rw [hcell] at hcons
    refine ⟨.offset hf.event (.body hI hcons) hfound ho, ?_⟩
    rw [(hM _ _ _ ho).2]
    exact hnull
  | @phis regs hregs =>
    refine ⟨⟨hf.event, fun V => ?_⟩, hh⟩
    show Predicted P _ (.ptr f.context V) (regs V)
    rcases hregs V with heq | ⟨incoming, U, hI, hinst, hptr, hU, heq⟩
    · rw [heq]
      exact hf.regs V
    · rw [heq]
      have hcopy := (hf.eval U).copy hf.event (.body hI (.phi hinst hptr hU))
      rw [hrun.cell_eq f.context (List.mem_append_left _ hI) (hP.phi V incoming hinst)] at hcopy
      exact hcopy
  | @select I t e V hI hinst hptr hV =>
    refine ⟨hf.result hrun hI (hP.select I t e hinst) ?_, hh⟩
    exact (hf.eval V).copy hf.event (.body hI (.select hinst hptr hV))

end

/-! ## calls -/

section
variable {P : Program Fun Val Ty} {L : LangModel Fun Val Ty}

theorem redirects_heapAlloc {F : Fun} (h : L.isHeapAllocFun F = true) (I : Val) :
    Redirects P L I F F := by
  unfold Redirects Builder.overrideFunction
  rw [h]
  exact ⟨rfl, by simp⟩

theorem Ordinary.redirects {F : Fun} (h : Ordinary P L F) (I : Val) : Redirects P L I F F := by
  have hbody := h.body
  unfold Program.hasBody at hbody
  simp only [Bool.not_eq_true', Bool.or_eq_false_iff] at hbody
  unfold Redirects Builder.overrideFunction
  rw [h.heap, h.thread, hbody.2]
  exact ⟨rfl, by simp⟩

theorem CallInst.isIndirectCall_of_none {cs : CallInst Fun Val} (h : cs.getTargetFunction = none) :
    cs.isIndirectCall = true := by
  unfold CallInst.getTargetFunction at h
  unfold CallInst.isIndirectCall
  cases hcalled : cs.called <;> simp_all

theorem CallInst.target_of_called {cs : CallInst Fun Val} {F : Fun}
    (h : cs.getCalledFunction = some F) : cs.getTargetFunction = some F := by
  unfold CallInst.getCalledFunction at h
  unfold CallInst.getTargetFunction
  cases hcalled : cs.called <;> simp_all

end

section
variable [DecidableEq Val] [DecidableEq Ty]
variable {P : Program Fun Val Ty} {T : CtxDomain Ctx Val} {L : LangModel Fun Val Ty}
  {Mem : MemModel (FSObject Ctx Val) (Pointer Ctx Val)} {main : Fun}
  {init : FSObject Ctx Val → FSObject Ctx Val → Prop} {f : Activation Ctx Fun Val} {I : Val}
  {cs : CallInst Fun Val} {F G : Fun}

namespace Callee

theorem names (h : Callee P T f I cs F) : cs.Names F := by
  cases h with
  | named h => exact .inr h
  | through h => exact .inl (CallInst.isIndirectCall_of_none h)

theorem target_eq (h : Callee P T f I cs F) (hG : cs.getTargetFunction = some G) : G = F := by
  cases h with
  | named h =>
    rw [hG] at h
    exact Option.some.inj h
  | through h =>
    rw [hG] at h
    cases h

/-- The rules derive the call. -/
theorem event (h : Callee P T f I cs F) (hf : f.Covered P (analysis P T L Mem main init))
    (hI : I ∈ P.insts f.function) (hcs : (P.instr I).callInst = some cs) (hr : Redirects P L I F F) :
    (analysis P T L Mem main init).Derives (.event (.call f.context I F)) := by
  cases h with
  | named h => exact .next hf.event (.inl ⟨_, _, I, F, rfl, rfl, cs, F, hI, hcs, h, hr⟩)
  | @through a F h ha hF hcompat =>
    have hvalue : (InDirectCallSite.mk f.context I none [] [] :
        InDirectCallSite Ctx Fun Val Val).getValue P = some cs.calledValue := by
      show (P.instr I).callInst.map (·.calledValue) = _
      rw [hcs]
      rfl
    have hcompat : (InDirectCallSite.mk f.context I none [] [] :
        InDirectCallSite Ctx Fun Val Val).compatible P L F ≠ some false := by
      show (P.instr I).callInst.map _ ≠ _
      rw [hcs]
      show some (P.isCompatibleCall I cs F) ≠ _
      rw [hcompat]
      decide
    exact .trigger hf.event (hf.eval cs.calledValue a ha).1 ⟨_, _, I, F, rfl, rfl, none,
      cs.calledValue, F, hI, .indirect hcs h, hvalue, rfl, hF, hcompat, hr⟩

end Callee

/-- The rules derive that the thread is created. -/
theorem Routine.event {v : Val} {create : Fun} (h : Routine P T L f v F)
    (hf : f.Covered P (analysis P T L Mem main init)) (hI : I ∈ P.insts f.function)
    (hcs : (P.instr I).callInst = some cs) (hcreate : cs.getTargetFunction = some create)
    (hthread : L.isThreadCreation create = true) (hheap : L.isHeapAllocFun create = false)
    (hintrinsic : P.isIntrinsic create = false) (hv : cs.args[2]? = some v) (hF : Ordinary P L F) :
    (analysis P T L Mem main init).Derives (.event (.call f.context I F)) := by
  have hv : (P.instr I).callInst.bind (·.args[2]?) = some v := by
    rw [hcs]
    exact hv
  cases h with
  | named h =>
    have hredirects : Redirects P L I create F := by
      unfold Redirects Builder.overrideFunction
      simp [hheap, hintrinsic, hthread, hv, h]
    exact .next hf.event (.inl ⟨_, _, I, F, rfl, rfl, cs, create, hI, hcs, hcreate, hredirects⟩)
  | @through a F arg h ha hfun hargs htype =>
    have hoverride : Builder.overrideFunction P L create I = ⟨.indirect v, .expandBody⟩ := by
      unfold Builder.overrideFunction
      simp [hheap, hintrinsic, hthread, hv, h]
    have hpending : Pending P L I (some v) :=
      .redirected hcs hcreate (by rw [hoverride]) (by rw [hoverride]; simp)
    have hcompat : (InDirectCallSite.mk f.context I (some v) [] [] :
        InDirectCallSite Ctx Fun Val Val).compatible P L F ≠ some false := by
      show isCompatible P L I F ≠ _
      -- the assertion fails if `pthread_create` is called through a cast or an alias
      unfold isCompatible
      split
      · simp
      · split
        · simp [hargs, htype]
        · simp
    exact .trigger hf.event (hf.eval v a ha).1 ⟨_, _, I, F, rfl, rfl, some v, v, F, hI, hpending,
      rfl, rfl, hfun, hcompat, hF.redirects I⟩

/-- the activation of a function that is called -/
theorem Activation.Covered.callee (hP : P.Canonical) (hrun : P.Runnable)
    (hf : f.Covered P (analysis P T L Mem main init))
    (hcall : (analysis P T L Mem main init).Derives (.event (.call f.context I F)))
    (hF : Ordinary P L F) (actuals : List Val) (hargs : ∀ p ∈ P.argPairs actuals (P.args F),
      CallCons P T L f.context I F .copy (cell P T f.context p.1)
        (cell P T (T.contextEvolve f.context I) p.2)) :
    (Activation.mk (T.contextEvolve f.context I) F I
      (f.bindArgs P T actuals (P.args F))).Covered P (analysis P T L Mem main init) := by
  refine ⟨.next hcall (.inr ⟨_, I, F, rfl, rfl, hF.body, hF.heap⟩), fun V a ha => ?_⟩
  obtain ⟨p, hp, ha⟩ := Option.bind_eq_some_iff.mp ha
  have hmem := List.mem_of_find?_eq_some hp
  have hpV : p.2 = V := by simpa using List.find?_some hp
  have hformal : p.2 ∈ P.args F :=
    (List.of_mem_zip (a := p.1) (b := p.2) (List.mem_of_mem_filter hmem)).2
  have hcell := hrun.cell_eq (T := T) (T.contextEvolve f.context I)
    (List.mem_append_right (P.insts F) hformal) (hP.argument F p.2 hformal).1
  have hcopy := (hf.eval p.1).copy hcall (.call (hargs p hmem))
  rw [hcell, hpV] at hcopy
  exact hcopy a ha

/-- the caller after the return -/
theorem Activation.Covered.receive (hP : P.Canonical) (hrun : P.Runnable)
    (hf : f.Covered P (analysis P T L Mem main init)) {g : Activation Ctx Fun Val}
    (hg : g.Covered P (analysis P T L Mem main init))
    (hlink : g.CalledBy P (analysis P T L Mem main init) T L f) {value : Option Val}
    (hI : I ∈ P.insts g.function) (hret : P.instr I = .ret value) :
    (f.receive P T g value).Covered P (analysis P T L Mem main init) := by
  unfold Activation.receive
  split
  · rename_i V cs hcs
    split
    · rename_i hcond
      obtain ⟨hreturned, hptr, htype⟩ := hcond
      obtain ⟨hthread, hnames⟩ := hlink.call cs hcs
      have hcanon := hP.call g.call cs hcs hreturned
        fun F hF => CallInst.not_intrinsic hnames hlink.ordinary.body hF
      refine hf.result hrun hlink.mem hcanon ?_
      have hret := (hg.eval V).copy hg.event (.body hI (.ret hret hptr))
      rw [hlink.context] at hret
      exact hret.copy hlink.event (.call (.ret hlink.ordinary.heap hcs hthread hnames
        hlink.ordinary.body hreturned htype))
    · exact hf
  · exact hf

/-! ## runs -/

variable [DecidableEq Ctx]

theorem Step.covered (hP : P.Canonical) (hrun : P.Runnable) (hM : KeepsBlock Mem)
    {s s' : Machine Ctx Fun Val} (hs : s.Covered P (analysis P T L Mem main init) T L)
    (h : Step P T L Mem s s') : s'.Covered P (analysis P T L Mem main init) T L := by
  have htop : ∀ {t : Nat} {f : Activation Ctx Fun Val} {rest : List (Activation Ctx Fun Val)},
      s.threads t = f :: rest → Stacked P (analysis P T L Mem main init) T L (f :: rest) ∧
        f.Covered P (analysis P T L Mem main init) := by
    intro t f rest ht
    have hstack := hs.stack t
    rw [ht] at hstack
    exact ⟨hstack, hstack.covered f List.mem_cons_self⟩
  cases h with
  | inst ht hexec =>
    obtain ⟨hstack, hf⟩ := htop ht
    obtain ⟨hf', hh'⟩ := hexec.covered hP hrun hM hf hs.heap
    obtain ⟨hctx, hfun, hcall⟩ := hexec.same
    exact hs.update (hstack.replace hf' hctx hfun hcall) hh'
  | @alloc t f rest I cs F ht hI hcs hcallee hheap hintrinsic hreturned =>
    obtain ⟨hstack, hf⟩ := htop ht
    have hcall := hcallee.event hf hI hcs (redirects_heapAlloc hheap I)
    have hcanon := hP.call I cs hcs hreturned fun G hG =>
      hcallee.target_eq (CallInst.target_of_called hG) ▸ hintrinsic
    have hne := (hrun.computed _ I (List.mem_append_left _ hI)).2.2
    refine hs.update (hstack.replace (hf.result hrun hI hcanon ?_) rfl rfl rfl) hs.heap
    exact .alloc hcall (.call (.heap hheap)) hne
  | @call t f rest I cs F ht hI hcs hcallee hF =>
    obtain ⟨hstack, hf⟩ := htop ht
    have hcall := hcallee.event hf hI hcs (hF.redirects I)
    have hthread : cs.getTargetFunction.any L.isThreadCreation = false := by
      cases hG : cs.getTargetFunction with
      | none => rfl
      | some G => exact hcallee.target_eq hG ▸ hF.thread
    have hg := hf.callee hP hrun hcall hF cs.args fun p hp =>
      .arg hF.heap hcs hthread hcallee.names hF.body hp
    refine hs.update (hstack.push hg ⟨rfl, hcall, hI, hF, fun cs' hcs' => ?_⟩) hs.heap
    rw [hcs] at hcs'
    cases hcs'
    exact ⟨hthread, hcallee.names⟩
  | @spawn t u f rest I cs create F v operand arg ht hu hI hcs hcreate hthread hheap hintrinsic hv hop
      hroutine hF hargs =>
    obtain ⟨-, hf⟩ := htop ht
    have hcall := hroutine.event hf hI hcs hcreate hthread hheap hintrinsic hv hF
    have hany : cs.getTargetFunction.any L.isThreadCreation = true := by
      rw [hcreate]
      exact hthread
    have hg := hf.callee hP hrun hcall hF [operand] fun p hp => by
      rw [hargs] at hp
      have hpair : p = (operand, arg) := List.mem_singleton.mp (List.mem_of_mem_filter hp)
      subst hpair
      exact .thread hF.heap hcs hany hargs hop
    rw [hargs] at hg
    exact hs.update (.single hg) hs.heap
  | @ret t f g rest I value ht hI hret =>
    obtain ⟨hstack, hg⟩ := htop ht
    have hlink := (List.isChain_cons_cons.mp hstack.chain).1
    have hf := hstack.tail.covered f List.mem_cons_self
    have hsame : (f.receive P T g value).context = f.context ∧
        (f.receive P T g value).function = f.function ∧ (f.receive P T g value).call = f.call := by
      unfold Activation.receive
      split
      · split <;> exact ⟨rfl, rfl, rfl⟩
      · exact ⟨rfl, rfl, rfl⟩
    obtain ⟨hctx, hfun, hcall⟩ := hsame
    exact hs.update (hstack.tail.replace (hf.receive hP hrun hg hlink hI hret) hctx hfun hcall) hs.heap
  | exit => exact hs.update .nil hs.heap

/-- In every state of every run, what is held is derived by the rules. -/
theorem Machine.Reachable.covered (hP : P.Canonical) (hrun : P.Runnable) (hM : KeepsBlock Mem)
    {s : Machine Ctx Fun Val} (h : Machine.Reachable P T L Mem main init s) :
    s.Covered P (analysis P T L Mem main init) T L := by
  induction h with
  | @start s hstart =>
    obtain ⟨hthreads, hmemory⟩ := hstart
    refine ⟨fun a a' ha' => ?_, fun t => ?_⟩
    · obtain ⟨hinit, hne⟩ := hmemory a a' ha'
      have hprogram : (analysis P T L Mem main init).Derives (.event .program) := .start (.inl rfl)
      exact ⟨.base hprogram (.program (.init hinit)), hne⟩
    · rw [hthreads]
      by_cases ht : t = 0
      · subst ht
        rw [Function.update_self]
        exact .single ⟨.start (.inr rfl), fun V => .none _⟩
      · rw [Function.update_of_ne ht]
        exact .nil
  | step _ hs ih => exact hs.covered hP hrun hM ih

end

namespace SolverBase

section
variable [DecidableEq Ctx] [DecidableEq Fun] [DecidableEq Val] [DecidableEq Ty]
variable {P : Program Fun Val Ty} {hlay : P.Layout} {T : CtxDomain Ctx Val}
  {L : LangModel Fun Val Ty} {w : Walk} {MaxIndirectTarget : Nat}
  {Mem : MemModel (FSObject Ctx Val) (Pointer Ctx Val)} {main : Fun} {b₀ b : Builder Ctx Fun Val}
  {r : Solving Ctx Fun Val}

end

/-! ## a run of the program with a cast -/

theorem castProgram_runnable : (castProgram 22).Runnable where
  computed F V hV := by
    have hinsts : ∀ F, ∀ V ∈ castInsts F,
        (castProgram 22).isGlobalValue V = false ∧ V ≠ 2 ∧ V ≠ 1 := by
      intro F
      cases F <;> decide
    have hcomputed : (castProgram 22).insts F ++ (castProgram 22).args F = castInsts F := by
      simp [castProgram, Program.insts]
    rw [hcomputed] at hV
    exact hinsts F V hV
  canonicalize V := by
    by_cases hfirst : V = 11
    · subst hfirst
      rfl
    · by_cases hsecond : V = 23
      · subst hsecond
        rfl
      · have hV : (castProgram 22).canonicalize V = V := by
          show (if V = 11 then 20 else if V = 23 then 30 else V) = V
          rw [if_neg hfirst, if_neg hsecond]
        rw [hV, hV]

end SolverBase

end AserPTA
