import AserPTA.Inclusion.Dynamic
import AserPTA.Program.Linking
import AserPTA.Program.ResolveFunPtrs

/-!
# The rules of the analysis

What the analysis is to compute, as rules over the program and without a graph: which functions are
reached in which contexts, which calls go where, and what the pointers point to.

* `Cell`         what holds objects: a pointer in a context, a returned value, the memory of an object;
* `cell`         the cell of an operand, with the canonicalizer and the contexts of globals;
* `InstCons`, `CallCons`, `GlobalCons`   the constraints of an instruction, of a call and of the globals;
* `DirectCall`, `IndirectCall`   where a call goes, after the interceptions of the language model;
* `analysis`     all of it as an inclusion system that grows with the functions that are reached.
-/

namespace AserPTA

variable {Ctx Fun Val Ty : Type}

inductive Cell (Ctx Fun Val : Type) where
  | ptr (C : Ctx) (V : Val)
  | ret (C : Ctx) (F : Fun)
  | obj (o : FSObject Ctx Val)
  deriving DecidableEq

/-- the program starts, the body of `F` is reached in `C`, the call `I` in `C` goes to `G` -/
inductive Event (Ctx Fun Val : Type) where
  | program
  | body (C : Ctx) (F : Fun)
  | call (C : Ctx) (I : Val) (G : Fun)
  deriving DecidableEq

namespace Cell

/-- the object that a `getelementptr` takes of an object -/
def index (M : MemModel (FSObject Ctx Val) (Pointer Ctx Val)) :
    Cell Ctx Fun Val → FSObject Ctx Val → Option (FSObject Ctx Val)
  | .ptr C V, o => M.indexObject o ⟨C, V⟩
  | _, _ => none

end Cell

section
variable [DecidableEq Val] (P : Program Fun Val Ty) (T : CtxDomain Ctx Val) (L : LangModel Fun Val Ty)

def cell (C : Ctx) (V : Val) : Cell Ctx Fun Val :=
  if P.canonicalize V = P.uniValue ∨ P.canonicalize V = P.nullValue then
    .ptr T.getGlobalCtx (P.canonicalize V)
  else .ptr (Builder.ctxOf P T C (P.canonicalize V)) (P.canonicalize V)

/-! ## constraints -/

/-- the constraints of the instruction `I` of `F` in the context `C` -/
inductive InstCons (C : Ctx) (F : Fun) (I : Val) :
    Constraints → Cell Ctx Fun Val → Cell Ctx Fun Val → Prop where
  | alloca : P.instr I = .alloca → InstCons C F I .addrOf (.obj ⟨C, I, 0⟩) (.ptr C I)
  | load {ptr : Val} : P.instr I = .load ptr → P.isPointer I = true →
      InstCons C F I .load (cell P T C ptr) (cell P T C I)
  | store {value ptr : Val} : P.instr I = .store value ptr → P.isPointer value = true →
      P.canonicalize ptr ≠ P.uniValue → P.canonicalize ptr ≠ P.nullValue →
      InstCons C F I .store (cell P T C value) (cell P T C ptr)
  | gep {base : Val} : P.instr I = .getElementPtr base → P.canonicalize base ≠ P.canonicalize I →
      InstCons C F I .offset (cell P T C (P.canonicalize base)) (cell P T C (P.canonicalize I))
  | phi {incoming : List (Val × Nat)} {V : Val} : P.instr I = .phi incoming → P.isPointer I = true →
      V ∈ incoming.map (·.1) → InstCons C F I .copy (cell P T C V) (cell P T C I)
  | select {t f V : Val} : P.instr I = .select t f → P.isPointer I = true → V ∈ [t, f] →
      InstCons C F I .copy (cell P T C V) (cell P T C I)
  | ret {V : Val} : P.instr I = .ret (some V) → P.isPointer V = true →
      InstCons C F I .copy (cell P T C V) (.ret C F)

/-- the call is not redirected, as `processCallSite` asserts -/
def CallInst.Names (cs : CallInst Fun Val) (G : Fun) : Prop :=
  cs.isIndirectCall = true ∨ cs.getTargetFunction = some G

/-- the constraints of the call `I` in the context `C` that goes to `G` -/
inductive CallCons (C : Ctx) (I : Val) (G : Fun) :
    Constraints → Cell Ctx Fun Val → Cell Ctx Fun Val → Prop where
  | heap : L.isHeapAllocFun G = true → CallCons C I G .addrOf (.obj ⟨C, I, 0⟩) (cell P T C I)
  | thread {cs : CallInst Fun Val} {arg operand : Val} : L.isHeapAllocFun G = false →
      (P.instr I).callInst = some cs → cs.getTargetFunction.any L.isThreadCreation = true →
      P.args G = [arg] → cs.args[3]? = some operand →
      CallCons C I G .copy (cell P T C operand) (cell P T (T.contextEvolve C I) arg)
  | arg {cs : CallInst Fun Val} {p : Val × Val} : L.isHeapAllocFun G = false →
      (P.instr I).callInst = some cs → cs.getTargetFunction.any L.isThreadCreation = false →
      cs.Names G → P.hasBody G = true → p ∈ P.argPairs cs.args (P.args G) →
      CallCons C I G .copy (cell P T C p.1) (cell P T (T.contextEvolve C I) p.2)
  | ret {cs : CallInst Fun Val} : L.isHeapAllocFun G = false →
      (P.instr I).callInst = some cs → cs.getTargetFunction.any L.isThreadCreation = false →
      cs.Names G → P.hasBody G = true → cs.returnedArg = none → P.isPointerTy (P.sig G).ret = true →
      CallCons C I G .copy (.ret (T.contextEvolve C I) G) (cell P T C I)

/-- the constraints of the globals, and of what their initializers store -/
inductive GlobalCons (init : FSObject Ctx Val → FSObject Ctx Val → Prop) :
    Constraints → Cell Ctx Fun Val → Cell Ctx Fun Val → Prop where
  | addr {V : Val} : V ∈ P.globals ++ P.functions.map P.value →
      GlobalCons init .addrOf (.obj ⟨T.getGlobalCtx, V, 0⟩) (.ptr T.getGlobalCtx V)
  | init {o o' : FSObject Ctx Val} : init o o' → GlobalCons init .addrOf (.obj o') (.obj o)

/-- the constraints that an event brings -/
inductive EventCons (init : FSObject Ctx Val → FSObject Ctx Val → Prop) :
    Event Ctx Fun Val → Constraints → Cell Ctx Fun Val → Cell Ctx Fun Val → Prop where
  | program {k : Constraints} {x y : Cell Ctx Fun Val} : GlobalCons P T init k x y →
      EventCons init .program k x y
  | body {C : Ctx} {F : Fun} {I : Val} {k : Constraints} {x y : Cell Ctx Fun Val} : I ∈ P.insts F →
      InstCons P T C F I k x y → EventCons init (.body C F) k x y
  | call {C : Ctx} {I : Val} {G : Fun} {k : Constraints} {x y : Cell Ctx Fun Val} :
      CallCons P T L C I G k x y → EventCons init (.call C I G) k x y

/-! ## calls -/

variable [DecidableEq Fun] [DecidableEq Ty]

/-- a call of `fn` goes to `G` -/
def Redirects (I : Val) (fn G : Fun) : Prop :=
  (Builder.overrideFunction P L fn I).redirectTo = .function G ∧
    (Builder.overrideFunction P L fn I).option ≠ .ignore

def DirectCall (F : Fun) (I : Val) (G : Fun) : Prop :=
  ∃ cs fn, I ∈ P.insts F ∧ (P.instr I).callInst = some cs ∧ cs.getTargetFunction = some fn ∧
    Redirects P L I fn G

/-- The call has no target until a pointer is resolved: the one that it calls, or the start routine
that is passed to the creation of a thread. -/
inductive Pending (I : Val) : Option Val → Prop where
  | indirect {cs : CallInst Fun Val} : (P.instr I).callInst = some cs → cs.getTargetFunction = none →
      Pending I none
  | redirected {cs : CallInst Fun Val} {fn : Fun} {V : Val} : (P.instr I).callInst = some cs →
      cs.getTargetFunction = some fn →
      (Builder.overrideFunction P L fn I).redirectTo = .indirect V →
      (Builder.overrideFunction P L fn I).option ≠ .ignore → Pending I (some V)

/-- The object `o` in the cell `x` is a function that the check of the call `I` does not refuse, and the
call goes to `G`.  Where an assertion of the check fails, no run of the analysis goes on. -/
def IndirectCall (C : Ctx) (F : Fun) (I : Val) (x : Cell Ctx Fun Val) (o : FSObject Ctx Val)
    (G : Fun) : Prop :=
  ∃ funPtr V fn, I ∈ P.insts F ∧ Pending P L I funPtr ∧
    (InDirectCallSite.mk C I funPtr [] []).getValue P = some V ∧ x = cell P T C V ∧
    P.asFunction o.value = some fn ∧
    (InDirectCallSite.mk C I funPtr [] []).compatible P L fn ≠ some false ∧ Redirects P L I fn G

/-- The rules of the analysis.  `init o o'` says that the initial value of `o` is the address of `o'`. -/
def analysis (M : MemModel (FSObject Ctx Val) (Pointer Ctx Val)) (main : Fun)
    (init : FSObject Ctx Val → FSObject Ctx Val → Prop) :
    Inclusion.Dynamic (Cell Ctx Fun Val) (FSObject Ctx Val) (Event Ctx Fun Val) where
  cell := .obj
  index := Cell.index M
  start e := e = .program ∨ e = .body T.getInitialCtx main
  next e e' := (∃ C F I G, e = .body C F ∧ e' = .call C I G ∧ DirectCall P L F I G) ∨
    ∃ C I G, e = .call C I G ∧ e' = .body (T.contextEvolve C I) G ∧ P.hasBody G = true ∧
      L.isHeapAllocFun G = false
  trigger e x o e' := ∃ C F I G, e = .body C F ∧ e' = .call C I G ∧ IndirectCall P T L C F I x o G
  base e x o := EventCons P T L init e .addrOf (.obj o) x
  copy := (EventCons P T L init · .copy)
  load := (EventCons P T L init · .load)
  store := (EventCons P T L init · .store)
  offset := (EventCons P T L init · .offset)

end

end AserPTA
