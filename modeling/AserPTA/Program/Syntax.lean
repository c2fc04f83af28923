import AserPTA.Program.CtxModule

/-!
# Programs

What the builder reads of a module: its functions, their blocks in layout order, the instructions and
the types.

* `Sig`, `Called`, `CallInst`, `Instr`   function types and instructions;
* `Program`                the module, with the canonicalizer of the memory model;
* `Program.callSites`      the call instructions, as `CtxModule` sees them;
* `Program.WellTyped`      what the verifier checks of calls;
* `isCompatibleCall`       the check of indirect call targets.
-/

namespace AserPTA

/-- a function type -/
structure Sig (Ty : Type) where
  ret : Ty
  params : List Ty
  isVarArg : Bool
  deriving DecidableEq

/-- The called value of a call.  `bitcast` and `globalAlias` are the constants that
`resolveTargetFunction` looks through, `null` is a null pointer constant, and `pointer` is no constant. -/
inductive Called (Fun : Type) where
  | function (F : Fun)
  | bitcast (F : Fun)
  | globalAlias (F : Fun)
  | null
  | pointer
  deriving DecidableEq

structure CallInst (Fun Val : Type) where
  calledValue : Val
  called : Called Fun
  args : List Val
  returnedArg : Option Val := none
  deriving DecidableEq

namespace CallInst

variable {Fun Val : Type}

def isIndirectCall (cs : CallInst Fun Val) : Bool :=
  match cs.called with
  | .null | .pointer => true
  | _ => false

/-- the function itself, or `resolveTargetFunction`; `CallSite::getCalledFunction` is the same -/
def getTargetFunction (cs : CallInst Fun Val) : Option Fun :=
  match cs.called with
  | .function F | .bitcast F | .globalAlias F => some F
  | _ => none

/-- LLVM's own `CallBase::getCalledFunction`, which looks through no constant -/
def getCalledFunction (cs : CallInst Fun Val) : Option Fun :=
  match cs.called with
  | .function F => some F
  | _ => none

end CallInst

/-- The instructions with a visitor.  `other` stands for those whose visitor does nothing: casts,
integer arithmetic, branches.  An incoming value of a `phi` comes with its block. -/
inductive Instr (Fun Val : Type) where
  | alloca
  | load (ptr : Val)
  | store (value ptr : Val)
  | getElementPtr (base : Val)
  | phi (incoming : List (Val × Nat))
  | select (trueValue falseValue : Val)
  | call (cs : CallInst Fun Val)
  | memcpy (source dest : Val) (cs : CallInst Fun Val)
  | ret (value : Option Val)
  | extractValue
  | other
  deriving DecidableEq

namespace Instr

variable {Fun Val : Type}

def callInst : Instr Fun Val → Option (CallInst Fun Val)
  | .call cs | .memcpy _ _ cs => some cs
  | _ => none

def isGEP : Instr Fun Val → Bool
  | .getElementPtr _ => true
  | _ => false

end Instr

/-- a basic block with the blocks it branches to -/
structure Block (Val : Type) where
  insts : List Val
  succs : List Nat := []

/-- An instruction is known by its value.  `canonicalize` is the canonicalizer of the memory model, which
strips casts, all-zero `getelementptr`s and returned arguments. -/
structure Program (Fun Val Ty : Type) where
  globals : List Val
  functions : List Fun
  value : Fun → Val
  asFunction : Val → Option Fun
  isGlobalValue : Val → Bool
  args : Fun → List Val
  blocks : Fun → List (Block Val)
  instr : Val → Instr Fun Val
  sig : Fun → Sig Ty
  isDeclaration : Fun → Bool
  isIntrinsic : Fun → Bool
  type : Val → Ty
  isPointerTy : Ty → Bool
  fnPtr : Sig Ty → Ty
  canonicalize : Val → Val
  nullValue : Val
  uniValue : Val

variable {Fun Val Ty : Type}

namespace Program

variable (P : Program Fun Val Ty)

/-- the instructions of a function in layout order -/
def insts (F : Fun) : List Val := (P.blocks F).flatMap (·.insts)

def isPointer (V : Val) : Bool := P.isPointerTy (P.type V)

/-- `initFunction` has something to do -/
def hasBody (F : Fun) : Bool := !(P.isDeclaration F || P.isIntrinsic F)

/-- an instruction stands at one place of one function -/
structure Layout : Prop where
  nodup : ∀ F, (P.insts F).Nodup
  unique : ∀ {F G : Fun} {I : Val}, I ∈ P.insts F → I ∈ P.insts G → F = G

/-- the calls of each function in layout order -/
def callSites (h : P.Layout) : CallSites Fun Val where
  calls F := (P.insts F).filter fun I => (P.instr I).callInst.isSome
  getTargetFunction I := (P.instr I).callInst.bind (·.getTargetFunction)
  isDeclaration := P.isDeclaration
  nodup F := (h.nodup F).filter _
  unique hF hG := h.unique (List.mem_of_mem_filter hF) (List.mem_of_mem_filter hG)

/-- The types of functions and calls fit: a call passes the arguments that the type of the called value
asks for, and more only if that is a varargs type. -/
structure WellTyped : Prop where
  fnPtr_inj : ∀ s t, P.fnPtr s = P.fnPtr t → s = t
  value : ∀ F, P.type (P.value F) = P.fnPtr (P.sig F)
  args : ∀ F, (P.args F).map P.type = (P.sig F).params
  function : ∀ I cs F, (P.instr I).callInst = some cs → cs.called = .function F →
    cs.calledValue = P.value F
  call : ∀ I cs, (P.instr I).callInst = some cs → ∃ s, P.type cs.calledValue = P.fnPtr s ∧
    P.type I = s.ret ∧ (cs.args.map P.type).take s.params.length = s.params ∧
    (s.isVarArg = false → cs.args.length = s.params.length)

variable [DecidableEq Ty]

/-- the loop over the formals: pointers are passed where pointers are expected -/
def pointersMatch : List Val → List Val → Bool
  | _, [] => true
  | [], _ :: _ => false
  | param :: actuals, arg :: formals =>
    P.isPointer param == P.isPointer arg && pointersMatch actuals formals

def isCompatibleCall (I : Val) (cs : CallInst Fun Val) (target : Fun) : Bool :=
  -- fast path, the same type
  if P.type cs.calledValue = P.type (P.value target) then true
  else if P.type I ≠ (P.sig target).ret then false
  else if cs.args.length ≠ (P.args target).length ∧ (P.sig target).isVarArg = false then false
  else if (P.sig target).isVarArg ∧ (P.args target).length > cs.args.length then false
  else P.pointersMatch cs.args (P.args target)

end Program

end AserPTA
