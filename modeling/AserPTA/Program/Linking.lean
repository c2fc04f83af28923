import AserPTA.Program.Builder
import Mathlib.Logic.Equiv.List
import Mathlib.Data.Fin.Basic

/-!
# Argument linking

When `processCallSite` links the actual arguments of a call to the formal ones of the callee.

* `argPairs`, `linkPairs`   the pairs of pointers, and one copy constraint for each;
* `Fits`                    there is an actual argument for each formal one, a pointer for a pointer;
* `linkArgs_eq`             if the arguments fit, the loop adds these constraints;
* `WellTyped.fits`          they fit for direct calls and for compatible indirect calls;
* `processCallSite_links_iff`   for calls through a bitcast or an alias they have to.
-/

namespace AserPTA

variable {Ctx Fun Val Ty : Type}

namespace Program

variable (P : Program Fun Val Ty)

/-- the actual arguments of a call fit the formal ones -/
def Fits (cs : CallInst Fun Val) (F : Fun) : Prop :=
  P.pointersMatch cs.args (P.args F) = true ∧
    ((P.sig F).isVarArg = false → cs.args.length = (P.args F).length)

/-- each pointer among the formals, with the actual argument at its place -/
def argPairs (actuals formals : List Val) : List (Val × Val) :=
  (actuals.zip formals).filter fun p => P.isPointer p.2

variable {P}

/-- then there is an actual argument for every formal one -/
theorem length_of_pointersMatch {actuals formals : List Val}
    (h : P.pointersMatch actuals formals = true) : formals.length ≤ actuals.length := by
  induction formals generalizing actuals with
  | nil => exact Nat.zero_le _
  | cons f formals ih =>
    cases actuals with
    | nil => cases h
    | cons a actuals =>
      rw [pointersMatch, Bool.and_eq_true] at h
      exact Nat.succ_le_succ (ih h.2)

/-- every pointer among the formals is in one pair -/
theorem argPairs_snd {actuals formals : List Val} (h : formals.length ≤ actuals.length) :
    (P.argPairs actuals formals).map (·.2) = formals.filter P.isPointer := by
  have hzip : (actuals.zip formals).map (·.2) = formals := List.map_snd_zip h
  conv_rhs => rw [← hzip]
  rw [List.filter_map]
  rfl

theorem pointersMatch_of_types {actuals formals : List Val}
    (h : (actuals.map P.type).take formals.length = formals.map P.type) :
    P.pointersMatch actuals formals = true := by
  induction formals generalizing actuals with
  | nil =>
    cases actuals <;> rfl
  | cons f formals ih =>
    cases actuals with
    | nil => cases h
    | cons a actuals =>
      rw [List.map_cons, List.length_cons, List.take_succ_cons, List.map_cons] at h
      obtain ⟨h1, h2⟩ := List.cons_eq_cons.mp h
      rw [pointersMatch, Bool.and_eq_true, ih h2]
      refine ⟨?_, rfl⟩
      unfold isPointer
      rw [h1]
      exact beq_self_eq_true _

variable {I : Val} {cs : CallInst Fun Val} {F : Fun}

/-- a call through a value of the function's own type -/
theorem WellTyped.fits_of_type (h : P.WellTyped) (hcs : (P.instr I).callInst = some cs)
    (htype : P.type cs.calledValue = P.type (P.value F)) : P.Fits cs F := by
  obtain ⟨s, hs, _, hargs, hlen⟩ := h.call I cs hcs
  have hsig : s = P.sig F := by
    apply h.fnPtr_inj
    rw [← hs, htype, h.value]
  subst hsig
  have hparams : (P.sig F).params.length = (P.args F).length := by
    rw [← h.args, List.length_map]
  rw [hparams] at hargs hlen
  refine ⟨pointersMatch_of_types ?_, hlen⟩
  rw [hargs, h.args]

variable [DecidableEq Ty]

/-- an indirect call that passed the check -/
theorem WellTyped.fits_of_compatible (h : P.WellTyped) (hcs : (P.instr I).callInst = some cs)
    (hc : P.isCompatibleCall I cs F = true) : P.Fits cs F := by
  by_cases htype : P.type cs.calledValue = P.type (P.value F)
  · exact h.fits_of_type hcs htype
  · unfold isCompatibleCall at hc
    rw [if_neg htype] at hc
    split at hc
    · cases hc
    · split at hc
      · cases hc
      · rename_i hcount
        split at hc
        · cases hc
        · refine ⟨hc, fun hv => ?_⟩
          by_contra hne
          exact hcount ⟨hne, hv⟩

theorem WellTyped.fits (h : P.WellTyped) (hcs : (P.instr I).callInst = some cs)
    (hedge : cs.called = .function F ∨ cs.isIndirectCall = true ∧ P.isCompatibleCall I cs F = true) :
    P.Fits cs F := by
  rcases hedge with hF | ⟨_, hc⟩
  · exact h.fits_of_type hcs (by rw [h.function I cs F hcs hF])
  · exact h.fits_of_compatible hcs hc

end Program

namespace Builder

variable {P : Program Fun Val Ty} {T : CtxDomain Ctx Val}
variable [DecidableEq Val]

/-- one copy constraint -/
def linkPair (P : Program Fun Val Ty) (T : CtxDomain Ctx Val) (C C' : Ctx)
    (b : Builder Ctx Fun Val) (p : Val × Val) : Except Abort (Builder Ctx Fun Val) := do
  let aNode ← getPtrNode P T b C p.1
  let fNode ← getPtrNode P T b C' p.2
  return b.addConstraints aNode fNode .copy

/-- one copy constraint for each pair -/
def linkPairs (P : Program Fun Val Ty) (T : CtxDomain Ctx Val) (C C' : Ctx)
    (b : Builder Ctx Fun Val) (pairs : List (Val × Val)) : Except Abort (Builder Ctx Fun Val) :=
  pairs.foldlM (linkPair P T C C') b

/-- if the arguments fit, the loop does not fail but for a node that is missing -/
theorem linkArgs_eq {C C' : Ctx} {actuals formals : List Val}
    (h : P.pointersMatch actuals formals = true) (b : Builder Ctx Fun Val) :
    linkArgs P T C C' actuals formals b =
      (linkPairs P T C C' b (P.argPairs actuals formals)).map (·, actuals.drop formals.length) := by
  induction formals generalizing actuals b with
  | nil =>
    have hnil : P.argPairs actuals [] = [] := by
      unfold Program.argPairs
      rw [List.zip_nil_right]
      rfl
    rw [hnil]
    cases actuals <;> rfl
  | cons f formals ih =>
    cases actuals with
    | nil => cases h
    | cons a actuals =>
      rw [Program.pointersMatch, Bool.and_eq_true, beq_iff_eq] at h
      obtain ⟨hp, hrest⟩ := h
      rw [linkArgs, if_neg (fun hne => hne hp.symm)]
      by_cases hpa : P.isPointer a = true
      · have hcons : P.argPairs (a :: actuals) (f :: formals) =
            (a, f) :: P.argPairs actuals formals := by
          unfold Program.argPairs
          rw [List.zip_cons_cons, List.filter_cons_of_pos (by rw [← hp]; exact hpa)]
        rw [if_pos hpa, hcons, linkPairs, List.foldlM_cons, linkPair]
        cases getPtrNode P T b C a with
        | error e => rfl
        | ok aNode =>
          cases getPtrNode P T b C' f with
          | error e => rfl
          | ok fNode => exact ih hrest _
      · have hcons : P.argPairs (a :: actuals) (f :: formals) = P.argPairs actuals formals := by
          unfold Program.argPairs
          rw [List.zip_cons_cons, List.filter_cons_of_neg (by rw [← hp]; exact hpa)]
        rw [if_neg hpa, hcons]
        exact ih hrest b

/-- every pointer has a node -/
def AllNodes (b : Builder Ctx Fun Val) : Prop := ∀ k, (b.ptrs k).isSome

theorem AllNodes.getPtrNode {b : Builder Ctx Fun Val} (h : b.AllNodes) (C : Ctx) (V : Val) :
    ∃ n, getPtrNode P T b C V = .ok n := by
  unfold Builder.getPtrNode getPtrNodeOrNull
  dsimp only
  cases specialPtr P b (P.canonicalize V) with
  | some n => exact ⟨n, rfl⟩
  | none =>
    obtain ⟨n, hn⟩ := Option.isSome_iff_exists.mp (h (ctxOf P T C (P.canonicalize V), P.canonicalize V))
    rw [hn]
    exact ⟨n, rfl⟩

/-- if they do not fit, the loop fails where no node is missing -/
theorem linkArgs_error {C C' : Ctx} {actuals formals : List Val}
    (h : P.pointersMatch actuals formals = false) {b : Builder Ctx Fun Val} (hb : b.AllNodes) :
    linkArgs P T C C' actuals formals b = .error .pastLastActual ∨
      linkArgs P T C C' actuals formals b = .error .pointerTy := by
  induction formals generalizing actuals b with
  | nil => cases actuals <;> cases h
  | cons f formals ih =>
    cases actuals with
    | nil => exact .inl rfl
    | cons a actuals =>
      rw [linkArgs]
      by_cases hp : P.isPointer f = P.isPointer a
      · rw [if_neg (fun hne => hne hp)]
        rw [Program.pointersMatch, hp, beq_self_eq_true, Bool.true_and] at h
        by_cases hpa : P.isPointer a = true
        · obtain ⟨n, hn⟩ := hb.getPtrNode (P := P) (T := T) C a
          obtain ⟨m, hm⟩ := hb.getPtrNode (P := P) (T := T) C' f
          rw [if_pos hpa, hn, hm]
          exact ih h hb
        · rw [if_neg hpa]
          exact ih h hb
      · rw [if_pos hp]
        exact .inr rfl

/-- where no node is missing the constraints are added -/
theorem AllNodes.linkPairs {b : Builder Ctx Fun Val} (h : b.AllNodes) (C C' : Ctx)
    (pairs : List (Val × Val)) : ∃ b', linkPairs P T C C' b pairs = .ok b' := by
  induction pairs generalizing b with
  | nil => exact ⟨b, rfl⟩
  | cons p pairs ih =>
    obtain ⟨n, hn⟩ := h.getPtrNode (P := P) (T := T) C p.1
    obtain ⟨m, hm⟩ := h.getPtrNode (P := P) (T := T) C' p.2
    rw [Builder.linkPairs, List.foldlM_cons, linkPair, hn, hm]
    exact ih (b := b.addConstraints n m .copy) h

/-- what linking the return value may fail with -/
theorem linkReturn_error {b : Builder Ctx Fun Val} {C C' : Ctx} {F : Fun} {I : Val}
    {cs : CallInst Fun Val} {e : Abort} (h : linkReturn P T b C C' F I cs = .error e) :
    e = .callSite ∨ e = .retNode ∨ e = .nonExist := by
  unfold linkReturn at h
  split at h
  · split at h
    · cases h
      exact .inl rfl
    · cases h
  · split at h
    · unfold getRetNode at h
      cases hret : b.retPtrMap (C', F) with
      | none =>
        rw [hret] at h
        cases h
        exact .inr (.inl rfl)
      | some src =>
        rw [hret] at h
        unfold getPtrNode at h
        cases hdst : getPtrNodeOrNull P T b C I with
        | none =>
          rw [hdst] at h
          cases h
          exact .inr (.inr rfl)
        | some dst =>
          rw [hdst] at h
          cases h
    · cases h

variable [DecidableEq Ctx] [DecidableEq Fun] [DecidableEq Ty] {L : LangModel Fun Val Ty} {I : Val}
  {cs : CallInst Fun Val} {F : Fun}

/-- the call is linked without a failure of the loop or its assertions: one copy constraint for each
pointer among the formals, and then the return value -/
def Links (P : Program Fun Val Ty) (T : CtxDomain Ctx Val) (L : LangModel Fun Val Ty)
    (b : Builder Ctx Fun Val) (C : Ctx) (caller F : Fun) (I : Val) (cs : CallInst Fun Val) : Prop :=
  processCallSite P T L b C caller (T.contextEvolve C I) F I =
      (linkPairs P T C (T.contextEvolve C I) b (P.argPairs cs.args (P.args F))).bind
        (linkReturn P T · C (T.contextEvolve C I) F I cs) ∧
    (P.argPairs cs.args (P.args F)).map (·.2) = (P.args F).filter P.isPointer

/-- For a call edge that the language model leaves to the builder: in every state the arguments are linked
without a failure, iff they fit or the call goes neither through a bitcast nor through an alias. -/
theorem processCallSite_links_iff (hP : P.WellTyped) (T : CtxDomain Ctx Val)
    (L : LangModel Fun Val Ty) (caller F : Fun) (I : Val) (cs : CallInst Fun Val)
    (hcs : (P.instr I).callInst = some cs) (hI : I ∈ P.insts caller) (hbody : P.hasBody F = true)
    (hheap : L.isHeapAllocFun F = false)
    (hthread : cs.getTargetFunction.any L.isThreadCreation = false)
    (hedge : cs.getTargetFunction = some F ∨
      cs.isIndirectCall = true ∧ P.isCompatibleCall I cs F = true) :
    (∀ (b : Builder Ctx Fun Val) (C : Ctx), Links P T L b C caller F I cs) ↔
      (cs.called = .bitcast F ∨ cs.called = .globalAlias F → P.Fits cs F) := by
  have hlink : ∀ (b : Builder Ctx Fun Val) (C : Ctx),
      processCallSite P T L b C caller (T.contextEvolve C I) F I =
        linkCall P T b C (T.contextEvolve C I) F I cs := by
    intro b C
    have htarget : cs.isIndirectCall = true ∨ cs.getTargetFunction = some F :=
      hedge.symm.imp_left fun h => h.1
    have hcompat : ¬ (cs.isIndirectCall = true ∧ ¬ P.isCompatibleCall I cs F = true) := by
      rintro ⟨hind, hnot⟩
      rcases hedge with hF | ⟨_, hc⟩
      · unfold CallInst.isIndirectCall at hind
        unfold CallInst.getTargetFunction at hF
        cases hcalled : cs.called <;> simp [hcalled] at hind hF
      · exact hnot hc
    unfold processCallSite
    rw [hcs]
    dsimp only
    rw [if_neg (fun h => h rfl), if_neg (by rw [hheap]; exact Bool.false_ne_true),
      if_neg (by rw [hthread]; exact Bool.false_ne_true), if_neg (fun h => h htarget),
      if_neg (fun h => h hI), if_neg hcompat, if_pos hbody]
  constructor
  · intro h _
    let b : Builder Ctx Fun Val := { ptrs := fun _ => some 0 }
    have hb : b.AllNodes := fun _ => rfl
    obtain ⟨heq, _⟩ := h b T.getInitialCtx
    rw [hlink] at heq
    obtain ⟨b', hb'⟩ := hb.linkPairs (P := P) (T := T) T.getInitialCtx
      (T.contextEvolve T.getInitialCtx I) (P.argPairs cs.args (P.args F))
    rw [hb'] at heq
    unfold linkCall at heq
    have hret : ∀ e, linkReturn P T b' T.getInitialCtx (T.contextEvolve T.getInitialCtx I) F I cs =
        .error e → e ≠ .pastLastActual ∧ e ≠ .pointerTy ∧ e ≠ .argumentCount := by
      intro e he
      rcases linkReturn_error he with rfl | rfl | rfl <;> decide
    cases hp : P.pointersMatch cs.args (P.args F) with
    | false =>
      have hargs : linkArgs P T T.getInitialCtx (T.contextEvolve T.getInitialCtx I) cs.args
          (P.args F) b = .error .pastLastActual ∨ _ := linkArgs_error hp hb
      rcases hargs with he | he
      · rw [he] at heq
        exact absurd rfl (hret _ heq.symm).1
      · rw [he] at heq
        exact absurd rfl (hret _ heq.symm).2.1
    | true =>
      refine ⟨hp, fun hv => ?_⟩
      by_contra hne
      have hdrop : cs.args.drop (P.args F).length ≠ [] := by
        rw [Ne, List.drop_eq_nil_iff]
        exact fun hle => hne (Nat.le_antisymm hle (Program.length_of_pointersMatch hp))
      rw [linkArgs_eq hp, hb'] at heq
      have hcount : linkReturn P T b' T.getInitialCtx (T.contextEvolve T.getInitialCtx I) F I cs =
          .error .argumentCount := by
        rw [← show _ = linkReturn P T b' _ _ F I cs from heq]
        exact if_pos ⟨hv, hdrop⟩
      exact absurd rfl (hret _ hcount).2.2
  · intro h b C
    have hfits : P.Fits cs F := by
      rcases hedge with hF | hind
      · unfold CallInst.getTargetFunction at hF
        cases hcalled : cs.called with
        | function G =>
          rw [hcalled] at hF
          cases hF
          exact hP.fits hcs (.inl hcalled)
        | bitcast G =>
          rw [hcalled] at hF
          cases hF
          exact h (.inl hcalled)
        | globalAlias G =>
          rw [hcalled] at hF
          cases hF
          exact h (.inr hcalled)
        | null =>
          rw [hcalled] at hF
          cases hF
        | pointer =>
          rw [hcalled] at hF
          cases hF
      · exact hP.fits hcs (.inr hind)
    refine ⟨?_, Program.argPairs_snd (Program.length_of_pointersMatch hfits.1)⟩
    rw [hlink, linkCall, linkArgs_eq hfits.1]
    cases linkPairs P T C (T.contextEvolve C I) b (P.argPairs cs.args (P.args F)) with
    | error e => rfl
    | ok b' =>
      have hrest : ¬ ((P.sig F).isVarArg = false ∧ cs.args.drop (P.args F).length ≠ []) := by
        rintro ⟨hv, hne⟩
        exact hne (List.drop_eq_nil_of_le (hfits.2 hv).le)
      show (if (P.sig F).isVarArg = false ∧ cs.args.drop (P.args F).length ≠ [] then _ else _) = _
      rw [if_neg hrest]
      rfl

/-! ## a call through a bitcast -/

def mainSig : Sig Nat := ⟨0, [], false⟩
def calleeSig : Sig Nat := ⟨0, [1, 1], false⟩
def castSig : Sig Nat := ⟨0, [1], false⟩

/-- type 0 is no pointer, type 1 is `i8*` -/
def sampleFnPtr (s : Sig Nat) : Nat := Encodable.encode (s.ret, s.params, s.isVarArg) + 2

/-- `call void bitcast (void (i8*, i8*)* @callee to void (i8*)*)(i8* %4)` -/
def castCall : CallInst (Fin 2) Nat := ⟨6, .bitcast 1, [4], none⟩

/-- Function 0 is `main` with the instructions 4 (an alloca) and 5 (the call), function 1 the callee with
the arguments 2 and 3. -/
def castProgram : Program (Fin 2) Nat Nat where
  globals := []
  functions := [0, 1]
  value F := F
  asFunction V := if V = 0 then some 0 else if V = 1 then some 1 else none
  isGlobalValue V := V ≤ 1
  args F := if F = 0 then [] else [2, 3]
  blocks F := if F = 0 then [⟨[4, 5], []⟩] else []
  instr V := if V = 4 then .alloca else if V = 5 then .call castCall else .other
  sig F := if F = 0 then mainSig else calleeSig
  isDeclaration _ := false
  isIntrinsic _ := false
  type V :=
    if V = 0 then sampleFnPtr mainSig
    else if V = 1 then sampleFnPtr calleeSig
    else if V = 6 then sampleFnPtr castSig
    else if V = 5 then 0 else 1
  isPointerTy t := t ≠ 0
  fnPtr := sampleFnPtr
  canonicalize V := V
  nullValue := 7
  uniValue := 8

theorem castProgram_callInst {I : Nat} {cs : CallInst (Fin 2) Nat}
    (h : (castProgram.instr I).callInst = some cs) : I = 5 ∧ cs = castCall := by
  unfold castProgram at h
  dsimp only at h
  split at h
  · cases h
  · split at h
    · rename_i h5
      cases h
      exact ⟨h5, rfl⟩
    · cases h

theorem castProgram_wellTyped : castProgram.WellTyped where
  fnPtr_inj s t h := by
    have h1 := Encodable.encode_injective (Nat.add_right_cancel h)
    cases s
    cases t
    simp_all
  value := Fin.forall_fin_two.mpr ⟨rfl, rfl⟩
  args := Fin.forall_fin_two.mpr ⟨rfl, rfl⟩
  function I cs F h hF := by
    obtain ⟨_, rfl⟩ := castProgram_callInst h
    cases hF
  call I cs h := by
    obtain ⟨rfl, rfl⟩ := castProgram_callInst h
    exact ⟨castSig, rfl, rfl, rfl, fun _ => rfl⟩

def sampleLang : LangModel (Fin 2) Nat Nat := ⟨fun _ => false, fun _ => false, fun _ => none, 1⟩

def oneCtx : CtxDomain Unit Nat := ⟨(), (), fun _ _ => ()⟩

theorem processCallSite_links_iff_cast :
    (∀ (b : Builder Unit (Fin 2) Nat) (C : Unit),
      Links castProgram oneCtx sampleLang b C 0 1 5 castCall) ↔
      (castCall.called = .bitcast 1 ∨ castCall.called = .globalAlias 1 →
        castProgram.Fits castCall 1) :=
  processCallSite_links_iff castProgram_wellTyped oneCtx sampleLang 0 1 5 castCall rfl
    (by decide) rfl rfl rfl (.inl rfl)

/-- the second argument of the callee is read past the last actual argument of the call -/
theorem cast_call_not_linked :
    processCallSite castProgram oneCtx sampleLang ({ ptrs := fun _ => some 0 } : Builder _ _ _)
        () 0 () 1 5 = .error .pastLastActual ∧
      ¬ ∀ (b : Builder Unit (Fin 2) Nat) (C : Unit),
        Links castProgram oneCtx sampleLang b C 0 1 5 castCall := by
  refine ⟨rfl, fun h => ?_⟩
  have h2 := (h {} ()).2
  revert h2
  decide

end Builder

end AserPTA
