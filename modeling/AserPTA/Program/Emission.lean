import AserPTA.Program.Additions

/-!
# The constraints that the builder emits

Each function of the builder adds constraints that the rules have for it, and leaves a graph that has all
of them.

* `legal_inst`, `legal_call`, `legal_global`   the constraints of the rules keep the builder's invariant;
* `Emitted A`           the constraints that were added are in `A`, and all of `A` is there;
* `Settled.visit`, `Settled.initFunction`   the constraints of an instruction and of a body;
* `Settled.processCallSite`   the constraints of a call;
* `Settled.addGlobals`, `Settled.initial`   the constraints of the globals.
-/

namespace AserPTA

open ConsGraph AserPTA.Core Loop Relation

variable {Ctx Fun Val Ty : Type}

/-! ## the constraints of the rules are legal -/

section
variable [DecidableEq Val] {P : Program Fun Val Ty} {T : CtxDomain Ctx Val} {L : LangModel Fun Val Ty}

/-- the cell of an operand is the one of what the canonicalizer leaves -/
theorem cell_eq (P : Program Fun Val Ty) (T : CtxDomain Ctx Val) (C : Ctx) (V : Val) :
    ∃ C', (cell P T C V : Cell Ctx Fun Val) = .ptr C' (P.canonicalize V) := by
  unfold cell
  split
  · exact ⟨_, rfl⟩
  · exact ⟨_, rfl⟩

theorem cell_inj {C C' : Ctx} {V V' : Val} (h : (cell P T C V : Cell Ctx Fun Val) = .ptr C' V') :
    V' = P.canonicalize V := by
  obtain ⟨C'', hs⟩ : ∃ C', (cell P T C V : Cell Ctx Fun Val) = .ptr C' (P.canonicalize V) :=
    cell_eq P T C V
  rw [hs] at h
  cases h
  rfl

/-- the cell of a `getelementptr` that is no all-zero one -/
theorem cell_gep (hP : P.Canonical) {C : Ctx} {I base : Val} (hI : P.instr I = .getElementPtr base)
    (hne : P.canonicalize base ≠ P.canonicalize I) :
    (cell P T C (P.canonicalize I) : Cell Ctx Fun Val) = .ptr C I := by
  have hcan := hP.gep I base hI hne
  obtain ⟨hglobal, huni, hnull⟩ := hP.gepLocal I (by rw [hI]; rfl)
  unfold cell Builder.ctxOf
  rw [hcan, hcan, if_neg (by rintro (h | h) <;> contradiction), if_neg (by rw [hglobal]; simp)]

omit [DecidableEq Val] in
theorem CallInst.isGEP_of_callInst {I : Val} {cs : CallInst Fun Val}
    (h : (P.instr I).callInst = some cs) : (P.instr I).isGEP = false := by
  cases hI : P.instr I with
  | getElementPtr base =>
    rw [hI] at h
    cases h
  | _ => rfl

theorem legal_inst (hP : P.Canonical) (C : Ctx) (F : Fun) (I : Val) :
    Builder.Legal P T (InstCons P T C F I) := by
  refine ⟨fun x y h => ?_, fun k x C' V hk h => ?_, fun x y h => ?_⟩
  · cases h with
    | alloca hI => exact ⟨_, rfl⟩
  · generalize hy : (Cell.ptr C' V : Cell Ctx Fun Val) = y at h
    cases h with
    | load hI _ =>
      rw [cell_inj hy.symm, hP.load I _ hI, hI]
      rfl
    | phi hI _ _ =>
      rw [cell_inj hy.symm, hP.phi I _ hI, hI]
      rfl
    | select hI _ _ =>
      rw [cell_inj hy.symm, hP.select I _ _ hI, hI]
      rfl
    | ret _ _ => cases hy
    | alloca _ => rcases hk with hk | hk <;> cases hk
    | store _ _ _ _ => rcases hk with hk | hk <;> cases hk
    | gep _ _ => rcases hk with hk | hk <;> cases hk
  · cases h with
    | gep hI hne => exact ⟨C, I, _, cell_gep hP hI hne, hI, rfl⟩

theorem legal_call (hP : P.Canonical) (C : Ctx) (I : Val) (G : Fun) :
    Builder.Legal P T (CallCons P T L C I G) := by
  refine ⟨fun x y h => ?_, fun k x C' V hk h => ?_, fun x y h => by cases h⟩
  · cases h with
    | heap _ => exact ⟨_, rfl⟩
  · generalize hy : (Cell.ptr C' V : Cell Ctx Fun Val) = y at h
    cases h with
    | heap _ => rcases hk with hk | hk <;> cases hk
    | @thread cs arg operand _ _ _ harg _ =>
      obtain ⟨hcan, hgep⟩ := hP.argument G arg (by rw [harg]; exact List.mem_cons_self ..)
      rw [cell_inj hy.symm, hcan]
      exact hgep
    | @arg cs p _ _ _ _ _ hp =>
      have hmem : p.2 ∈ P.args G := (List.of_mem_zip (List.mem_of_mem_filter hp)).2
      obtain ⟨hcan, hgep⟩ := hP.argument G p.2 hmem
      rw [cell_inj hy.symm, hcan]
      exact hgep
    | @ret cs _ hcs _ hnames hbody hret _ =>
      have hcan : P.canonicalize I = I :=
        hP.call I cs hcs hret fun F hF => CallInst.not_intrinsic hnames hbody hF
      rw [cell_inj hy.symm, hcan]
      exact CallInst.isGEP_of_callInst hcs

theorem legal_global (init : FSObject Ctx Val → FSObject Ctx Val → Prop) :
    Builder.Legal P T (GlobalCons P T init) := by
  refine ⟨fun x y h => ?_, fun k x C' V hk h => ?_, fun x y h => by cases h⟩
  · cases h with
    | addr _ => exact ⟨_, rfl⟩
    | init _ => exact ⟨_, rfl⟩
  · cases h with
    | addr _ => rcases hk with hk | hk <;> cases hk

end

namespace Builder

variable {P : Program Fun Val Ty} {T : CtxDomain Ctx Val} {b b' b'' : Builder Ctx Fun Val}

theorem addConstraints_graph (b : Builder Ctx Fun Val) (src dst : NodeID) (k : Constraints) :
    (b.addConstraints src dst k).core.graph =
      (b.core.graph.insertConstraint (k.source src) dst k.stored).1 := addConstraints_fst ..

/-- the constraint that is added is there -/
theorem has_addConstraints {k : Constraints} {x y : Cell Ctx Fun Val} {m n : NodeID}
    (hx : b.NodeOf x m) (hy : b.NodeOf y n) : (b.addConstraints m n k).Has k x y := by
  have hs := insertConstraint_sameNodes (g := b.core.graph) (k.source m) n k.stored
  have hnode : ∀ {z : Cell Ctx Fun Val} {i : NodeID}, b.NodeOf z i →
      (b.addConstraints m n k).NodeOf z i := by
    intro z i hz
    cases z with
    | ptr C V => exact hz
    | ret C F => exact hz
    | obj o =>
      show i < (b.addConstraints m n k).core.graph.nodeNum ∧
        (b.addConstraints m n k).core.graph.kind i = .objNode o
      rw [addConstraints_graph, hs.nodeNum, hs.kind]
      exact hz
  refine ⟨m, n, hnode hx, hnode hy, ?_⟩
  rw [addConstraints_graph]
  exact covers_insertConstraint_self ..

variable [DecidableEq Ctx] [DecidableEq Fun] [DecidableEq Val]
variable {A A' : Constraints → Cell Ctx Fun Val → Cell Ctx Fun Val → Prop}

/-- the constraints that were added are in `A`, and all of `A` is there -/
structure Emitted (P : Program Fun Val Ty) (T : CtxDomain Ctx Val)
    (A : Constraints → Cell Ctx Fun Val → Cell Ctx Fun Val → Prop) (b b' : Builder Ctx Fun Val) :
    Prop where
  additions : Additions P T A b b'
  has : ∀ k x y, A k x y → b'.Has k x y

namespace Emitted

theorem none (h : Additions P T A b b') (hA : ∀ k x y, ¬ A k x y) : Emitted P T A b b' :=
  ⟨h, fun k x y hk => absurd hk (hA k x y)⟩

/-- one constraint is added in the end -/
theorem one (h : Additions P T A b b') {k : Constraints} {x y : Cell Ctx Fun Val} {m n : NodeID}
    (hx : b'.NodeOf x m) (hy : b'.NodeOf y n) (hk : A k x y)
    (hA : ∀ k' x' y', A k' x' y' → k' = k ∧ x' = x ∧ y' = y) :
    Emitted P T A b (b'.addConstraints m n k) := by
  refine ⟨h.tail (.cons hk hx hy), fun k' x' y' hk' => ?_⟩
  obtain ⟨rfl, rfl, rfl⟩ := hA k' x' y' hk'
  exact has_addConstraints hx hy

end Emitted

namespace Settled

/-- a pointer that is found or made -/
theorem getOrCreate (hP : P.Canonical) (hA : Legal P T A) (h : Settled P T b) (C : Ctx) (V : Val) :
    let r := getOrCreatePtrNode P T b C V
    Additions P T A b r.1 ∧ Settled P T r.1 ∧ r.1.NodeOf (cell P T C V) r.2 := by
  intro r
  have hadd : Additions P T A b r.1 := by
    show Additions P T A b (getOrCreatePtrNode P T b C V).1
    unfold getOrCreatePtrNode
    split
    · exact .refl
    · rename_i hnone
      exact .single (.ptr _ _ (getPtrNodeOrNull_none hnone).2)
  have hr := h.additions hP hA hadd
  exact ⟨hadd, hr, hr.lookup.mp (h.placed.getOrCreate C V).2.2⟩

theorem addEdge (hP : P.Canonical) (hA : Legal P T A) (h : Settled P T b) (C : Ctx)
    (first second : Val) (edge : NodeID → NodeID → Builder Ctx Fun Val → Builder Ctx Fun Val) :
    ∃ m n b', Additions P T A b b' ∧ b'.NodeOf (cell P T C first) m ∧
      b'.NodeOf (cell P T C second) n ∧ Builder.addEdge P T b C first second edge = edge m n b' := by
  obtain ⟨hadd1, h1, hn1⟩ := h.getOrCreate hP hA C first
  obtain ⟨hadd2, h2, hn2⟩ := h1.getOrCreate hP hA C second
  exact ⟨_, _, _, hadd1.trans hadd2, hn1.grows hadd2.grows, hn2, rfl⟩

/-- a block and its pointer -/
theorem allocPtr (hP : P.Canonical) (hA : Legal P T A) (h : Settled P T b) {C : Ctx} {V : Val}
    {obj ptr : Builder Ctx Fun Val × NodeID} (hobj : b.allocate C V = .ok obj)
    (hptr : obj.1.createPtrNode C V = .ok ptr) :
    Additions P T A b ptr.1 ∧ Settled P T ptr.1 ∧ ptr.1.NodeOf (.obj ⟨C, V, 0⟩) obj.2 ∧
      ptr.1.NodeOf (.ptr C V) ptr.2 := by
  have hadd1 : Additions P T A b obj.1 := .single (.alloc C V hobj)
  have h1 := h.additions hP hA hadd1
  have hn1 : obj.1.NodeOf (.obj ⟨C, V, 0⟩) obj.2 := (h.placed.allocate hobj).2.2
  unfold Builder.createPtrNode at hptr
  split at hptr
  · cases hptr
  · rename_i hfree
    cases hptr
    have hadd2 : Additions P T A obj.1 (obj.1.insertPtr C V).1 := .single (.ptr C V hfree)
    refine ⟨hadd1.trans hadd2, h1.additions hP hA hadd2, hn1.grows hadd2.grows, ?_⟩
    exact Function.update_self ..

/-- the copies from the incoming values of a node -/
theorem incoming (hP : P.Canonical) (hA : Legal P T A) {C : Ctx} {y : Cell Ctx Fun Val} {dst : NodeID}
    {l : List Val} (hl : ∀ V ∈ l, A .copy (cell P T C V) y) (h : Settled P T b)
    (hy : b.NodeOf y dst) :
    Additions P T A b (l.foldl (addIncoming P T C dst) b) ∧
      ∀ V ∈ l, (l.foldl (addIncoming P T C dst) b).Has .copy (cell P T C V) y := by
  induction l generalizing b with
  | nil => exact ⟨.refl, fun V hV => absurd hV List.not_mem_nil⟩
  | cons V l ih =>
    obtain ⟨hadd, h1, hn⟩ := h.getOrCreate hP hA C V
    have hstep : Additions P T A b _ :=
      hadd.tail (.cons (hl V List.mem_cons_self) hn (hy.grows hadd.grows))
    have h2 := h.additions hP hA hstep
    obtain ⟨hrest, hall⟩ := ih (fun U hU => hl U (List.mem_cons_of_mem _ hU)) h2
      (hy.grows hstep.grows)
    refine ⟨hstep.trans hrest, fun U hU => ?_⟩
    rcases List.mem_cons.mp hU with rfl | hU
    · exact h2.has hP hA hrest (has_addConstraints hn (hy.grows hadd.grows))
    · exact hall U hU

/-! ### instructions -/

/-- the constraints of an instruction are those that its visitor adds -/
theorem visit (hP : P.Canonical) (h : Settled P T b) {C : Ctx} {F : Fun} {I : Val}
    (hr : Builder.visit P T C F b I = .ok b') : Emitted P T (InstCons P T C F I) b b' := by
  have hA : Legal P T (InstCons P T C F I) := legal_inst hP C F I
  unfold Builder.visit at hr
  cases hI : P.instr I with
  | alloca =>
    rw [hI] at hr
    obtain ⟨obj, hobj, hr⟩ := bind_ok hr
    obtain ⟨ptr, hptr, hr⟩ := bind_ok hr
    cases hr
    obtain ⟨hadd, -, hn, hm⟩ := h.allocPtr hP hA hobj hptr
    refine .one hadd hn hm (.alloca hI) fun k x y hk => ?_
    cases hk <;> simp_all
  | load ptr =>
    rw [hI] at hr
    cases hr
    unfold visitLoadInst
    split
    · rename_i hptr
      obtain ⟨m, n, b2, hadd, hm, hn, heq⟩ := h.addEdge hP hA C ptr I
        fun loadedFrom loadedInto b => b.addConstraints loadedFrom loadedInto .load
      rw [heq]
      refine .one hadd hm hn (.load hI hptr) fun k x y hk => ?_
      cases hk <;> simp_all
    · refine .none .refl fun k x y hk => ?_
      cases hk <;> simp_all
  | store value ptr =>
    rw [hI] at hr
    cases hr
    unfold visitStoreInst
    dsimp only
    split
    · rename_i hptr
      split
      · refine .none .refl fun k x y hk => ?_
        cases hk <;> simp_all
      · rename_i hspecial
        obtain ⟨m, n, b2, hadd, hm, hn, heq⟩ := h.addEdge hP hA C value ptr
          fun srcNode dstNode b => b.addConstraints srcNode dstNode .store
        rw [heq]
        refine .one hadd hm hn (.store hI hptr (fun h => hspecial (.inl h))
          fun h => hspecial (.inr h)) fun k x y hk => ?_
        cases hk <;> simp_all
    · refine .none .refl fun k x y hk => ?_
      cases hk <;> simp_all
  | getElementPtr base =>
    rw [hI] at hr
    cases hr
    unfold visitGetElementPtrInst
    dsimp only
    split
    · rename_i hne
      obtain ⟨m, n, b2, hadd, hm, hn, heq⟩ := h.addEdge hP hA C (P.canonicalize I)
        (P.canonicalize base) fun gepNode baseNode b => b.addConstraints baseNode gepNode .offset
      rw [heq]
      refine .one hadd hn hm (.gep hI hne) fun k x y hk => ?_
      cases hk <;> simp_all
    · refine .none .refl fun k x y hk => ?_
      cases hk <;> simp_all
  | phi incoming =>
    rw [hI] at hr
    cases hr
    unfold visitPHINode
    split
    · rename_i hptr
      obtain ⟨hadd, h1, hn⟩ := h.getOrCreate hP hA C I
      obtain ⟨hrest, hall⟩ := h1.incoming hP hA (l := incoming.map (·.1))
        (fun V hV => .phi hI hptr hV) hn
      refine ⟨hadd.trans hrest, fun k x y hk => ?_⟩
      cases hk with
      | phi hI' _ hV =>
        rw [hI] at hI'
        cases hI'
        exact hall _ hV
      | _ => simp_all
    · refine .none .refl fun k x y hk => ?_
      cases hk <;> simp_all
  | select t f =>
    rw [hI] at hr
    cases hr
    unfold visitSelectInst
    split
    · rename_i hptr
      obtain ⟨hadd, h1, hn⟩ := h.getOrCreate hP hA C I
      obtain ⟨hrest, hall⟩ := h1.incoming hP hA (l := [t, f]) (fun V hV => .select hI hptr hV) hn
      refine ⟨hadd.trans hrest, fun k x y hk => ?_⟩
      cases hk with
      | select hI' _ hV =>
        rw [hI] at hI'
        cases hI'
        exact hall _ hV
      | _ => simp_all
    · refine .none .refl fun k x y hk => ?_
      cases hk <;> simp_all
  | call cs =>
    rw [hI] at hr
    cases hr
    have hnone : ∀ k x y, ¬ InstCons P T C F I k x y := by
      intro k x y hk
      cases hk <;> simp_all
    unfold visitCallSite
    split
    · split
      · exact .none .refl hnone
      · exact .none (h.getOrCreate hP hA C I).1 hnone
    · exact .none .refl hnone
  | memcpy source dest cs =>
    rw [hI] at hr
    cases hr
    obtain ⟨m, n, b2, hadd, -, -, heq⟩ := h.addEdge hP hA C source dest fun _ _ b => b
    unfold visitMemCpyInst
    rw [heq]
    refine .none hadd fun k x y hk => ?_
    cases hk <;> simp_all
  | ret value =>
    rw [hI] at hr
    unfold visitReturnInst at hr
    cases value with
    | none =>
      cases hr
      refine .none .refl fun k x y hk => ?_
      cases hk <;> simp_all
    | some V =>
      dsimp only at hr
      split at hr
      · rename_i hptr
        obtain ⟨m, hm, hr⟩ := bind_ok hr
        obtain ⟨n, hn, hr⟩ := bind_ok hr
        cases hr
        have hret : b.NodeOf (.ret C F) n := getRetNode_ok hn
        refine .one .refl (h.getPtrNode hm) hret (.ret hI hptr) fun k x y hk => ?_
        cases hk <;> simp_all
      · cases hr
        refine .none .refl fun k x y hk => ?_
        cases hk <;> simp_all
  | extractValue =>
    rw [hI] at hr
    cases hr
    have hnone : ∀ k x y, ¬ InstCons P T C F I k x y := by
      intro k x y hk
      cases hk <;> simp_all
    unfold visitExtractValueInst
    split
    · exact .none (h.getOrCreate hP hA C I).1 hnone
    · exact .none .refl hnone
  | other =>
    rw [hI] at hr
    cases hr
    refine .none .refl fun k x y hk => ?_
    cases hk <;> simp_all

/-- the visitors of a list of instructions -/
theorem visits (hP : P.Canonical) {C : Ctx} {F : Fun} {l : List Val} (h : Settled P T b)
    (hr : l.foldlM (Builder.visit P T C F) b = .ok b') :
    Emitted P T (fun k x y => ∃ I ∈ l, InstCons P T C F I k x y) b b' := by
  induction l generalizing b with
  | nil =>
    cases hr
    refine .none .refl ?_
    rintro k x y ⟨I, hI, -⟩
    cases hI
  | cons I l ih =>
    rw [List.foldlM_cons] at hr
    obtain ⟨b1, h1, hr⟩ := bind_ok hr
    have hfirst := h.visit hP h1
    have hset := h.additions hP (legal_inst hP C F I) hfirst.additions
    have hrest := ih hset hr
    have hA : Legal P T fun k x y => ∃ J ∈ l, InstCons P T C F J k x y := by
      refine ⟨?_, ?_, ?_⟩
      · rintro x y ⟨J, -, hJ⟩
        exact (legal_inst hP C F J).addrOf x y hJ
      · rintro k x C' V hk ⟨J, -, hJ⟩
        exact (legal_inst hP C F J).fed k x C' V hk hJ
      · rintro x y ⟨J, -, hJ⟩
        exact (legal_inst hP C F J).offset x y hJ
    refine ⟨(hfirst.additions.mono fun k x y hk => ⟨I, List.mem_cons_self, hk⟩).trans
      (hrest.additions.mono fun k x y ⟨J, hJ, hk⟩ => ⟨J, List.mem_cons_of_mem _ hJ, hk⟩), ?_⟩
    rintro k x y ⟨J, hJ, hk⟩
    rcases List.mem_cons.mp hJ with rfl | hJ
    · exact hset.has hP hA hrest.additions (hfirst.has k x y hk)
    · exact hrest.has k x y ⟨J, hJ, hk⟩

/-- the return node and the nodes of the arguments -/
theorem initArguments {A : Constraints → Cell Ctx Fun Val → Cell Ctx Fun Val → Prop} {C : Ctx}
    {l : List Val} (hr : l.foldlM (initArgument P C) b = .ok b') : Additions P T A b b' := by
  refine foldlM_ok (I := Additions P T A b) (fun b1 V _ hb b2 hr => hb.trans ?_) .refl hr
  unfold initArgument at hr
  split at hr
  · unfold Builder.createPtrNode at hr
    split at hr
    · cases hr
    · rename_i hfree
      cases hr
      exact .single (.ptr C V hfree)
  · cases hr
    exact .refl

/-- the constraints of a body are those that `initFunction` adds -/
theorem initFunction (hP : P.Canonical) (h : Settled P T b) {C : Ctx} {F : Fun}
    (hbody : P.hasBody F = true) (hr : Builder.initFunction P T b C F = .ok b') :
    Emitted P T (fun k x y => ∃ I ∈ P.insts F, InstCons P T C F I k x y) b b' := by
  unfold Builder.initFunction at hr
  rw [if_pos hbody] at hr
  obtain ⟨b1, h1, hr⟩ := bind_ok hr
  obtain ⟨b2, h2, hr⟩ := bind_ok hr
  have hadd1 : Additions P T (fun _ _ _ => False) b b1 := by
    unfold initReturn at h1
    split at h1
    · exact .single (.ret C F h1)
    · cases h1
      exact .refl
  have hadd := hadd1.trans (initArguments h2)
  have hA : Legal P T (fun _ _ _ => False : Constraints → Cell Ctx Fun Val → Cell Ctx Fun Val → Prop) :=
    ⟨fun _ _ h => h.elim, fun _ _ _ _ _ h => h.elim, fun _ _ h => h.elim⟩
  have hbody := (h.additions hP hA hadd).visits hP hr
  exact ⟨(Additions.mono (fun _ _ _ h => h.elim) hadd).trans hbody.additions, hbody.has⟩

/-! ### calls -/

variable {L : LangModel Fun Val Ty}

theorem linkArgs (hP : P.Canonical) {A : Constraints → Cell Ctx Fun Val → Cell Ctx Fun Val → Prop}
    (hA : Legal P T A) {C C' : Ctx} {actuals formals rest : List Val} (h : Settled P T b)
    (hpairs : ∀ p ∈ P.argPairs actuals formals, A .copy (cell P T C p.1) (cell P T C' p.2))
    (hr : Builder.linkArgs P T C C' actuals formals b = .ok (b', rest)) :
    Additions P T A b b' ∧
      ∀ p ∈ P.argPairs actuals formals, b'.Has .copy (cell P T C p.1) (cell P T C' p.2) := by
  induction formals generalizing actuals b with
  | nil =>
    have hnil : P.argPairs actuals [] = [] := by
      unfold Program.argPairs
      rw [List.zip_nil_right]
      rfl
    rw [hnil]
    cases actuals <;> cases hr <;> exact ⟨.refl, fun p hp => absurd hp List.not_mem_nil⟩
  | cons formal formals ih =>
    cases actuals with
    | nil => cases hr
    | cons actual actuals =>
      unfold Builder.linkArgs at hr
      split at hr
      · cases hr
      · rename_i hsame
        have hcons : P.argPairs (actual :: actuals) (formal :: formals) =
            (if P.isPointer formal then [(actual, formal)] else []) ++
              P.argPairs actuals formals := by
          unfold Program.argPairs
          rw [List.zip_cons_cons, List.filter_cons]
          split <;> rfl
        have hsame : P.isPointer formal = P.isPointer actual := by
          by_contra hne
          exact hsame hne
        rw [hcons] at hpairs ⊢
        split at hr
        · rename_i hptr
          rw [hsame, if_pos hptr] at hpairs ⊢
          obtain ⟨m, hm, hr⟩ := bind_ok hr
          obtain ⟨n, hn, hr⟩ := bind_ok hr
          have hx := h.getPtrNode hm
          have hy := h.getPtrNode hn
          have hstep : Additions P T A b (b.addConstraints m n .copy) :=
            .single (.cons (hpairs (actual, formal) List.mem_cons_self) hx hy)
          have h1 := h.additions hP hA hstep
          obtain ⟨hrest, hall⟩ := ih h1 (fun p hp => hpairs p (List.mem_cons_of_mem _ hp)) hr
          refine ⟨hstep.trans hrest, fun p hp => ?_⟩
          rcases List.mem_cons.mp hp with rfl | hp
          · exact h1.has hP hA hrest (has_addConstraints hx hy)
          · exact hall p hp
        · rename_i hptr
          rw [hsame, if_neg hptr] at hpairs ⊢
          exact ih h hpairs hr

theorem linkReturn {A : Constraints → Cell Ctx Fun Val → Cell Ctx Fun Val → Prop} {C C' : Ctx}
    {G : Fun} {I : Val} {cs : CallInst Fun Val} (h : Settled P T b)
    (hcons : cs.returnedArg = none → P.isPointerTy (P.sig G).ret = true →
      A .copy (.ret C' G) (cell P T C I))
    (hr : Builder.linkReturn P T b C C' G I cs = .ok b') :
    Additions P T A b b' ∧ (cs.returnedArg = none → P.isPointerTy (P.sig G).ret = true →
      b'.Has .copy (.ret C' G) (cell P T C I)) := by
  unfold Builder.linkReturn at hr
  split at hr
  · rename_i rv hrv
    split at hr
    · cases hr
    · cases hr
      refine ⟨.refl, fun hnone => ?_⟩
      rw [hrv] at hnone
      cases hnone
  · rename_i hnone
    split at hr
    · rename_i hptr
      obtain ⟨m, hm, hr⟩ := bind_ok hr
      obtain ⟨n, hn, hr⟩ := bind_ok hr
      cases hr
      have hx : b.NodeOf (.ret C' G) m := getRetNode_ok hm
      have hy := h.getPtrNode hn
      exact ⟨.single (.cons (hcons hnone hptr) hx hy), fun _ _ => has_addConstraints hx hy⟩
    · rename_i hptr
      cases hr
      exact ⟨.refl, fun _ h => absurd h hptr⟩

/-- the constraints of a call are those that `processCallSite` adds for its edge -/
theorem processCallSite [DecidableEq Ty] (hP : P.Canonical) (h : Settled P T b) {C C' : Ctx}
    {caller G : Fun} {I : Val}
    (hr : Builder.processCallSite P T L b C caller C' G I = .ok b') :
    T.contextEvolve C I = C' ∧ Emitted P T (CallCons P T L C I G) b b' := by
  have hA : Legal P T (CallCons P T L C I G) := legal_call hP C I G
  unfold Builder.processCallSite at hr
  split at hr
  · cases hr
  rename_i cs hcs
  split at hr
  · cases hr
  rename_i hctx
  obtain rfl : T.contextEvolve C I = C' := by
    by_contra hne
    exact hctx hne
  refine ⟨rfl, ?_⟩
  split at hr
  · rename_i hheap
    obtain ⟨obj, hobj, hr⟩ := bind_ok hr
    obtain ⟨ptr, hptr, hr⟩ := bind_ok hr
    cases hr
    have hadd : Additions P T (CallCons P T L C I G) b obj.1 := .single (.alloc C I hobj)
    have hn : obj.1.NodeOf (.obj ⟨C, I, 0⟩) obj.2 := (h.placed.allocate hobj).2.2
    refine .one hadd hn ((h.additions hP hA hadd).getPtrNode hptr) (.heap hheap) fun k x y hk => ?_
    cases hk <;> simp_all
  rename_i hheap
  have hheap : L.isHeapAllocFun G = false := by simpa using hheap
  split at hr
  · rename_i hthread
    unfold Builder.interceptThreadCreation at hr
    split at hr
    · rename_i arg operand harg hop
      obtain ⟨n, hn, hr⟩ := bind_ok hr
      obtain ⟨m, hm, hr⟩ := bind_ok hr
      cases hr
      refine .one .refl (h.getPtrNode hm) (h.getPtrNode hn) (.thread hheap hcs hthread harg hop)
        fun k x y hk => ?_
      cases hk <;> simp_all
    · cases hr
  rename_i hthread
  have hthread : cs.getTargetFunction.any L.isThreadCreation = false := by simpa using hthread
  split at hr
  · cases hr
  rename_i hnames
  have hnames : cs.Names G := not_not.mp hnames
  split at hr
  · cases hr
  split at hr
  · cases hr
  split at hr
  · rename_i hbody
    obtain ⟨r, hlink, hr⟩ := bind_ok hr
    split at hr
    · cases hr
    obtain ⟨hadd1, hargs⟩ := h.linkArgs hP hA
      (fun p hp => .arg hheap hcs hthread hnames hbody hp) hlink
    have h1 := h.additions hP hA hadd1
    obtain ⟨hadd2, hret⟩ := h1.linkReturn (A := CallCons P T L C I G)
      (fun hnone hptr => .ret hheap hcs hthread hnames hbody hnone hptr) hr
    refine ⟨hadd1.trans hadd2, fun k x y hk => ?_⟩
    cases hk with
    | heap hheap' =>
      rw [hheap] at hheap'
      cases hheap'
    | thread _ hcs' hthread' _ _ =>
      rw [hcs] at hcs'
      cases hcs'
      rw [hthread] at hthread'
      cases hthread'
    | arg _ hcs' _ _ _ hp =>
      rw [hcs] at hcs'
      cases hcs'
      exact h1.has hP hA hadd2 (hargs _ hp)
    | ret _ hcs' _ _ _ hnone hptr =>
      rw [hcs] at hcs'
      cases hcs'
      exact hret hnone hptr
  · rename_i hbody
    cases hr
    refine .none .refl fun k x y hk => ?_
    cases hk <;> simp_all

omit [DecidableEq Ctx] [DecidableEq Fun] in
theorem initIndirectCall (h : Settled P T b) {C : Ctx} {V : Val} {id : CallNodeID}
    (hr : Builder.initIndirectCall P T b C V id = .ok b') : Settled P T b' ∧ Grows b b' := by
  have hg := Grows.initIndirectCall hr
  have hplaced := h.placed.initIndirectCall hr
  obtain ⟨n, -, hr⟩ := bind_ok hr
  cases hr
  exact ⟨⟨hplaced, h.null_ptr, h.uni_ptr⟩, hg⟩

/-! ### globals -/

/-- a global, its block and the pointer to it -/
theorem addGlobal (hP : P.Canonical) {A : Constraints → Cell Ctx Fun Val → Cell Ctx Fun Val → Prop}
    (hA : Legal P T A) (h : Settled P T b) {V : Val}
    (hV : A .addrOf (.obj ⟨T.getGlobalCtx, V, 0⟩) (.ptr T.getGlobalCtx V))
    (hr : Builder.addGlobal T b V = .ok b') :
    Additions P T A b b' ∧ b'.Has .addrOf (.obj ⟨T.getGlobalCtx, V, 0⟩) (.ptr T.getGlobalCtx V) := by
  obtain ⟨obj, hobj, hr⟩ := bind_ok hr
  obtain ⟨ptr, hptr, hr⟩ := bind_ok hr
  cases hr
  obtain ⟨hadd, -, hx, hy⟩ := h.allocPtr hP hA hobj hptr
  exact ⟨hadd.tail (.cons hV hx hy), has_addConstraints hx hy⟩

theorem addGlobalList (hP : P.Canonical)
    {A : Constraints → Cell Ctx Fun Val → Cell Ctx Fun Val → Prop} (hA : Legal P T A) {l : List Val}
    (hl : ∀ V ∈ l, A .addrOf (.obj ⟨T.getGlobalCtx, V, 0⟩) (.ptr T.getGlobalCtx V)) (h : Settled P T b)
    (hr : l.foldlM (Builder.addGlobal T) b = .ok b') :
    Additions P T A b b' ∧ ∀ V ∈ l,
      b'.Has .addrOf (.obj ⟨T.getGlobalCtx, V, 0⟩) (.ptr T.getGlobalCtx V) := by
  induction l generalizing b with
  | nil =>
    cases hr
    exact ⟨.refl, fun V hV => absurd hV List.not_mem_nil⟩
  | cons V l ih =>
    rw [List.foldlM_cons] at hr
    obtain ⟨b1, h1, hr⟩ := bind_ok hr
    obtain ⟨hadd, hhas⟩ := h.addGlobal hP hA (hl V List.mem_cons_self) h1
    have hset := h.additions hP hA hadd
    obtain ⟨hrest, hall⟩ := ih (fun U hU => hl U (List.mem_cons_of_mem _ hU)) hset hr
    refine ⟨hadd.trans hrest, fun U hU => ?_⟩
    rcases List.mem_cons.mp hU with rfl | hU
    · exact hset.has hP hA hrest hhas
    · exact hall U hU

theorem addGlobals (hP : P.Canonical) {A : Constraints → Cell Ctx Fun Val → Cell Ctx Fun Val → Prop}
    (hA : Legal P T A) (h : Settled P T b)
    (hl : ∀ V ∈ P.globals ++ P.functions.map P.value,
      A .addrOf (.obj ⟨T.getGlobalCtx, V, 0⟩) (.ptr T.getGlobalCtx V))
    (hr : Builder.addGlobals P T b = .ok b') :
    Additions P T A b b' ∧ ∀ V ∈ P.globals ++ P.functions.map P.value,
      b'.Has .addrOf (.obj ⟨T.getGlobalCtx, V, 0⟩) (.ptr T.getGlobalCtx V) := by
  obtain ⟨b1, h1, hr⟩ := bind_ok hr
  obtain ⟨hadd1, hall1⟩ := h.addGlobalList hP hA
    (fun V hV => hl V (List.mem_append_left _ hV)) h1
  have hset := h.additions hP hA hadd1
  obtain ⟨hadd2, hall2⟩ := hset.addGlobalList hP hA
    (fun V hV => hl V (List.mem_append_right _ hV)) hr
  refine ⟨hadd1.trans hadd2, fun V hV => ?_⟩
  rcases List.mem_append.mp hV with hV | hV
  · exact hset.has hP hA hadd2 (hall1 V hV)
  · exact hall2 V hV

omit [DecidableEq Fun] in
/-- the constructor puts the special pointers into the set -/
theorem initial (hr : Builder.initial P T = .ok b) : Settled P T b := by
  have hplaced : Placed P T b := initial_placed hr
  unfold Builder.initial at hr
  obtain ⟨nullPtr, hnull, hr⟩ := bind_ok hr
  obtain ⟨uniPtr, huni, hr⟩ := bind_ok hr
  obtain ⟨nullObj, hnullObj, hr⟩ := bind_ok hr
  obtain ⟨uniObj, huniObj, hr⟩ := bind_ok hr
  cases hr
  have hptr : ∀ {b : Builder Ctx Fun Val} {V : Val} {r : Builder Ctx Fun Val × NodeID},
      b.createPtrNode T.getGlobalCtx V = .ok r →
      r.1.ptrs (T.getGlobalCtx, V) = some r.2 ∧
        ∀ k n, b.ptrs k = some n → r.1.ptrs k = some n := by
    intro b V r hr
    unfold Builder.createPtrNode at hr
    split at hr
    · cases hr
    · rename_i hfree
      cases hr
      refine ⟨Function.update_self .., fun k n hk => ?_⟩
      show Function.update b.ptrs (T.getGlobalCtx, V) _ k = some n
      rw [Function.update_of_ne]
      · exact hk
      · rintro rfl
        rw [hfree] at hk
        cases hk
  have hobj : ∀ {b : Builder Ctx Fun Val} {V : Val} {r : Builder Ctx Fun Val × NodeID},
      b.allocate T.getGlobalCtx V = .ok r → r.1.ptrs = b.ptrs := by
    intro b V r hr
    unfold Builder.allocate at hr
    split at hr
    · cases hr
    · cases hr
      rfl
  obtain ⟨hn, -⟩ := hptr hnull
  obtain ⟨hu, hkeep⟩ := hptr huni
  refine ⟨hplaced, ?_, ?_⟩
  · show uniObj.1.ptrs _ = some nullPtr.2
    rw [hobj huniObj, hobj hnullObj]
    exact hkeep _ _ hn
  · show uniObj.1.ptrs _ = some uniPtr.2
    rw [hobj huniObj, hobj hnullObj]
    exact hu

end Settled

end Builder

end AserPTA
