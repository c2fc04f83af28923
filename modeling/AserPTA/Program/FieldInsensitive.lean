import AserPTA.MemoryModel.Canonicalizer
import AserPTA.MemoryModel.FieldSensitive
import AserPTA.Program.Precision

/-!
# Fields only refine the analysis

The same program is analysed with the field-sensitive memory model and with `FIMemModel`, whose
canonicalizer looks through every `getelementptr` and whose objects have no fields.

* `FIMemModel`                 it is never asked for a field;
* `Program.fieldInsensitive`   the program as its canonicalizer shows it;
* `Collapses`                  what the canonicalizer does to the program;
* `FSObject.collapse`, `Cell.collapse`   fields go to their objects, and values to their bases;
* `collapse_model`             facts of the one analysis are facts of the other one;
* `Finished.withoutFields`, `aliasIfExsit_collapse`   so are the results and the answers.
-/

namespace AserPTA

variable {Ctx Fun Val Ty : Type}

/-- can not index object in field insensitive pointer analysis -/
def FIMemModel (Ctx Val : Type) : MemModel (FSObject Ctx Val) (Pointer Ctx Val) :=
  ⟨fun _ _ => none, ∅, fun _ _ _ h => (by cases h)⟩

theorem FIMemModel_keepsBlock : KeepsBlock (FIMemModel Ctx Val) := fun _ _ _ hf => by cases hf

namespace Program

/-- the program with another canonicalizer -/
def fieldInsensitive (P : Program Fun Val Ty) (canonicalize : Val → Val) : Program Fun Val Ty :=
  { P with canonicalize := canonicalize }

/-- `fi` goes on where the canonicalizer of the program stops, and it looks through `getelementptr`s.  No
copy of memory is left, for which `FIMemModel` has a node of its own. -/
structure Collapses (P : Program Fun Val Ty) (fi : Val → Val) : Prop where
  canonicalize : ∀ V, fi (P.canonicalize V) = fi V
  gep : ∀ I base, P.instr I = .getElementPtr base → fi base = fi I
  alloca : ∀ I, P.instr I = .alloca → fi I = I
  symbol : ∀ V ∈ P.globals ++ P.functions.map P.value,
    fi V = V ∧ P.isGlobalValue V = true ∧ V ≠ P.uniValue ∧ V ≠ P.nullValue
  global : ∀ V, P.isGlobalValue V = true →
    P.isGlobalValue (fi V) = true ∨ fi V = P.uniValue ∨ fi V = P.nullValue
  special : fi P.uniValue = P.uniValue ∧ fi P.nullValue = P.nullValue
  lowered : ∀ I source dest cs, P.instr I ≠ .memcpy source dest cs

end Program

/-! ## the canonicalizers of the memory models -/

section
open StateTransition

/-- what the canonicalizers see is what is in the program -/
structure Program.Sees (P : Program Fun Val Ty) (W : PointerValues Val) : Prop where
  null : W.nullValue = P.nullValue
  uni : W.uniValue = P.uniValue
  gep : ∀ I base, P.instr I = .getElementPtr base →
    W.form I = .gep base ∧ W.isPointer I = true ∧ W.isPointer base = true
  alloca : ∀ I, P.instr I = .alloca → W.form I = .other
  symbol : ∀ V ∈ P.globals ++ P.functions.map P.value, W.form V = .other ∧ P.isGlobalValue V = true
  global : ∀ V, P.isGlobalValue V = true → W.isPointer V = true ∧
    ∀ X, X ∈ eval W.stripStep V → P.isGlobalValue X = true ∨ W.Special X
  lowered : ∀ I source dest cs, P.instr I ≠ .memcpy source dest cs

/-- `FICanonicalizer` and `FSCanonicalizer`, where no chain of casts is a cycle -/
theorem Program.Sees.collapses [DecidableEq Val] {P : Program Fun Val Ty} {W : PointerValues Val}
    (h : P.Sees W) (hend : ∀ V, ∃ X, X ∈ eval W.stripStep V) {strip : Val → Val}
    (hstrip : ∀ V, Reaches W.stripStep V (strip V))
    (hptr : ∀ V, W.isPointer V = true → W.isPointer (strip V) = true)
    (hfs : ∀ V, P.canonicalize V = FSCanonicalizer.canonicalize W strip V) {fi : Val → Val}
    (hfi : ∀ V, ∃ n, FICanonicalizer.canonicalize W n V = some (fi V)) : P.Collapses fi := by
  have hself : ∀ V, W.stripStep V = none → fi V = if W.isPointer V then W.stripNullOrUnDef V else V := by
    intro V hV
    obtain ⟨n, hn⟩ := hfi V
    exact FICanonicalizer.canonicalize_eval (mem_eval.mpr ⟨.refl, hV⟩) hn
  have hother : ∀ V, W.form V = .other → fi V = V := by
    intro V hV
    have hnot : ¬ W.Special V := by
      unfold PointerValues.Special
      simp [hV]
    rw [hself V (by unfold PointerValues.stripStep; rw [hV]), W.stripNullOrUnDef_of_not_special hnot]
    exact ite_self V
  refine ⟨fun V => ?_, fun I base hI => ?_, fun I hI => hother I (h.alloca I hI), fun V hV => ?_,
    fun V hV => ?_, ⟨?_, ?_⟩, h.lowered⟩
  · obtain ⟨X, hX⟩ := hend V
    obtain ⟨n, hn⟩ := hfi V
    obtain ⟨n', hn'⟩ := hfi (P.canonicalize V)
    rw [hfs] at hn' ⊢
    exact FICanonicalizer.canonicalize_canonicalize (hstrip V) (hptr V) hX hn hn'
  · obtain ⟨hform, hptr, hbase⟩ := h.gep I base hI
    obtain ⟨X, hX⟩ := hend base
    obtain ⟨n, hn⟩ := hfi I
    obtain ⟨n', hn'⟩ := hfi base
    exact FICanonicalizer.canonicalize_gep hform hptr hbase hX hn hn'
  · obtain ⟨hform, hglobal⟩ := h.symbol V hV
    refine ⟨hother V hform, hglobal, fun heq => ?_, fun heq => ?_⟩
    · rw [heq, ← h.uni, W.form_uni] at hform
      cases hform
    · rw [heq, ← h.null, W.form_null] at hform
      cases hform
  · obtain ⟨hptr, hX⟩ := h.global V hV
    obtain ⟨X, hchain⟩ := hend V
    obtain ⟨n, hn⟩ := hfi V
    rw [FICanonicalizer.canonicalize_eval hchain hn, if_pos hptr]
    by_cases hspecial : W.Special X
    · right
      rw [← h.uni, ← h.null]
      exact (W.stripNullOrUnDef_special hspecial).symm
    · left
      rw [W.stripNullOrUnDef_of_not_special hspecial]
      exact (hX X hchain).resolve_right hspecial
  · have huni : W.Special W.uniValue := .inr (.inr W.form_uni)
    rw [← h.uni, hself _ (W.stripStep_special huni), if_pos W.isPointer_uni]
    unfold PointerValues.stripNullOrUnDef
    simp [W.form_uni]
  · have hnull : W.Special W.nullValue := .inr (.inl W.form_null)
    rw [← h.null, hself _ (W.stripStep_special hnull), if_pos W.isPointer_null]
    unfold PointerValues.stripNullOrUnDef
    simp [W.form_null]

end

/-! ## calls -/

section
variable {P : Program Fun Val Ty} {L : LangModel Fun Val Ty} {fi : Val → Val}

theorem Pending.fieldInsensitive {I : Val} {V : Option Val} (h : Pending P L I V) :
    Pending (P.fieldInsensitive fi) L I V := by
  cases h with
  | indirect hcs htarget => exact .indirect hcs htarget
  | redirected hcs htarget hred hopt => exact .redirected hcs htarget hred hopt

theorem pointersMatch_fieldInsensitive (actuals formals : List Val) :
    (P.fieldInsensitive fi).pointersMatch actuals formals = P.pointersMatch actuals formals := by
  induction formals generalizing actuals with
  | nil => cases actuals <;> rfl
  | cons f formals ih =>
    cases actuals with
    | nil => rfl
    | cons a actuals =>
      show (_ && (P.fieldInsensitive fi).pointersMatch actuals formals) = (_ && _)
      rw [ih]
      rfl

theorem compatible_fieldInsensitive [DecidableEq Ty] (c : InDirectCallSite Ctx Fun Val Val) (F : Fun) :
    c.compatible (P.fieldInsensitive fi) L F = c.compatible P L F := by
  have hcall : ∀ I cs, (P.fieldInsensitive fi).isCompatibleCall I cs F = P.isCompatibleCall I cs F := by
    intro I cs
    unfold Program.isCompatibleCall
    rw [pointersMatch_fieldInsensitive]
    rfl
  unfold InDirectCallSite.compatible
  simp only [hcall]
  rfl

end

/-! ## facts -/

/-- the object without its offset -/
def FSObject.collapse (o : FSObject Ctx Val) : FSObject Ctx Val := ⟨o.context, o.value, 0⟩

section
variable [DecidableEq Val] (P : Program Fun Val Ty) (T : CtxDomain Ctx Val) (fi : Val → Val)

def Cell.collapse : Cell Ctx Fun Val → Cell Ctx Fun Val
  | .ptr C V => cell (P.fieldInsensitive fi) T C V
  | .ret C F => .ret C F
  | .obj o => .obj o.collapse

/-- not the cell of a pointer that is canonicalized to one of the constants -/
def Cell.Regular : Cell Ctx Fun Val → Prop
  | .ptr _ V => fi V ≠ P.uniValue ∧ fi V ≠ P.nullValue
  | _ => True

end

section
variable [DecidableEq Val] {P : Program Fun Val Ty} {T : CtxDomain Ctx Val} {fi : Val → Val}

theorem cell_fieldInsensitive (C : Ctx) (V : Val) :
    (cell (P.fieldInsensitive fi) T C V : Cell Ctx Fun Val) =
      if fi V = P.uniValue ∨ fi V = P.nullValue then .ptr T.getGlobalCtx (fi V)
      else .ptr (Builder.ctxOf P T C (fi V)) (fi V) := rfl

theorem cell_congr {V V' : Val} (C : Ctx) (h : fi V = fi V') :
    (cell (P.fieldInsensitive fi) T C V : Cell Ctx Fun Val) = cell (P.fieldInsensitive fi) T C V' := by
  rw [cell_fieldInsensitive, cell_fieldInsensitive, h]

namespace Program.Collapses

variable (h : P.Collapses fi)
include h

theorem cell (C : Ctx) (V : Val) :
    (cell P T C V : Cell Ctx Fun Val).collapse P T fi = AserPTA.cell (P.fieldInsensitive fi) T C V := by
  have hV : fi (P.canonicalize V) = fi V := h.canonicalize V
  unfold AserPTA.cell
  split
  · rename_i hspecial
    have hfi : fi (P.canonicalize V) = P.uniValue ∨ fi (P.canonicalize V) = P.nullValue := by
      rcases hspecial with hs | hs
      · exact .inl (by rw [hs, h.special.1])
      · exact .inr (by rw [hs, h.special.2])
    show AserPTA.cell (P.fieldInsensitive fi) T T.getGlobalCtx (P.canonicalize V) =
      AserPTA.cell (P.fieldInsensitive fi) T C V
    rw [cell_fieldInsensitive, cell_fieldInsensitive, if_pos hfi, if_pos (hV ▸ hfi), hV]
  · show AserPTA.cell (P.fieldInsensitive fi) T (Builder.ctxOf P T C (P.canonicalize V))
      (P.canonicalize V) = AserPTA.cell (P.fieldInsensitive fi) T C V
    rw [cell_fieldInsensitive, cell_fieldInsensitive, hV]
    split
    · rfl
    · rename_i hfi
      unfold Builder.ctxOf
      by_cases hglobal : P.isGlobalValue (P.canonicalize V) = true
      · rcases h.global _ hglobal with hg | hs
        · rw [hV] at hg
          rw [if_pos hg, if_pos hg]
        · rw [hV] at hs
          exact absurd hs hfi
      · rw [if_neg hglobal]

theorem regular_cell (C : Ctx) (V : Val) : (AserPTA.cell P T C V : Cell Ctx Fun Val).Regular P fi ↔
    fi V ≠ P.uniValue ∧ fi V ≠ P.nullValue := by
  have hV : fi (P.canonicalize V) = fi V := h.canonicalize V
  unfold AserPTA.cell
  split <;>
  · show fi (P.canonicalize V) ≠ P.uniValue ∧ fi (P.canonicalize V) ≠ P.nullValue ↔ _
    rw [hV]

end Program.Collapses

/-! ## rules -/

variable {L : LangModel Fun Val Ty} {init init' : FSObject Ctx Val → FSObject Ctx Val → Prop}

/-- The values that are computed keep their cells. -/
theorem Program.Collapses.computed (h : P.Collapses fi) (hrun : P.Runnable) {F : Fun} {V : Val} (C : Ctx)
    (hV : V ∈ P.insts F ++ P.args F) (hfi : fi V = V) :
    (AserPTA.cell (P.fieldInsensitive fi) T C V : Cell Ctx Fun Val) = .ptr C V ∧
      (AserPTA.cell P T C V : Cell Ctx Fun Val).Regular P fi := by
  obtain ⟨hglobal, huni, hnull⟩ := hrun.computed F V hV
  refine ⟨?_, (h.regular_cell C V).mpr (by rw [hfi]; exact ⟨huni, hnull⟩)⟩
  rw [cell_fieldInsensitive, hfi, if_neg (by simp [huni, hnull])]
  unfold Builder.ctxOf
  rw [hglobal]
  rfl

section
variable (hcol : P.Collapses fi) (hrun : P.Runnable) (hP : (P.fieldInsensitive fi).Canonical)
include hcol hrun hP

theorem EventCons.collapse_copy {e : Event Ctx Fun Val} {x y : Cell Ctx Fun Val}
    (hcall : ∀ C I G, e = .call C I G → ∃ F, I ∈ P.insts F) (h : EventCons P T L init e .copy x y) :
    EventCons (P.fieldInsensitive fi) T L init' e .copy (x.collapse P T fi) (y.collapse P T fi) ∧
      y.Regular P fi := by
  cases h with
  | program h => cases h
  | @body C F I _ _ _ hI h =>
    have hmem := List.mem_append_left (P.args F) hI
    cases h with
    | @phi incoming V hinst hptr hV =>
      rw [hcol.cell, hcol.cell]
      exact ⟨.body hI (.phi hinst hptr hV), (hcol.computed hrun C hmem (hP.phi I incoming hinst)).2⟩
    | @select t f V hinst hptr hV =>
      rw [hcol.cell, hcol.cell]
      exact ⟨.body hI (.select hinst hptr hV), (hcol.computed hrun C hmem (hP.select I t f hinst)).2⟩
    | ret hinst hptr =>
      rw [hcol.cell]
      exact ⟨.body hI (.ret hinst hptr), trivial⟩
  | @call C I G _ _ _ h =>
    cases h with
    | @thread cs arg operand hheap hcs hthread hargs hop =>
      have hformal : arg ∈ P.args G := by
        rw [hargs]
        exact List.mem_singleton_self arg
      rw [hcol.cell, hcol.cell]
      exact ⟨.call (.thread hheap hcs hthread hargs hop), (hcol.computed hrun _
        (List.mem_append_right (P.insts G) hformal) (hP.argument G arg hformal).1).2⟩
    | @arg cs p hheap hcs hthread hnames hbody hp =>
      have hformal : p.2 ∈ P.args G :=
        (List.of_mem_zip (a := p.1) (b := p.2) (List.mem_of_mem_filter hp)).2
      rw [hcol.cell, hcol.cell]
      exact ⟨.call (.arg hheap hcs hthread hnames hbody hp), (hcol.computed hrun _
        (List.mem_append_right (P.insts G) hformal) (hP.argument G p.2 hformal).1).2⟩
    | @ret cs hheap hcs hthread hnames hbody hreturned htype =>
      obtain ⟨F, hI⟩ := hcall C I G rfl
      have hfi : fi I = I := hP.call I cs hcs hreturned
        fun F hF => CallInst.not_intrinsic (P := P) hnames hbody hF
      rw [hcol.cell]
      exact ⟨.call (.ret hheap hcs hthread hnames hbody hreturned htype),
        (hcol.computed hrun C (List.mem_append_left _ hI) hfi).2⟩

theorem EventCons.collapse_load {e : Event Ctx Fun Val} {x y : Cell Ctx Fun Val}
    (h : EventCons P T L init e .load x y) :
    EventCons (P.fieldInsensitive fi) T L init' e .load (x.collapse P T fi) (y.collapse P T fi) ∧
      y.Regular P fi := by
  cases h with
  | program h => cases h
  | @body C F I _ _ _ hI h =>
    cases h with
    | @load ptr hinst hptr =>
      rw [hcol.cell, hcol.cell]
      exact ⟨.body hI (.load hinst hptr),
        (hcol.computed hrun C (List.mem_append_left _ hI) (hP.load I ptr hinst)).2⟩
  | call h => cases h

omit hrun hP in
/-- a store through one of the constants is left out, but there is nothing in its cell -/
theorem EventCons.collapse_store {e : Event Ctx Fun Val} {x y : Cell Ctx Fun Val}
    (hy : y.Regular P fi) (h : EventCons P T L init e .store x y) :
    EventCons (P.fieldInsensitive fi) T L init' e .store (x.collapse P T fi) (y.collapse P T fi) := by
  cases h with
  | program h => cases h
  | @body C F I _ _ _ hI h =>
    cases h with
    | @store value ptr hinst hptr huni hnull =>
      obtain ⟨huni, hnull⟩ := (hcol.regular_cell C ptr).mp hy
      rw [hcol.cell, hcol.cell]
      exact .body hI (.store hinst hptr huni hnull)
  | call h => cases h

omit hrun hP in
/-- a `getelementptr` and its base have one cell -/
theorem EventCons.collapse_offset {e : Event Ctx Fun Val} {x y : Cell Ctx Fun Val}
    (h : EventCons P T L init e .offset x y) :
    x.collapse P T fi = y.collapse P T fi ∧ (x.Regular P fi → y.Regular P fi) := by
  cases h with
  | program h => cases h
  | @body C F I _ _ _ hI h =>
    cases h with
    | @gep base hinst hne =>
      have hfi : fi (P.canonicalize base) = fi (P.canonicalize I) := by
        rw [hcol.canonicalize, hcol.canonicalize]
        exact hcol.gep I base hinst
      rw [hcol.cell, hcol.cell, hcol.regular_cell, hcol.regular_cell, hfi]
      exact ⟨cell_congr C hfi, id⟩
  | call h => cases h

end

variable [DecidableEq Ty] {Mem Mem' : MemModel (FSObject Ctx Val) (Pointer Ctx Val)} {main : Fun}

/-- the facts of the one analysis that go to facts of the other one -/
def Collapsed (P : Program Fun Val Ty) (T : CtxDomain Ctx Val) (fi : Val → Val)
    (S : Inclusion.Dynamic (Cell Ctx Fun Val) (FSObject Ctx Val) (Event Ctx Fun Val)) :
    Inclusion.Fact (Cell Ctx Fun Val) (FSObject Ctx Val) (Event Ctx Fun Val) → Prop :=
  Inclusion.Dynamic.Within (fun e => S.Derives (.event e))
    fun x o => S.Derives (.found (x.collapse P T fi) o.collapse) ∧ x.Regular P fi

/-- what the constraint does to the facts -/
theorem Collapsed.addrOf (hcol : P.Collapses fi) (hrun : P.Runnable)
    (hinit : ∀ o o', init o o' → init' o.collapse o'.collapse)
    {e : Event Ctx Fun Val} {o : FSObject Ctx Val} {x : Cell Ctx Fun Val}
    (he : (analysis (P.fieldInsensitive fi) T L Mem' main init').Derives (.event e))
    (hheap : ∀ C I G, e = .call C I G → L.isHeapAllocFun G = true →
      (∃ F, I ∈ P.insts F) ∧ fi I = I)
    (h : EventCons P T L init e .addrOf (.obj o) x) :
    Collapsed P T fi (analysis (P.fieldInsensitive fi) T L Mem' main init') (.found x o) := by
  cases h with
  | program h =>
    cases h with
    | @addr V hV =>
      obtain ⟨hfi, hglobal, huni, hnull⟩ := hcol.symbol V hV
      have hcell : (cell (P.fieldInsensitive fi) T T.getGlobalCtx V : Cell Ctx Fun Val) =
          .ptr T.getGlobalCtx V := by
        rw [cell_fieldInsensitive, hfi, if_neg (by simp [huni, hnull])]
        unfold Builder.ctxOf
        rw [if_pos hglobal]
      have hregular : fi V ≠ P.uniValue ∧ fi V ≠ P.nullValue := by
        rw [hfi]
        exact ⟨huni, hnull⟩
      refine ⟨?_, hregular⟩
      show (analysis (P.fieldInsensitive fi) T L Mem' main init').Derives
        (.found (cell (P.fieldInsensitive fi) T T.getGlobalCtx V) ⟨T.getGlobalCtx, V, 0⟩)
      rw [hcell]
      exact .base he (.program (.addr hV))
    | init h => exact ⟨.base he (.program (.init (hinit _ _ h))), trivial⟩
  | @body C F I _ _ _ hI h =>
    cases h with
    | alloca hinst =>
      obtain ⟨hcell, -⟩ := hcol.computed (T := T) hrun C (List.mem_append_left _ hI) (hcol.alloca I hinst)
      obtain ⟨-, huni, hnull⟩ := hrun.computed F I (List.mem_append_left _ hI)
      have hregular : fi I ≠ P.uniValue ∧ fi I ≠ P.nullValue := by
        rw [hcol.alloca I hinst]
        exact ⟨huni, hnull⟩
      refine ⟨?_, hregular⟩
      show (analysis (P.fieldInsensitive fi) T L Mem' main init').Derives
        (.found (cell (P.fieldInsensitive fi) T C I) ⟨C, I, 0⟩)
      rw [hcell]
      exact .base he (.body hI (.alloca hinst))
  | @call C I G _ _ _ h =>
    cases h with
    | heap hG =>
      obtain ⟨⟨F, hI⟩, hfi⟩ := hheap C I G rfl hG
      obtain ⟨-, hregular⟩ := hcol.computed (T := T) hrun C (List.mem_append_left _ hI) hfi
      refine ⟨?_, hregular⟩
      rw [hcol.cell]
      exact .base he (.call (.heap hG))

/-- What the field-sensitive rules derive, the field-insensitive ones derive without fields. -/
theorem collapsed (hcol : P.Collapses fi) (hrun : P.Runnable) (hP : (P.fieldInsensitive fi).Canonical)
    (hM : KeepsBlock Mem) (hinit : ∀ o o', init o o' → init' o.collapse o'.collapse)
    (hheap : ∀ C I G, (analysis P T L Mem main init).Derives (.event (.call C I G)) →
      L.isHeapAllocFun G = true → fi I = I)
    {fact : Inclusion.Fact (Cell Ctx Fun Val) (FSObject Ctx Val) (Event Ctx Fun Val)}
    (h : (analysis P T L Mem main init).Derives fact) :
    Collapsed P T fi (analysis (P.fieldInsensitive fi) T L Mem' main init') fact := by
  induction h with
  | start hs => exact .start hs
  | next _ hn ih => exact .next ih hn
  | trigger _ _ ht ihe ihx =>
    obtain ⟨C, F, I, G, rfl, rfl, funPtr, V, fn, hI, hpending, hV, rfl, hcall⟩ := ht
    have hx := ihx.1
    rw [hcol.cell] at hx
    obtain ⟨hfun, hcompat, hredirects⟩ := hcall
    rw [← compatible_fieldInsensitive] at hcompat
    exact .trigger ihe hx ⟨C, F, I, G, rfl, rfl, funPtr, V, fn, hI, hpending.fieldInsensitive, hV, rfl,
      hfun, hcompat, hredirects⟩
  | base he hc ih =>
    refine Collapsed.addrOf hcol hrun hinit ih (fun C I G heq hG => ?_) hc
    subst heq
    exact ⟨call_mem he, hheap C I G he hG⟩
  | copy he hc _ ihe ihx =>
    obtain ⟨hcopy, hregular⟩ := hc.collapse_copy hcol hrun hP (fun C I G heq => call_mem (heq ▸ he))
    exact ⟨.copy ihe hcopy ihx.1, hregular⟩
  | load _ hc _ _ ihe ihp iho =>
    obtain ⟨hload, hregular⟩ := hc.collapse_load hcol hrun hP
    exact ⟨.load ihe hload ihp.1 iho.1, hregular⟩
  | store _ hc _ _ ihe ihp iho =>
    exact ⟨.store ihe (hc.collapse_store hcol ihp.2) ihp.1 iho.1, trivial⟩
  | @offset e x y o field _ hc _ hf _ ih =>
    obtain ⟨hcell, hregular⟩ := hc.collapse_offset hcol
    have hobj : field.collapse = o.collapse := by
      cases y with
      | ptr C V =>
        obtain ⟨hctx, hvalue⟩ := hM o ⟨C, V⟩ field hf
        show (⟨field.context, field.value, 0⟩ : FSObject Ctx Val) = ⟨o.context, o.value, 0⟩
        rw [hctx, hvalue]
      | ret C F => cases hf
      | obj o => cases hf
    refine ⟨?_, hregular ih.2⟩
    rw [hobj, ← hcell]
    exact ih.1

end

/-! ## results -/

section
variable [DecidableEq Ctx] [DecidableEq Fun] [DecidableEq Val] [DecidableEq Ty]
variable {P : Program Fun Val Ty} {fi : Val → Val} {hlay : P.Layout}
  {hlay' : (P.fieldInsensitive fi).Layout} {T : CtxDomain Ctx Val} {L : LangModel Fun Val Ty}
  {w w' : Walk} {MaxIndirectTarget MaxIndirectTarget' : Nat}
  {Mem : MemModel (FSObject Ctx Val) (Pointer Ctx Val)} {main : Fun}
  {b₀ b b₀' b' : Builder Ctx Fun Val} {r r' : Solving Ctx Fun Val}

theorem Finished.collapsed (hcol : P.Collapses fi) (hrun : P.Runnable) (hP : P.Canonical)
    (hP' : (P.fieldInsensitive fi).Canonical) (hM : KeepsBlock Mem)
    (h : Finished P hlay T L w MaxIndirectTarget Mem main b₀ r b)
    (hinit : ∀ o o', b₀.Stores o o' → b₀'.Stores o.collapse o'.collapse)
    (hheap : ∀ C I G, r.disc.module.Happens (.call C I G) → L.isHeapAllocFun G = true → fi I = I)
    {x : Inclusion.Fact (Cell Ctx Fun Val) (FSObject Ctx Val) (Event Ctx Fun Val)}
    (hx : (analysis P T L Mem main b₀.Stores).Derives x) :
    Collapsed P T fi (analysis (P.fieldInsensitive fi) T L (FIMemModel Ctx Val) main b₀'.Stores) x := by
  have hmodel := h.complete hP hM
  exact AserPTA.collapsed hcol hrun hP' hM hinit (fun C I G hd => hheap C I G (hd.le hmodel)) hx

/-- What the field-sensitive analysis finds, the field-insensitive one finds without fields. -/
theorem Finished.withoutFields (hcol : P.Collapses fi) (hrun : P.Runnable) (hP : P.Canonical)
    (hP' : (P.fieldInsensitive fi).Canonical) (hM : KeepsBlock Mem)
    (hthread : ∀ v G, L.threadFun v = some G → L.isHeapAllocFun G = false)
    (h : Finished P hlay T L w MaxIndirectTarget Mem main b₀ r b)
    (h' : Finished (P.fieldInsensitive fi) hlay' T L w' MaxIndirectTarget' (FIMemModel Ctx Val) main b₀'
      r' b')
    (hinit : ∀ o o', b₀.Stores o o' → b₀'.Stores o.collapse o'.collapse)
    (hheap : ∀ C I G, r.disc.module.Happens (.call C I G) → L.isHeapAllocFun G = true → fi I = I) :
    (∀ ev, r.disc.module.Happens ev → r'.disc.module.Happens ev) ∧
      ∀ x o, b.Holds x o → b'.Holds (x.collapse P T fi) o.collapse := by
  obtain ⟨hev, hfound⟩ := h.sound hP hM hthread
  have hmodel' := h'.complete hP' FIMemModel_keepsBlock
  have hmap {x} (hx : (analysis P T L Mem main b₀.Stores).Derives x) :
      Collapsed P T fi (analysis (P.fieldInsensitive fi) T L (FIMemModel Ctx Val) main b₀'.Stores) x :=
    h.collapsed hcol hrun hP hP' hM hinit hheap hx
  exact ⟨fun ev h => (hmap (hev ev h)).le hmodel', fun x o h => (hmap (hfound x o h)).1.le hmodel'⟩

namespace SolverBase

/-- Pointers that may alias with fields may alias without. -/
theorem aliasIfExsit_collapse (hcol : P.Collapses fi) (hrun : P.Runnable) (hP : P.Canonical)
    (hP' : (P.fieldInsensitive fi).Canonical) (hM : KeepsBlock Mem)
    (hthread : ∀ v G, L.threadFun v = some G → L.isHeapAllocFun G = false)
    (h : Finished P hlay T L w MaxIndirectTarget Mem main b₀ r b)
    (h' : Finished (P.fieldInsensitive fi) hlay' T L w' MaxIndirectTarget' (FIMemModel Ctx Val) main b₀'
      r' b')
    (hinit : ∀ o o', b₀.Stores o o' → b₀'.Stores o.collapse o'.collapse)
    (hheap : ∀ C I G, r.disc.module.Happens (.call C I G) → L.isHeapAllocFun G = true → fi I = I)
    (hnull : NonNull P b₀.Stores) {C₁ C₂ : Ctx} {V₁ V₂ : Val}
    (halias : aliasIfExsit P T b C₁ V₁ C₂ V₂ = true) :
    aliasIfExsit (P.fieldInsensitive fi) T b' C₁ V₁ C₂ V₂ = true := by
  obtain ⟨-, hfound⟩ := h.sound hP hM hthread
  obtain ⟨o, -, ho₁, ho₂⟩ := ((answering hP hM h).alias_iff C₁ V₁ C₂ V₂).mp halias
  have hcell : ∀ C V, b.Holds (cell P T C V) o →
      b'.Holds (cell (P.fieldInsensitive fi) T C V) o.collapse := by
    intro C V ho
    rw [← hcol.cell]
    have hcollapsed := h.collapsed hcol hrun hP hP' hM hinit hheap (hfound _ _ ho)
    exact hcollapsed.1.le (h'.complete hP' FIMemModel_keepsBlock)
  refine ((answering hP' FIMemModel_keepsBlock h').alias_iff C₁ V₁ C₂ V₂).mpr
    ⟨o.collapse, fun heq => ?_, hcell C₁ V₁ ho₁, hcell C₂ V₂ ho₂⟩
  exact hnull.found hM (hfound _ _ ho₁) (congrArg FSObject.value heq)

end SolverBase

end

/-! ## a program with a field -/

namespace SolverBase

def fieldValues : PointerValues Nat where
  form V := if V = 11 then .gep 10 else if V = 1 then .null else if V = 2 then .undef else .other
  isPointer _ := true
  nullValue := 1
  uniValue := 2
  form_null := rfl
  form_uni := rfl
  isPointer_null := rfl
  isPointer_uni := rfl

/-- the base of the `getelementptr` (11) is the alloca (10) -/
def fieldBase (V : Nat) : Nat := if V = 11 then 10 else V

theorem fieldValues_stripStep (V : Nat) : fieldValues.stripStep V = if V = 11 then some 10 else none := by
  unfold PointerValues.stripStep fieldValues
  dsimp only
  split_ifs <;> rfl

/-- the constants are the ones of type `i8*` -/
theorem fieldValues_stripNullOrUnDef (V : Nat) : fieldValues.stripNullOrUnDef V = V := by
  by_cases h : fieldValues.Special V
  · unfold PointerValues.Special fieldValues at h
    dsimp only at h
    split_ifs at h
    · simp at h
    · subst V
      rfl
    · subst V
      rfl
    · simp at h
  · exact fieldValues.stripNullOrUnDef_of_not_special h

theorem fieldValues_canonicalize (V : Nat) :
    FICanonicalizer.canonicalize fieldValues 2 V = some (fieldBase V) := by
  by_cases h11 : V = 11
  · subst h11
    rfl
  · unfold FICanonicalizer.canonicalize PointerValues.stripPointerCastsAndOffsets Loop.chase fieldBase
    rw [fieldValues_stripStep, if_neg h11, if_neg h11]
    exact congrArg some (fieldValues_stripNullOrUnDef V)

theorem fieldProgram_instr (I : Nat) : (I = 10 ∧ fieldProgram.instr I = .alloca) ∨
    (I = 11 ∧ fieldProgram.instr I = .getElementPtr 10) ∨ fieldProgram.instr I = .other := by
  unfold fieldProgram
  dsimp only
  split_ifs <;> simp_all

theorem fieldProgram_collapses : fieldProgram.Collapses fieldBase := by
  have hsees : fieldProgram.Sees fieldValues := by
    refine ⟨rfl, rfl, fun I base hI => ?_, fun I hI => ?_, by decide,
      fun V hV => ⟨rfl, fun X hX => ?_⟩, fun I source dest cs hI => ?_⟩
    · have h11 : I = 11 := fieldProgram_isGEP I (by rw [hI]; rfl)
      subst h11
      cases hI
      exact ⟨rfl, rfl, rfl⟩
    · by_cases h10 : I = 10
      · subst h10
        rfl
      · unfold fieldProgram at hI
        dsimp only at hI
        rw [if_neg h10] at hI
        split at hI <;> cases hI
    · have h0 : V = 0 := of_decide_eq_true hV
      subst h0
      have hstop : fieldValues.stripStep 0 = none := rfl
      rw [Part.mem_unique hX (StateTransition.mem_eval.mpr ⟨.refl, hstop⟩)]
      exact .inl rfl
    · rcases fieldProgram_instr I with ⟨-, h⟩ | ⟨-, h⟩ | h <;> rw [h] at hI <;> cases hI
  have hend : ∀ V, ∃ X, X ∈ StateTransition.eval fieldValues.stripStep V := by
    intro V
    have h10 : fieldValues.stripStep 10 = none := rfl
    by_cases h11 : V = 11
    · subst h11
      exact ⟨10, StateTransition.mem_eval.mpr ⟨.single rfl, h10⟩⟩
    · refine ⟨V, StateTransition.mem_eval.mpr ⟨.refl, ?_⟩⟩
      rw [fieldValues_stripStep, if_neg h11]
  exact hsees.collapses hend (fun _ => .refl) (fun _ h => h)
    (fun V => (fieldValues_stripNullOrUnDef V).symm) fun V => ⟨2, fieldValues_canonicalize V⟩

/-- the program as `FICanonicalizer` shows it -/
def flatProgram : Program Unit Nat Unit := fieldProgram.fieldInsensitive fieldBase

theorem flatProgram_layout : flatProgram.Layout :=
  ⟨fieldProgram_layout.1, fieldProgram_layout.2⟩

theorem flatProgram_canonical : flatProgram.Canonical where
  gep I base hI hne := by
    replace hI : fieldProgram.instr I = .getElementPtr base := hI
    rcases fieldProgram_instr I with ⟨-, h⟩ | ⟨rfl, h⟩ | h <;> rw [h] at hI <;> cases hI
    exact absurd rfl hne
  load I ptr hI := by
    replace hI : fieldProgram.instr I = .load ptr := hI
    rcases fieldProgram_instr I with ⟨-, h⟩ | ⟨-, h⟩ | h <;> rw [h] at hI <;> cases hI
  phi I incoming hI := by
    replace hI : fieldProgram.instr I = .phi incoming := hI
    rcases fieldProgram_instr I with ⟨-, h⟩ | ⟨-, h⟩ | h <;> rw [h] at hI <;> cases hI
  select I t f hI := by
    replace hI : fieldProgram.instr I = .select t f := hI
    rcases fieldProgram_instr I with ⟨-, h⟩ | ⟨-, h⟩ | h <;> rw [h] at hI <;> cases hI
  call I cs hcs := by
    replace hcs : (fieldProgram.instr I).callInst = some cs := hcs
    rcases fieldProgram_instr I with ⟨-, h⟩ | ⟨-, h⟩ | h <;> rw [h] at hcs <;> cases hcs
  argument _ _ h := by cases h
  function _ := rfl
  gepLocal := fieldProgram_canonical.gepLocal

section
variable (P : Program Unit Nat Unit) (hlay : P.Layout)
  (Mem : MemModel (FSObject Unit Nat) (Pointer Unit Nat))

def fieldAnalyze (b₀ : Builder Unit Unit Nat) : Option (Solving Unit Unit Nat × Wave.Caches) :=
  analyze P hlay fieldCtx fieldLang 100 (.wavePropagation Mem .ascending) 40 () b₀

/-- nothing is stored in the globals, and the run is over after two rounds -/
def fieldCheck : Bool :=
  match (Builder.initial P fieldCtx).bind (Builder.addGlobals P fieldCtx) with
  | .error _ => false
  | .ok b₀ => b₀.storesNothing && checkRun P hlay fieldCtx fieldLang 100
    (.wavePropagation Mem .ascending) 40 (fun _ => true) 2 () b₀

variable {P hlay Mem}

theorem fieldFinished (hP : P.Canonical) (hM : KeepsBlock Mem)
    (hfun : ∀ o gep f, Mem.indexObject o gep = some f → P.asFunction f.value = none)
    (h : fieldCheck P hlay Mem = true) : ∃ b₀ r b, fieldAnalyze P hlay Mem b₀ = some r ∧
      (∀ o o', ¬ b₀.Stores o o') ∧
      Finished P hlay fieldCtx fieldLang .ascending 100 Mem () b₀ r.1 b := by
  unfold fieldCheck at h
  split at h
  · cases h
  · rename_i b₀ hb₀
    obtain ⟨b', hb', hglobals⟩ := Builder.bind_ok hb₀
    obtain ⟨hstores, hrun⟩ := Bool.and_eq_true_iff.mp h
    obtain ⟨r, b, hr, -, hfinished⟩ := checkRun_finished hP hM hfun (fun _ _ => trivial)
      (by decide : 2 ≤ 40) (.start hb' hglobals) hrun
    exact ⟨b₀, r, b, hr, Builder.not_stores hstores, hfinished⟩

end

theorem pairCheck : fieldCheck fieldProgram fieldProgram_layout pairMem = true := by
  decide +kernel

theorem pairMem_noFunction (o : FSObject Unit Nat) (gep : Pointer Unit Nat) (f : FSObject Unit Nat)
    (h : pairMem.indexObject o gep = some f) : fieldProgram.asFunction f.value = none := by
  refine fsMemModel_noFunction (fun C V hV => ?_) (fun V offset hoffset => ?_) o gep f h
  · by_cases h0 : V = 0
    · subst h0
      rfl
    · unfold fieldProgram at hV
      dsimp only at hV
      rw [if_neg h0] at hV
      cases hV
  · cases hoffset
    decide

theorem flatCheck : fieldCheck flatProgram flatProgram_layout (FIMemModel Unit Nat) = true := by
  decide +kernel

theorem fieldProgram_runnable : fieldProgram.Runnable where
  computed F V hV := by
    replace hV : V ∈ [10, 11] ++ [] := hV
    simp only [List.append_nil, List.mem_cons, List.not_mem_nil, or_false] at hV
    rcases hV with rfl | rfl <;> exact ⟨rfl, by decide, by decide⟩
  canonicalize _ := rfl

theorem fieldProgram_nonNull {init : FSObject Unit Nat → FSObject Unit Nat → Prop}
    (h : ∀ o o', ¬ init o o') : NonNull fieldProgram init where
  insts F I hI := (fieldProgram_runnable.computed F I (List.mem_append_left _ hI)).2.2
  symbols := by decide
  init o o' ho := absurd ho (h o o')

/-- the field of the alloca (10) is found at the `getelementptr` (11) -/
theorem fieldFound {init : FSObject Unit Nat → FSObject Unit Nat → Prop} :
    (analysis fieldProgram fieldCtx fieldLang pairMem () init).Derives
      (.found (.ptr () 11) ⟨(), 10, 8⟩) := by
  have hbody : (analysis fieldProgram fieldCtx fieldLang pairMem () init).Derives
      (.event (.body () ())) := .start (.inr rfl)
  have halloca : (analysis fieldProgram fieldCtx fieldLang pairMem () init).Derives
      (.found (.ptr () 10) ⟨(), 10, 0⟩) :=
    .base hbody (.body (by decide : 10 ∈ fieldProgram.insts ()) (.alloca rfl))
  have hgep : EventCons fieldProgram fieldCtx fieldLang init (.body () ()) .offset
      (.ptr () 10) (.ptr () 11) :=
    .body (by decide : 11 ∈ fieldProgram.insts ())
      (.gep rfl (by decide : fieldProgram.canonicalize 10 ≠ fieldProgram.canonicalize 11))
  exact .offset hbody hgep halloca (pairMem_indexObject ⟨(), 11⟩)

/-- the run with the field and the run without -/
theorem fieldBoth : ∃ (b₀ b b₀' b' : Builder Unit Unit Nat)
    (r r' : Solving Unit Unit Nat × Wave.Caches),
    fieldAnalyze fieldProgram fieldProgram_layout pairMem b₀ = some r ∧
    fieldAnalyze flatProgram flatProgram_layout (FIMemModel Unit Nat) b₀' = some r' ∧
    (∀ o o', ¬ b₀.Stores o o') ∧
    Finished fieldProgram fieldProgram_layout fieldCtx fieldLang .ascending 100 pairMem () b₀ r.1 b ∧
    Finished flatProgram flatProgram_layout fieldCtx fieldLang .ascending 100 (FIMemModel Unit Nat) ()
      b₀' r'.1 b' := by
  obtain ⟨b₀, r, b, hr, hno, h⟩ := fieldFinished fieldProgram_canonical fsMemModel_keepsBlock
    pairMem_noFunction pairCheck
  obtain ⟨b₀', r', b', hr', -, h'⟩ := fieldFinished flatProgram_canonical
    (fun _ _ _ hf => by cases hf) (fun _ _ _ hf => by cases hf) flatCheck
  exact ⟨b₀, b, b₀', b', r, r', hr, hr', hno, h, h'⟩

/-- the field is the alloca -/
theorem collapse_field : ∃ (b₀ b b₀' b' : Builder Unit Unit Nat)
    (r r' : Solving Unit Unit Nat × Wave.Caches),
    fieldAnalyze fieldProgram fieldProgram_layout pairMem b₀ = some r ∧
    fieldAnalyze flatProgram flatProgram_layout (FIMemModel Unit Nat) b₀' = some r' ∧
    b.Holds (.ptr () 11) ⟨(), 10, 8⟩ ∧ b'.Holds (.ptr () 10) ⟨(), 10, 0⟩ := by
  obtain ⟨b₀, b, b₀', b', r, r', hr, hr', hno, h, h'⟩ := fieldBoth
  have hthread : ∀ v G, fieldLang.threadFun v = some G → fieldLang.isHeapAllocFun G = false :=
    fun _ _ h => by cases h
  obtain ⟨-, hexact⟩ := h.least_model fieldProgram_canonical fsMemModel_keepsBlock hthread
  have hheld : b.Holds (.ptr () 11) ⟨(), 10, 8⟩ := (hexact _ _).mpr fieldFound
  obtain ⟨-, hfound⟩ := Finished.withoutFields fieldProgram_collapses fieldProgram_runnable
    fieldProgram_canonical flatProgram_canonical fsMemModel_keepsBlock hthread h h'
    (fun o o' ho => absurd ho (hno o o')) fun _ _ _ _ hG => by cases hG
  exact ⟨b₀, b, b₀', b', r, r', hr, hr', hheld, hfound _ _ hheld⟩

theorem aliasIfExsit_collapse_field : ∃ (b₀ b b₀' b' : Builder Unit Unit Nat)
    (r r' : Solving Unit Unit Nat × Wave.Caches),
    fieldAnalyze fieldProgram fieldProgram_layout pairMem b₀ = some r ∧
    fieldAnalyze flatProgram flatProgram_layout (FIMemModel Unit Nat) b₀' = some r' ∧
    aliasIfExsit fieldProgram fieldCtx b () 11 () 11 = true ∧
    aliasIfExsit flatProgram fieldCtx b' () 11 () 11 = true := by
  obtain ⟨b₀, b, b₀', b', r, r', hr, hr', hno, h, h'⟩ := fieldBoth
  have hthread : ∀ v G, fieldLang.threadFun v = some G → fieldLang.isHeapAllocFun G = false :=
    fun _ _ h => by cases h
  have hmodel := h.complete fieldProgram_canonical fsMemModel_keepsBlock
  have halias : aliasIfExsit fieldProgram fieldCtx b () 11 () 11 = true :=
    ((answering fieldProgram_canonical fsMemModel_keepsBlock h).alias_iff _ _ _ _).mpr
      ⟨⟨(), 10, 8⟩, by decide, fieldFound.le hmodel, fieldFound.le hmodel⟩
  exact ⟨b₀, b, b₀', b', r, r', hr, hr', halias, aliasIfExsit_collapse fieldProgram_collapses
    fieldProgram_runnable fieldProgram_canonical flatProgram_canonical fsMemModel_keepsBlock hthread h h'
    (fun o o' ho => absurd ho (hno o o')) (fun _ _ _ _ hG => by cases hG) (fieldProgram_nonNull hno)
    halias⟩

end SolverBase

end AserPTA
