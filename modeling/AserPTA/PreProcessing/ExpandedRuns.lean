import AserPTA.PreProcessing.ExpandNestedGEP

/-!
# Runs of an expanded function

A run is watched block by block: which instructions are executed and what their operands evaluate to.
Everything that the pass does not look into (memory, calls, what an operator computes) is a parameter.
A phi node uses its operand on the way into the block, with the registers as they are at the end of
the block that control comes from, wherever in its block it stands.

* `Semantics`        the parameters;
* `execBlock`, `edgeRegs`  the two parts of a step; `trace` is what a run of the function shows;
* `FirstEntryOk`     no block of the run is entered for the first time along an edge for which one of
                     its phi nodes has a constant expression;
* `Sim`              the registers that both functions have agree, and a new register has the value
                     of the constant expression once its block has been entered;
* `expandNestedGEP_values`  the pass returns, no constant expression is left, and the operands keep
                     their values in a run exactly if `FirstEntryOk` holds of it.
-/

namespace AserPTA.ExpandNestedGEP

variable {X C A O : Type}

/-- what values there are, what the operators do and what executing another instruction does -/
structure Semantics (X C A O Val W : Type) where
  leaf : C → Val
  arg : A → Val
  fold : X → List Val → Val
  -- the result, what the world is then, and which successor follows; none if the run ends
  exec : O → List (Option Val) → W → Option (Option Val × W × Option Nat)

/-- an instruction that is executed, with its operands; an undefined operand is `none` -/
structure Event (Val : Type) where
  id : Nat
  operands : List (Option Val)
  deriving DecidableEq

/-- `none` is a register that has not been defined -/
abbrev Regs (Val : Type) := Nat → Option Val

/-- a point in the execution of a block; `next` is the block that follows -/
structure Point (Val W : Type) where
  regs : Regs Val
  world : W
  next : Option Nat

/-- control enters `block` from `pred` -/
structure Config (Val W : Type) where
  regs : Regs Val
  world : W
  pred : Option Nat
  block : Nat

variable {Val W : Type}

def Regs.assign (r : Regs Val) (id : Nat) (v : Option Val) : Regs Val :=
  fun j => if j = id then v else r j

theorem Regs.assign_self (r : Regs Val) (id : Nat) (v : Option Val) : r.assign id v id = v :=
  if_pos rfl

theorem Regs.assign_ne {r : Regs Val} {id j : Nat} (h : j ≠ id) (v : Option Val) :
    r.assign id v j = r j :=
  if_neg h

/-- the operand that a phi node has for the way from `p` -/
def Inst.incomingOperand (I : Inst X C A O) (p : Option Nat) : Option (Value X C A) :=
  match I.kind with
  | .phi incoming => p.bind fun p => (incoming.zip I.operands).lookup p
  | _ => none

namespace Semantics

variable (S : Semantics X C A O Val W)

mutual

def constant : Constant X C → Val
  | .expr o cs => S.fold o (constants cs)
  | .other c => S.leaf c

def constants : List (Constant X C) → List Val
  | [] => []
  | c :: cs => constant c :: constants cs

end

def value (r : Regs Val) : Value X C A → Option Val
  | .const c => some (S.constant c)
  | .inst j => r j
  | .other a => some (S.arg a)

def event (r : Regs Val) (I : Inst X C A O) : Event Val := ⟨I.id, I.operands.map (S.value r)⟩

/-- a phi node has been executed on the way into the block -/
def execInst (I : Inst X C A O) (t : Point Val W) : Option (Point Val W) :=
  match I.kind with
  | .phi _ => some t
  | .expr o => some { t with
      regs := t.regs.assign I.id ((I.operands.mapM (S.value t.regs)).map (S.fold o)) }
  | .other o successors =>
    (S.exec o (I.operands.map (S.value t.regs)) t.world).map fun r =>
      ⟨t.regs.assign I.id r.1, r.2.1, r.2.2.bind fun k => successors[k]?⟩

/-- the instructions of a block up to where the run ends -/
def execBlock : List (Inst X C A O) → Point Val W → List (Event Val) × Option (Point Val W)
  | [], t => ([], some t)
  | I :: B, t =>
    let e := if I.isPhi then [] else [S.event t.regs I]
    match S.execInst I t with
    | none => (e, none)
    | some t' => (e ++ (execBlock B t').1, (execBlock B t').2)

/-- what the phi nodes of a block use on the way from `p` -/
def edgeEvents (p : Option Nat) (r : Regs Val) : List (Inst X C A O) → List (Event Val)
  | [] => []
  | I :: B =>
    if I.isPhi then ⟨I.id, ((I.incomingOperand p).map (S.value r)).toList⟩ :: edgeEvents p r B
    else edgeEvents p r B

/-- the phi nodes are evaluated with the registers `r`, all at once -/
def edgeRegs (p : Option Nat) (r : Regs Val) : List (Inst X C A O) → Regs Val → Regs Val
  | [], t => t
  | I :: B, t =>
    edgeRegs p r B (if I.isPhi then t.assign I.id ((I.incomingOperand p).bind (S.value r)) else t)

/-- one block, and where control goes from there -/
def enter (F : Function X C A O) (c : Config Val W) : List (Event Val) × Option (Config Val W) :=
  match F.blocks[c.block]? with
  | none => ([], none)
  | some B =>
    let r := S.execBlock B ⟨S.edgeRegs c.pred c.regs B c.regs, c.world, none⟩
    (S.edgeEvents c.pred c.regs B ++ r.1,
      r.2.bind fun t => t.next.map fun b => ⟨t.regs, t.world, some c.block, b⟩)

/-- what the first blocks of a run show -/
def trace (F : Function X C A O) : Nat → Config Val W → List (List (Event Val))
  | 0, _ => []
  | n + 1, c => (S.enter F c).1 :: ((S.enter F c).2.map (trace F n)).getD []

/-- the run starts -/
def start (w : W) : Config Val W := ⟨fun _ => none, w, none, 0⟩

/-- a block is entered again, or along an edge for which no phi node of it has a constant expression -/
def EntryOk (F : Function X C A O) (seen : List Nat) (c : Config Val W) : Prop :=
  c.block ∈ seen ∨ ∀ B, F.blocks[c.block]? = some B → ∀ I ∈ B, ∀ v ∈ I.incomingOperand c.pred,
    v.isConstantExpr = false

/-- so it is for each of the first blocks of a run, where those in `seen` have been entered before -/
def FirstEntryOk (F : Function X C A O) : Nat → List Nat → Config Val W → Prop
  | 0, _, _ => True
  | n + 1, seen, c =>
    EntryOk F seen c ∧ ∀ c' ∈ (S.enter F c).2, FirstEntryOk F n (c.block :: seen) c'

end Semantics

namespace Semantics

variable {S : Semantics X C A O Val W}

theorem mapM_constants (r : Regs Val) (cs : List (Constant X C)) :
    (cs.map Value.const).mapM (S.value (A := A) r) = some (S.constants cs) := by
  induction cs with
  | nil => rfl
  | cons c cs ih =>
    rw [List.map_cons, List.mapM_cons, ih, constants]
    rfl

/-- a register has the value of the constant expression that its instruction was created for -/
def Holds (S : Semantics X C A O Val W) (r : Regs Val) (J : Inst X C A O) : Prop :=
  ∀ o cs, J = getAsInstruction J.id o cs → r J.id = some (S.constant (.expr o cs))

theorem execInst_getAsInstruction (j : Nat) (o : X) (cs : List (Constant X C)) (t : Point Val W) :
    S.execInst (getAsInstruction j o cs) t =
      some { t with regs := t.regs.assign j (some (S.constant (.expr o cs))) } := by
  rw [execInst]
  simp only [getAsInstruction, mapM_constants, constant, Option.map_some]

theorem execBlock_cons {I : Inst X C A O} {t t' : Point Val W} (h : S.execInst I t = some t')
    (B : List (Inst X C A O)) : S.execBlock (I :: B) t =
      ((if I.isPhi then [] else [S.event t.regs I]) ++ (S.execBlock B t').1, (S.execBlock B t').2) := by
  rw [execBlock, h]

theorem execBlock_cons_none {I : Inst X C A O} {t : Point Val W} (h : S.execInst I t = none)
    (B : List (Inst X C A O)) : S.execBlock (I :: B) t =
      (if I.isPhi then [] else [S.event t.regs I], none) := by
  rw [execBlock, h]

end Semantics

theorem Created.tail {I J : Inst X C A O} {n : Nat} {E : List (Inst X C A O)}
    (h : Created I n (J :: E)) : J.id = n ∧ Created I (n + 1) E := by
  have hids := h.ids
  rw [List.map_cons, List.length_cons, List.range'_succ, List.cons.injEq] at hids
  exact ⟨hids.1, hids.2, fun K hK => h.exprs K (List.mem_cons_of_mem _ hK)⟩

open Semantics

/-- the new instructions in front of a user define their registers and do nothing else -/
theorem Created.execBlock {S : Semantics X C A O Val W} {I : Inst X C A O} {n : Nat}
    {E : List (Inst X C A O)} (h : Created I n E) (B : List (Inst X C A O)) (t : Point Val W) :
    ∃ es r, S.execBlock (E ++ B) t =
        (es ++ (S.execBlock B { t with regs := r }).1, (S.execBlock B { t with regs := r }).2) ∧
      (∀ e ∈ es, n ≤ e.id) ∧ (∀ J ∈ E, S.Holds r J) ∧
      (∀ j, j < n ∨ n + E.length ≤ j → r j = t.regs j) := by
  induction E generalizing n t with
  | nil =>
    exact ⟨[], t.regs, rfl, fun _ h => absurd h List.not_mem_nil,
      fun _ h => absurd h List.not_mem_nil, fun _ _ => rfl⟩
  | cons J E ih =>
    obtain ⟨hid, htail⟩ := h.tail
    obtain ⟨o, cs, _, hJ⟩ := h.exprs J List.mem_cons_self
    have hexec : S.execInst J t =
        some { t with regs := t.regs.assign J.id (some (S.constant (.expr o cs))) } := by
      rw [hJ]
      exact execInst_getAsInstruction _ o cs t
    obtain ⟨es, r, hrun, hes, hholds, hother⟩ :=
      ih htail { t with regs := t.regs.assign J.id (some (S.constant (.expr o cs))) }
    replace hother : ∀ j, j < n + 1 ∨ n + 1 + E.length ≤ j →
        r j = t.regs.assign J.id (some (S.constant (.expr o cs))) j := hother
    refine ⟨S.event t.regs J :: es, r, ?_, ?_, ?_, ?_⟩
    · rw [List.cons_append, execBlock_cons hexec, hrun, h.not_isPhi List.mem_cons_self]
      rfl
    · intro e he
      rcases List.mem_cons.mp he with rfl | he
      · exact hid.ge
      · have := hes e he
        omega
    · intro K hK
      rcases List.mem_cons.mp hK with rfl | hK
      · intro o' cs' hK'
        have heq : getAsInstruction (A := A) (O := O) K.id o cs = getAsInstruction K.id o' cs' :=
          hJ.symm.trans hK'
        rw [hother K.id (.inl (by omega)), Regs.assign_self]
        simp only [getAsInstruction, Inst.mk.injEq, Kind.expr.injEq, true_and] at heq
        obtain ⟨rfl, hcs⟩ := heq
        rw [List.map_inj_right fun _ _ h => Value.const.inj h] at hcs
        rw [hcs]
      · exact hholds K hK
    · intro j hj
      rw [List.length_cons] at hj
      rw [hother j (by omega), Regs.assign_ne (by omega)]

/-! ## one block -/

theorem rel_some {α β : Type} {R : α → β → Prop} {a : α} {y : Option β}
    (h : Option.Rel R (some a) y) : ∃ b, y = some b ∧ R a b := by
  cases h with
  | some h => exact ⟨_, rfl, h⟩

theorem rel_none {α β : Type} {R : α → β → Prop} {y : Option β} (h : Option.Rel R none y) :
    y = none := by
  cases h with
  | none => rfl

/-- `E` is in front of a user of the block, so its registers are defined; `r'` agrees with `r` on the
old registers -/
theorem Replaced.value {S : Semantics X C A O Val W} {E : List (Inst X C A O)} {n : Nat}
    {op op' : Value X C A} {r r' : Regs Val} (h : Replaced E op op')
    (hop : ∀ j, op = .inst j → j < n) (hr : ∀ j, j < n → r' j = r j) (hE : ∀ J ∈ E, S.Holds r' J) :
    S.value r' op' = S.value r op := by
  cases h with
  | kept _ =>
    cases op with
    | const c => rfl
    | inst j => exact hr j (hop j rfl)
    | other a => rfl
  | expanded hJ => exact hE _ hJ _ _ rfl

theorem Expands.values {S : Semantics X C A O Val W} {E : List (Inst X C A O)} {n k : Nat}
    {I I' : Inst X C A O} {r r' : Regs Val} (h : Expands k I E I')
    (hI : ∀ j, .inst j ∈ I.operands → j < n) (hr : ∀ j, j < n → r' j = r j)
    (hE : ∀ J ∈ E, S.Holds r' J) :
    I'.operands.map (S.value r') = I.operands.map (S.value r) := by
  have hl := h.operands.length_eq
  refine List.ext_get (by simpa using hl.symm) fun i hi hi' => ?_
  rw [List.length_map] at hi hi'
  have hrep := (List.forall₂_iff_get.mp h.operands).2 i hi' hi
  rw [List.get_eq_getElem, List.get_eq_getElem] at hrep
  rw [List.get_eq_getElem, List.get_eq_getElem, List.getElem_map, List.getElem_map]
  exact hrep.value (fun j hj => hI j (hj ▸ List.getElem_mem hi')) hr hE

/-- two points with the same old registers -/
structure Agree (n : Nat) (t t' : Point Val W) : Prop where
  world : t'.world = t.world
  next : t'.next = t.next
  regs : ∀ j, j < n → t'.regs j = t.regs j

theorem Regs.assign_agree {n : Nat} {r r' : Regs Val} (h : ∀ j, j < n → r' j = r j) (id : Nat)
    (v : Option Val) (j : Nat) (hj : j < n) : r'.assign id v j = r.assign id v j := by
  by_cases hid : j = id
  · rw [hid, Regs.assign_self, Regs.assign_self]
  · rw [Regs.assign_ne hid, Regs.assign_ne hid, h j hj]

/-- instructions that differ in what their operands are called do the same -/
theorem Agree.execInst {S : Semantics X C A O Val W} {n : Nat} {t t' : Point Val W}
    (h : Agree n t t') {I I' : Inst X C A O} (hid : I'.id = I.id) (hkind : I'.kind = I.kind)
    (hlt : I.id < n) (hvals : I'.operands.map (S.value t'.regs) = I.operands.map (S.value t.regs)) :
    Option.Rel (fun u u' => Agree n u u' ∧ ∀ j, n ≤ j → u'.regs j = t'.regs j)
      (S.execInst I t) (S.execInst I' t') := by
  have hmapM : I'.operands.mapM (S.value t'.regs) = I.operands.mapM (S.value t.regs) := by
    have hid : ∀ (r : Regs Val) (l : List (Value X C A)), l.mapM (S.value r) =
        (l.map (S.value r)).mapM id := fun r l => by rw [List.mapM_map]; rfl
    rw [hid, hid, hvals]
  have hassign : ∀ (v : Option Val) (j : Nat), n ≤ j → t'.regs.assign I.id v j = t'.regs j :=
    fun v j hj => Regs.assign_ne (by omega) v
  rw [Semantics.execInst, Semantics.execInst, hid, hkind, hvals, hmapM, h.world]
  cases I.kind with
  | phi incoming => exact .some ⟨h, fun _ _ => rfl⟩
  | expr o => exact .some ⟨⟨rfl, h.next, Regs.assign_agree h.regs _ _⟩, hassign _⟩
  | other o successors =>
    simp only
    cases S.exec o (I.operands.map (S.value t.regs)) t.world with
    | none => exact .none
    | some r => exact .some ⟨⟨rfl, rfl, Regs.assign_agree h.regs _ _⟩, hassign _⟩

/-- the events of the instructions with smaller numbers -/
def oldEvents (n : Nat) (es : List (Event Val)) : List (Event Val) := es.filter fun e => e.id < n

theorem oldEvents_append (n : Nat) (es fs : List (Event Val)) :
    oldEvents n (es ++ fs) = oldEvents n es ++ oldEvents n fs := List.filter_append ..

theorem oldEvents_of_le {n : Nat} {es : List (Event Val)} (h : ∀ e ∈ es, n ≤ e.id) : oldEvents n es = [] :=
  List.filter_eq_nil_iff.mpr fun e he => by simpa using h e he

theorem oldEvents_of_lt {n : Nat} {es : List (Event Val)} (h : ∀ e ∈ es, e.id < n) : oldEvents n es = es :=
  List.filter_eq_self.mpr fun e he => by simpa using h e he

/-- what the pass keeps of the execution of a block -/
theorem ExpandsBlock.execBlock {S : Semantics X C A O Val W} {n k m : Nat}
    {B B' : List (Inst X C A O)} (h : ExpandsBlock k B B' m) (hn : n ≤ k)
    (hB : ∀ I ∈ B, I.id < n ∧ ∀ j, .inst j ∈ I.operands → j < n) {t t' : Point Val W}
    (ht : Agree n t t') :
    oldEvents n (S.execBlock B' t').1 = (S.execBlock B t).1 ∧
    Option.Rel (fun u u' => Agree n u u' ∧ (∀ J ∈ B', n ≤ J.id → S.Holds u'.regs J) ∧
        ∀ j, n ≤ j → j < k ∨ m ≤ j → u'.regs j = t'.regs j)
      (S.execBlock B t).2 (S.execBlock B' t').2 := by
  induction h generalizing t t' with
  | nil => exact ⟨rfl, .some ⟨ht, fun _ h => absurd h List.not_mem_nil, fun _ _ _ => rfl⟩⟩
  | @cons k m I E I' B B' hI hrest ih =>
    obtain ⟨hlt, hops⟩ := hB I List.mem_cons_self
    obtain ⟨es, r, hrun, hes, hholds, hother⟩ := hI.toCreated.execBlock (S := S) (I' :: B') t'
    have hm := hrest.le
    have hr : Agree n t { t' with regs := r } :=
      ⟨ht.world, ht.next, fun j hj => (hother j (.inl (by omega))).trans (ht.regs j hj)⟩
    have hvals := hI.values hops hr.regs hholds
    have hevents : oldEvents n (if I'.isPhi then [] else [S.event r I']) =
        if I.isPhi then [] else [S.event t.regs I] := by
      rw [hI.isPhi_eq, Semantics.event, hvals, hI.id_eq]
      split
      · rfl
      · exact oldEvents_of_lt (by simpa [Semantics.event] using hlt)
    have hes' : oldEvents n es = [] := oldEvents_of_le fun e he => hn.trans (hes e he)
    rw [hrun]
    have hstep := hr.execInst hI.id_eq hI.kind_eq hlt hvals
    cases hu : S.execInst I t with
    | none =>
      rw [hu] at hstep
      rw [execBlock_cons_none hu, execBlock_cons_none (rel_none hstep), oldEvents_append, hes', hevents]
      exact ⟨rfl, .none⟩
    | some u =>
      rw [hu] at hstep
      obtain ⟨u', hu', hagree, hkeep⟩ := rel_some hstep
      obtain ⟨hevs, hend⟩ := ih (by omega) (fun J hJ => hB J (List.mem_cons_of_mem _ hJ)) hagree
      rw [execBlock_cons hu, execBlock_cons hu']
      simp only [oldEvents_append, hes', hevents, hevs, List.nil_append, true_and]
      cases hv : (S.execBlock B u).2 with
      | none =>
        rw [hv] at hend
        rw [rel_none hend]
        exact .none
      | some v =>
        rw [hv] at hend
        obtain ⟨v', hv', hvagree, hvholds, hvother⟩ := rel_some hend
        rw [hv']
        refine .some ⟨hvagree, fun J hJ hJn => ?_, fun j hj hjk => ?_⟩
        · rcases List.mem_append.mp hJ with hJ | hJ
          · -- what follows does not define the registers of `E` again
            have hb := hI.id_bounds hJ
            intro o cs hJe
            rw [hvother J.id hJn (.inl hb.2), hkeep J.id hJn]
            exact hholds J hJ o cs hJe
          · rcases List.mem_cons.mp hJ with rfl | hJ
            · rw [hI.id_eq] at hJn
              omega
            · exact hvholds J hJ hJn
        · rw [hvother j hj (by omega), hkeep j hj]
          exact hother j (by omega)

/-! ## the way into a block -/

theorem lookup_rel {R : Value X C A → Value X C A → Prop} {l l' : List (Value X C A)}
    (h : List.Forall₂ R l l') (ps : List Nat) (p : Nat) :
    Option.Rel R ((ps.zip l).lookup p) ((ps.zip l').lookup p) := by
  induction h generalizing ps with
  | nil =>
    rw [List.zip_nil_right]
    exact .none
  | cons hop _ ih =>
    cases ps with
    | nil => exact .none
    | cons q ps =>
      rw [List.zip_cons_cons, List.zip_cons_cons, List.lookup_cons, List.lookup_cons]
      cases p == q with
      | true => exact .some hop
      | false => exact ih ps

theorem Inst.incomingOperand_eq_none {I : Inst X C A O} (h : I.isPhi = false) (p : Option Nat) :
    I.incomingOperand p = none := by
  unfold Inst.isPhi at h
  unfold Inst.incomingOperand
  cases hkind : I.kind with
  | phi incoming =>
    rw [hkind] at h
    cases h
  | expr o => rfl
  | other o successors => rfl

theorem Inst.incomingOperand_mem {I : Inst X C A O} {p : Option Nat} {v : Value X C A}
    (h : I.incomingOperand p = some v) : I.isPhi = true ∧ v ∈ I.operands := by
  cases hphi : I.isPhi with
  | false =>
    rw [Inst.incomingOperand_eq_none hphi] at h
    cases h
  | true =>
    unfold Inst.incomingOperand at h
    refine ⟨rfl, ?_⟩
    split at h
    · obtain ⟨q, _, hq⟩ := Option.bind_eq_some_iff.mp h
      obtain ⟨l₁, l₂, hl, _⟩ := List.lookup_eq_some_iff.mp hq
      exact (List.of_mem_zip (a := q) (by rw [hl]; simp)).2
    · cases h

theorem Expands.incomingOperand {k : Nat} {I I' : Inst X C A O} {E : List (Inst X C A O)}
    (h : Expands k I E I') (p : Option Nat) :
    Option.Rel (Replaced E) (I.incomingOperand p) (I'.incomingOperand p) := by
  unfold Inst.incomingOperand
  rw [h.kind_eq]
  cases I.kind with
  | phi incoming =>
    cases p with
    | none => exact .none
    | some p => exact lookup_rel h.operands incoming p
  | expr o => exact .none
  | other o successors => exact .none

/-- whether the new registers are defined: their block has been entered before or not -/
def Ready (S : Semantics X C A O Val W) (ready : Prop) (r : Regs Val) (J : Inst X C A O) : Prop :=
  (ready → S.Holds r J) ∧ (¬ ready → r J.id = none)

/-- the operand of a phi node keeps its value unless it is replaced by a register that is not defined -/
theorem Expands.edge {S : Semantics X C A O Val W} {ready : Prop} {k n : Nat} {I I' : Inst X C A O}
    {E : List (Inst X C A O)} (h : Expands k I E I') (hI : ∀ j, .inst j ∈ I.operands → j < n)
    {r r' : Regs Val} (hr : ∀ j, j < n → r' j = r j) (hE : ∀ J ∈ E, Ready S ready r' J)
    (p : Option Nat) : (I'.incomingOperand p).map (S.value r') = (I.incomingOperand p).map (S.value r) ↔
      ready ∨ ∀ v ∈ I.incomingOperand p, v.isConstantExpr = false := by
  have hrel := h.incomingOperand p
  cases hop : I.incomingOperand p with
  | none =>
    rw [hop] at hrel
    rw [rel_none hrel]
    exact iff_of_true rfl (.inr fun _ h => by cases h)
  | some op =>
    rw [hop] at hrel
    obtain ⟨op', hop', hrep⟩ := rel_some hrel
    have hops : ∀ j, op = .inst j → j < n := fun j hj => hI j (hj ▸ (Inst.incomingOperand_mem hop).2)
    rw [hop', Option.map_some, Option.map_some, Option.some.injEq]
    by_cases hready : ready
    · exact iff_of_true (hrep.value hops hr fun J hJ => (hE J hJ).1 hready) (.inl hready)
    · cases hrep with
      | kept hexpr =>
        refine iff_of_true ((Replaced.kept (O := O) (E := []) hexpr).value hops hr ?_) (.inr ?_)
        · exact fun _ h => absurd h List.not_mem_nil
        · rintro v ⟨⟩
          exact hexpr
      | @expanded j o cs hJ =>
        refine iff_of_false ?_ ?_
        · have hnone : r' j = none := (hE _ hJ).2 hready
          intro h
          rw [Semantics.value, Semantics.value] at h
          cases hnone.symm.trans h
        · rintro (h | h)
          · exact hready h
          · cases h _ rfl

namespace Semantics

variable {S : Semantics X C A O Val W}

theorem edgeEvents_append {E : List (Inst X C A O)} (hE : ∀ J ∈ E, J.isPhi = false) (p : Option Nat)
    (r : Regs Val) (B : List (Inst X C A O)) : S.edgeEvents p r (E ++ B) = S.edgeEvents p r B := by
  induction E with
  | nil => rfl
  | cons J E ih =>
    rw [List.cons_append, edgeEvents, hE J List.mem_cons_self]
    exact ih fun K hK => hE K (List.mem_cons_of_mem _ hK)

theorem edgeRegs_append {E : List (Inst X C A O)} (hE : ∀ J ∈ E, J.isPhi = false) (p : Option Nat)
    (r : Regs Val) (B : List (Inst X C A O)) (t : Regs Val) :
    S.edgeRegs p r (E ++ B) t = S.edgeRegs p r B t := by
  induction E with
  | nil => rfl
  | cons J E ih =>
    rw [List.cons_append, edgeRegs, hE J List.mem_cons_self]
    exact ih fun K hK => hE K (List.mem_cons_of_mem _ hK)

end Semantics

/-- what the phi nodes use is the same exactly if none uses a register that is not defined -/
theorem ExpandsBlock.edgeEvents {S : Semantics X C A O Val W} {ready : Prop} {n k m : Nat}
    {B B' : List (Inst X C A O)} (h : ExpandsBlock k B B' m) (hn : n ≤ k)
    (hB : ∀ I ∈ B, I.id < n ∧ ∀ j, .inst j ∈ I.operands → j < n) {r r' : Regs Val}
    (hr : ∀ j, j < n → r' j = r j) (hready : ∀ J ∈ B', n ≤ J.id → Ready S ready r' J)
    (p : Option Nat) :
    (S.edgeEvents p r' B').length = (S.edgeEvents p r B).length ∧
      (∀ e ∈ S.edgeEvents p r' B', e.id < n) ∧
      (S.edgeEvents p r' B' = S.edgeEvents p r B ↔
        ready ∨ ∀ I ∈ B, ∀ v ∈ I.incomingOperand p, v.isConstantExpr = false) := by
  induction h with
  | nil => exact ⟨rfl, fun _ h => absurd h List.not_mem_nil, by simp [Semantics.edgeEvents]⟩
  | @cons k m I E I' B B' hI _ ih =>
    obtain ⟨hlt, hops⟩ := hB I List.mem_cons_self
    have hE : ∀ J ∈ E, Ready S ready r' J := fun J hJ =>
      hready J (List.mem_append_left _ hJ) (hn.trans (hI.id_bounds hJ).1)
    obtain ⟨hlen, hids, hevents⟩ := ih (by omega) (fun J hJ => hB J (List.mem_cons_of_mem _ hJ))
      fun J hJ => hready J (by simp [hJ])
    have hedge := hI.edge hops hr hE p
    rw [Semantics.edgeEvents_append (fun J hJ => hI.not_isPhi hJ), Semantics.edgeEvents,
      Semantics.edgeEvents, hI.isPhi_eq, List.forall_mem_cons, or_and_left, ← hevents, ← hedge]
    cases hphi : I.isPhi with
    | false =>
      have hnone : I.incomingOperand p = none := I.incomingOperand_eq_none hphi p
      have hnone' : I'.incomingOperand p = none :=
        I'.incomingOperand_eq_none (by rw [hI.isPhi_eq, hphi]) p
      rw [hnone, hnone']
      exact ⟨hlen, hids, (and_iff_right rfl).symm⟩
    | true =>
      refine ⟨congrArg Nat.succ hlen, fun e he => ?_, ?_⟩
      · rcases List.mem_cons.mp he with rfl | he
        · exact hI.id_eq ▸ hlt
        · exact hids e he
      · rw [if_pos rfl, if_pos rfl, List.cons.injEq, Event.mk.injEq, hI.id_eq]
        refine and_congr_left fun _ => ⟨fun h => ?_, fun h => ⟨rfl, by rw [h]⟩⟩
        have hl := congrArg List.head? h.2
        rwa [Option.head?_toList, Option.head?_toList] at hl

/-- then the registers that the phi nodes define agree, too -/
theorem ExpandsBlock.edgeRegs {S : Semantics X C A O Val W} {ready : Prop} {n k m : Nat}
    {B B' : List (Inst X C A O)} (h : ExpandsBlock k B B' m) (hn : n ≤ k)
    (hB : ∀ I ∈ B, I.id < n ∧ ∀ j, .inst j ∈ I.operands → j < n) {r r' : Regs Val}
    (hr : ∀ j, j < n → r' j = r j) (hready : ∀ J ∈ B', n ≤ J.id → Ready S ready r' J)
    {p : Option Nat} (hok : ready ∨ ∀ I ∈ B, ∀ v ∈ I.incomingOperand p, v.isConstantExpr = false)
    {t t' : Regs Val} (ht : ∀ j, j < n → t' j = t j) :
    (∀ j, j < n → S.edgeRegs p r' B' t' j = S.edgeRegs p r B t j) ∧
      ∀ j, n ≤ j → S.edgeRegs p r' B' t' j = t' j := by
  induction h generalizing t t' with
  | nil => exact ⟨ht, fun _ _ => rfl⟩
  | @cons k m I E I' B B' hI _ ih =>
    obtain ⟨hlt, hops⟩ := hB I List.mem_cons_self
    have hE : ∀ J ∈ E, Ready S ready r' J := fun J hJ =>
      hready J (List.mem_append_left _ hJ) (hn.trans (hI.id_bounds hJ).1)
    have hedge := (hI.edge hops hr hE p).mpr
      (hok.imp_right fun h => h I List.mem_cons_self)
    have hbind : (I'.incomingOperand p).bind (S.value r') = (I.incomingOperand p).bind (S.value r) := by
      simpa only [Option.bind_map, Function.id_comp] using congrArg (fun v => v.bind id) hedge
    have hnext : ∀ {t t' : Regs Val}, (∀ j, j < n → t' j = t j) →
        (∀ j, j < n → S.edgeRegs p r' B' t' j = S.edgeRegs p r B t j) ∧
          ∀ j, n ≤ j → S.edgeRegs p r' B' t' j = t' j := fun ht =>
      ih (by omega) (fun J hJ => hB J (List.mem_cons_of_mem _ hJ))
        (fun J hJ => hready J (by simp [hJ]))
        (hok.imp_right fun h J hJ => h J (List.mem_cons_of_mem _ hJ)) ht
    rw [Semantics.edgeRegs_append (fun J hJ => hI.not_isPhi hJ), Semantics.edgeRegs,
      Semantics.edgeRegs, hI.isPhi_eq, hI.id_eq, hbind]
    cases I.isPhi with
    | false => exact hnext ht
    | true =>
      obtain ⟨hold, hnew⟩ := hnext
        (Regs.assign_agree ht I.id ((I.incomingOperand p).bind (S.value r)))
      refine ⟨hold, fun j hj => ?_⟩
      rw [if_pos rfl, hnew j hj, Regs.assign_ne (by omega)]

/-! ## a run -/

/-- what a run of the expanded code has in common with one of the code -/
structure Sim (S : Semantics X C A O Val W) (n : Nat) (seen : List Nat) (Bs' : Blocks X C A O)
    (c c' : Config Val W) : Prop where
  world : c'.world = c.world
  pred : c'.pred = c.pred
  block : c'.block = c.block
  regs : ∀ j, j < n → c'.regs j = c.regs j
  ready : ∀ b B', Bs'[b]? = some B' → ∀ J ∈ B', n ≤ J.id → Ready S (b ∈ seen) c'.regs J

/-- the block that a block becomes, and that no other block has the new numbers of it -/
theorem ExpandsBlocks.get {n k m : Nat} {Bs Bs' : Blocks X C A O} (h : ExpandsBlocks k Bs Bs' m)
    (hn : n ≤ k) (hBs : ∀ I, Occurs Bs I → I.id < n) (b : Nat) :
    Bs[b]? = none ∧ Bs'[b]? = none ∨
      ∃ B B' l u, Bs[b]? = some B ∧ Bs'[b]? = some B' ∧ k ≤ l ∧ ExpandsBlock l B B' u ∧
        ∀ a, a ≠ b → ∀ D', Bs'[a]? = some D' → ∀ J ∈ D', n ≤ J.id → J.id < l ∨ u ≤ J.id := by
  induction h generalizing b with
  | nil => exact .inl ⟨rfl, rfl⟩
  | @cons k m₁ m B B' Bs Bs' hB hrest ih =>
    have hle := hB.le
    cases b with
    | zero =>
      refine .inr ⟨B, B', k, m₁, rfl, rfl, le_rfl, hB, fun a ha D' hD' J hJ hJn => .inr ?_⟩
      -- the other blocks come later
      obtain ⟨a, rfl⟩ : ∃ a', a = a' + 1 := ⟨a - 1, by omega⟩
      obtain ⟨I, hI, k', E, hk', hl', hE⟩ := hrest.mem ⟨D', List.mem_of_getElem? hD', hJ⟩
      rcases hE with hE | ⟨hE, hJE⟩
      · obtain ⟨D, hD, hI⟩ := hI
        have := hBs I ⟨D, List.mem_cons_of_mem _ hD, hI⟩
        rw [hE.id_eq] at hJn
        omega
      · have := hE.id_bounds hJE
        omega
    | succ b =>
      rcases ih (by omega) (fun I ⟨D, hD, hI⟩ => hBs I ⟨D, List.mem_cons_of_mem _ hD, hI⟩) b with
        h | ⟨D, D', l, u, hD, hD', hl, hDD, hother⟩
      · exact .inl h
      · refine .inr ⟨D, D', l, u, hD, hD', by omega, hDD, fun a ha E' hE' J hJ hJn => ?_⟩
        cases a with
        | succ a => exact hother a (by omega) E' hE' J hJ hJn
        | zero =>
          cases hE'
          obtain ⟨I, hI, k', E, hk', hl', hE⟩ := hB.mem hJ
          rcases hE with hE | ⟨hE, hJE⟩
          · have := hBs I ⟨B, List.mem_cons_self, hI⟩
            rw [hE.id_eq] at hJn
            omega
          · have := hE.id_bounds hJE
            omega

theorem Sim.enter {S : Semantics X C A O Val W} {n m : Nat} {Bs Bs' : Blocks X C A O}
    (h : ExpandsBlocks n Bs Bs' m) (hBs : Bounded n Bs) {seen : List Nat} {c c' : Config Val W}
    (hc : Sim S n seen Bs' c c') :
    (oldEvents n (S.enter ⟨Bs'⟩ c').1 = (S.enter ⟨Bs⟩ c).1 ↔ EntryOk ⟨Bs⟩ seen c) ∧
      (EntryOk ⟨Bs⟩ seen c →
        Option.Rel (Sim S n (c.block :: seen) Bs') (S.enter ⟨Bs⟩ c).2 (S.enter ⟨Bs'⟩ c').2) := by
  obtain ⟨r', w', p', b'⟩ := c'
  obtain ⟨rfl, rfl, rfl⟩ : w' = c.world ∧ p' = c.pred ∧ b' = c.block := ⟨hc.world, hc.pred, hc.block⟩
  have hr : ∀ j, j < n → r' j = c.regs j := hc.regs
  rcases h.get le_rfl (fun I hI => (hBs I hI).1) c.block with ⟨hB, hB'⟩ |
    ⟨B, B', l, u, hB, hB', hl, hBB, hother⟩
  · rw [Semantics.enter, Semantics.enter]
    simp only [hB, hB']
    refine ⟨iff_of_true rfl (.inr fun B hB₁ => ?_), fun _ => .none⟩
    cases hB.symm.trans hB₁
  · have hbound : ∀ I ∈ B, I.id < n ∧ ∀ j, .inst j ∈ I.operands → j < n :=
      fun I hI => hBs I ⟨B, List.mem_of_getElem? hB, hI⟩
    have hready : ∀ J ∈ B', n ≤ J.id → Ready S (c.block ∈ seen) r' J := hc.ready c.block B' hB'
    have hok : EntryOk ⟨Bs⟩ seen c ↔ (c.block ∈ seen ∨
        ∀ I ∈ B, ∀ v ∈ I.incomingOperand c.pred, v.isConstantExpr = false) := by
      refine or_congr_right ⟨fun h => h B hB, fun h B₁ hB₁ => ?_⟩
      cases hB.symm.trans hB₁
      exact h
    obtain ⟨hlen, hids, hevents⟩ := hBB.edgeEvents hl hbound hr hready c.pred
    rw [Semantics.enter, Semantics.enter]
    simp only [hB, hB', oldEvents_append, oldEvents_of_lt hids]
    by_cases hent : EntryOk ⟨Bs⟩ seen c
    · obtain ⟨hold, hnew⟩ := hBB.edgeRegs hl hbound hr hready (hok.mp hent) hr
      have hagree : Agree n ⟨S.edgeRegs c.pred c.regs B c.regs, c.world, none⟩
        ⟨S.edgeRegs c.pred r' B' r', c.world, none⟩ := ⟨rfl, rfl, hold⟩
      obtain ⟨hexec, hend⟩ := hBB.execBlock (S := S) hl hbound hagree
      refine ⟨iff_of_true ?_ hent, fun _ => ?_⟩
      · rw [hevents.mpr (hok.mp hent), hexec]
      · cases hv : (S.execBlock B ⟨S.edgeRegs c.pred c.regs B c.regs, c.world, none⟩).2 with
        | none =>
          rw [hv] at hend
          rw [rel_none hend]
          exact .none
        | some v =>
          rw [hv] at hend
          obtain ⟨v', hv', hagree, hholds, hkeep⟩ := rel_some hend
          rw [hv', Option.bind_some, Option.bind_some, hagree.next]
          cases v.next with
          | none => exact .none
          | some b =>
            refine .some ⟨hagree.world, rfl, rfl, hagree.regs, fun a D' hD' J hJ hJn => ?_⟩
            by_cases ha : a = c.block
            · subst ha
              cases hB'.symm.trans hD'
              exact ⟨fun _ => hholds J hJ hJn, fun h => absurd List.mem_cons_self h⟩
            · -- the registers of another block are not touched
              have hsame : v'.regs J.id = r' J.id := by
                rw [hkeep J.id hJn (hother a ha D' hD' J hJ hJn)]
                exact hnew J.id hJn
              have hseen : a ∈ c.block :: seen ↔ a ∈ seen := List.mem_cons.trans (or_iff_right ha)
              obtain ⟨hready, hnone⟩ := hc.ready a D' hD' J hJ hJn
              refine ⟨fun h o cs hJe => ?_, fun h => ?_⟩
              · exact hsame.trans (hready (hseen.mp h) o cs hJe)
              · exact hsame.trans (hnone fun h' => h (hseen.mpr h'))
    · refine ⟨iff_of_false (fun heq => hent ?_) hent, fun h => absurd h hent⟩
      exact hok.mpr (hevents.mp (List.append_inj_left heq hlen))

theorem Sim.trace {S : Semantics X C A O Val W} {n m : Nat} {Bs Bs' : Blocks X C A O}
    (h : ExpandsBlocks n Bs Bs' m) (hBs : Bounded n Bs) (steps : Nat) {seen : List Nat}
    {c c' : Config Val W} (hc : Sim S n seen Bs' c c') :
    (S.trace ⟨Bs'⟩ steps c').map (oldEvents n) = S.trace ⟨Bs⟩ steps c ↔
      S.FirstEntryOk ⟨Bs⟩ steps seen c := by
  induction steps generalizing seen c c' with
  | zero => exact iff_of_true rfl trivial
  | succ steps ih =>
    obtain ⟨hevents, hnext⟩ := hc.enter h hBs
    rw [Semantics.trace, Semantics.trace, Semantics.FirstEntryOk, List.map_cons, List.cons.injEq,
      hevents]
    refine and_congr_right fun hok => ?_
    have hrel := hnext hok
    cases hd : (S.enter ⟨Bs⟩ c).2 with
    | none =>
      rw [hd] at hrel
      rw [rel_none hrel]
      exact iff_of_true rfl fun _ h => by cases h
    | some d =>
      rw [hd] at hrel
      obtain ⟨d', hd', hdd⟩ := rel_some hrel
      rw [hd']
      refine (ih hdd).trans ⟨?_, fun h => h d rfl⟩
      rintro h _ ⟨⟩
      exact h

theorem Sim.start {S : Semantics X C A O Val W} {n : Nat} {Bs' : Blocks X C A O} (w : W) :
    Sim S n [] Bs' (start w) (start w) :=
  ⟨rfl, rfl, rfl, fun _ _ => rfl, fun _ _ _ _ _ _ => ⟨fun h => absurd h List.not_mem_nil, fun _ => rfl⟩⟩

/-- without constant expressions in phi nodes there is nothing to ask for -/
theorem Semantics.FirstEntryOk.of_noPhiExpr {S : Semantics X C A O Val W} {F : Function X C A O}
    (hF : NoPhiExpr F.blocks) (steps : Nat) (seen : List Nat) (c : Config Val W) :
    S.FirstEntryOk F steps seen c := by
  induction steps generalizing seen c with
  | zero => trivial
  | succ steps ih =>
    refine ⟨.inr fun B hB I hI v hv => ?_, fun c' _ => ih _ c'⟩
    obtain ⟨hphi, hmem⟩ := Inst.incomingOperand_mem hv
    exact hF I ⟨B, List.mem_of_getElem? hB, hI⟩ hphi v hmem

theorem oldEvents_oldEvents {n m : Nat} (h : n ≤ m) (es : List (Event Val)) :
    oldEvents n (oldEvents m es) = oldEvents n es := by
  rw [oldEvents, oldEvents, oldEvents, List.filter_filter]
  refine List.filter_congr fun e _ => ?_
  by_cases he : e.id < n
  · simp [he, Nat.lt_of_lt_of_le he h]
  · simp [he]

section
variable [DecidableEq X] [DecidableEq C] [DecidableEq A]

/-- The pass returns and leaves no constant expression, and the first blocks of a run show the same
operands of the instructions that were there before if and only if none of them is entered for the
first time along an edge for which one of its phi nodes has a constant expression. -/
theorem expandNestedGEP_values (F : Function X C A O) :
    ∃ fuel F' changed, expandNestedGEP fuel F = some (F', changed) ∧ NoConstantExpr F'.blocks ∧
      ∀ (Val W : Type) (S : Semantics X C A O Val W) (w : W) (steps : Nat),
        (S.trace F' steps (start w)).map (oldEvents F.bound) = S.trace F steps (start w) ↔
          S.FirstEntryOk F steps [] (start w) := by
  obtain ⟨fuel, F', changed, m, hres, hexpr, _, _, _, htrace⟩ := expandNestedGEP_spec F
    (P := fun Bs k => F.bound ≤ k ∧ Bounded k Bs ∧ NoPhiExpr Bs ∧
      ∀ (Val W : Type) (S : Semantics X C A O Val W) (w : W) (steps : Nat),
        (S.trace ⟨Bs⟩ steps (start w)).map (oldEvents F.bound) = S.trace F steps (start w) ↔
          S.FirstEntryOk F steps [] (start w))
    (fun Bs k h => ⟨h.le, h.bounded F.bounded, h.noPhiExpr, fun Val W S w steps =>
      Sim.trace h F.bounded steps (Sim.start w)⟩)
    (fun Bs Bs' k l hP h => by
      obtain ⟨hle, hbound, hphi, htrace⟩ := hP
      refine ⟨hle.trans h.le, h.bounded hbound, h.noPhiExpr, fun Val W S w steps => ?_⟩
      -- the later rounds change nothing
      have hsame : (S.trace ⟨Bs'⟩ steps (start w)).map (oldEvents k) = S.trace ⟨Bs⟩ steps (start w) :=
        (Sim.trace h hbound steps (Sim.start w)).mpr (.of_noPhiExpr hphi steps [] (start w))
      rw [← htrace Val W S w steps, ← hsame, List.map_map]
      have hfilter : oldEvents F.bound ∘ oldEvents k = (oldEvents F.bound : List (Event Val) → _) :=
        funext fun es => oldEvents_oldEvents hle es
      rw [hfilter])
  exact ⟨fuel, F', changed, hres, hexpr, htrace⟩

end

/-- the value of an operator is the number of its operands; 0 is a branch, and 1 ends the run -/
def sampleSemantics : Semantics Nat Nat Nat Nat Nat Unit where
  leaf := id
  arg := id
  fold _ vs := vs.length
  exec o _ w := if o = 0 then some (none, w, some 0) else none

/-- the phi node of block 1 has the value 1 on the way from block 0; behind the pass the register
that it uses there has not been defined -/
theorem phi_operand_lost :
    expandNestedGEP 2 phiOfExpr = some (phiBehindExpr, true) ∧
      sampleSemantics.trace phiOfExpr 2 (start ()) = [[⟨0, []⟩], [⟨1, [some 1]⟩, ⟨2, [some 1]⟩]] ∧
      (sampleSemantics.trace phiBehindExpr 2 (start ())).map (oldEvents phiOfExpr.bound) =
        [[⟨0, []⟩], [⟨1, [none]⟩, ⟨2, [none]⟩]] :=
  ⟨rfl, rfl, rfl⟩

end AserPTA.ExpandNestedGEP
