import AserPTA.PreProcessing.ExpandNestedGEP

/-!
# Where the expanded instructions stand

Everything is inserted in front of its user, in the block of the user. For a phi node that is the
wrong place: phi nodes come first in a block, and the value has to be there at the end of the block
that control comes from.

* `PhisFirst`               the phi nodes form the first part of a block;
* `BlockDominates`, `DominatesUse`  dominance, with a phi node using its operands at the end of the
                            incoming blocks;
* `UsesDominated`           every use of an instruction from some number on is dominated by it;
* `expandNestedGEP_placement` the pass keeps both exactly if no phi node has a constant expression.
-/

namespace AserPTA.ExpandNestedGEP

variable {X C A O : Type}

/-- what stands in front of a phi node is a phi node -/
def PhisFirst (B : List (Inst X C A O)) : Prop :=
  B.Pairwise fun I J => J.isPhi = true → I.isPhi = true

namespace Function

variable (F : Function X C A O)

/-- the last instruction of `a` may go on at `b` -/
def Edge (a b : Nat) : Prop :=
  ∃ B I o successors, F.blocks[a]? = some B ∧ B.getLast? = some I ∧
    I.kind = .other o successors ∧ b ∈ successors

/-- control may come to a block without passing through `a` -/
inductive Avoids (a : Nat) : Nat → Prop
  | entry : a ≠ 0 → Avoids a 0
  | step {b b'} : Avoids a b → F.Edge b b' → a ≠ b' → Avoids a b'

def BlockDominates (a b : Nat) : Prop := ¬ F.Avoids a b

/-- the instruction with the number `id` is at `i` in the block `a` -/
def DefinedAt (id a i : Nat) : Prop :=
  ∃ B I, F.blocks[a]? = some B ∧ B[i]? = some I ∧ I.id = id

/-- what is at `i` in the block `a` dominates the operand `k` of `I`, which is at `j` in `b` -/
def DominatesUse (a i b j : Nat) (I : Inst X C A O) (k : Nat) : Prop :=
  match I.kind with
  | .phi incoming => ∃ p, incoming[k]? = some p ∧ F.BlockDominates a p
  | _ => a = b ∧ i < j ∨ a ≠ b ∧ F.BlockDominates a b

/-- every use of an instruction whose number is `n` or above is dominated by the instruction -/
def UsesDominated (n : Nat) : Prop :=
  ∀ b B j I k id, F.blocks[b]? = some B → B[j]? = some I → I.operands[k]? = some (.inst id) →
    n ≤ id → ∃ a i, F.DefinedAt id a i ∧ F.DominatesUse a i b j I k

end Function

/-! ## the phi nodes -/

theorem ExpandsBlock.any_isPhi {n m : Nat} {B B' : List (Inst X C A O)}
    (h : ExpandsBlock n B B' m) : (∃ J ∈ B', J.isPhi = true) ↔ ∃ I ∈ B, I.isPhi = true := by
  constructor
  · rintro ⟨J, hJ, hphi⟩
    obtain ⟨I, hI, k, E, _, _, hE⟩ := h.mem hJ
    rcases hE with hE | ⟨hE, hJE⟩
    · exact ⟨I, hI, by rw [← hE.isPhi_eq, hphi]⟩
    · rw [hE.not_isPhi hJE] at hphi
      cases hphi
  · rintro ⟨I, hI, hphi⟩
    induction h with
    | nil => cases hI
    | @cons n m K E K' B B' hK _ ih =>
      rcases List.mem_cons.mp hI with rfl | hI
      · exact ⟨K', by simp, by rw [hK.isPhi_eq, hphi]⟩
      · obtain ⟨J, hJ, hJphi⟩ := ih hI
        exact ⟨J, by simp [hJ], hJphi⟩

theorem phisFirst_cons {I : Inst X C A O} {B : List (Inst X C A O)} :
    PhisFirst (I :: B) ↔ ((∃ J ∈ B, J.isPhi = true) → I.isPhi = true) ∧ PhisFirst B := by
  rw [PhisFirst, List.pairwise_cons]
  refine and_congr_left fun _ => ⟨?_, ?_⟩
  · rintro h ⟨J, hJ, hphi⟩
    exact h J hJ hphi
  · intro h J hJ hphi
    exact h ⟨J, hJ, hphi⟩

/-- behind instructions that are no phi nodes there is none -/
theorem phisFirst_append {E B : List (Inst X C A O)} (hE : ∀ J ∈ E, J.isPhi = false)
    (hne : E ≠ []) : PhisFirst (E ++ B) ↔ (¬ ∃ J ∈ B, J.isPhi = true) := by
  constructor
  · rintro h ⟨J, hJ, hphi⟩
    obtain ⟨K, hK⟩ := List.exists_mem_of_ne_nil E hne
    have := (List.pairwise_append.mp h).2.2 K hK J hJ hphi
    rw [hE K hK] at this
    cases this
  · intro h
    have hall : ∀ J ∈ E ++ B, J.isPhi = false := by
      intro J hJ
      rcases List.mem_append.mp hJ with hJ | hJ
      · exact hE J hJ
      · cases hphi : J.isPhi with
        | false => rfl
        | true => exact absurd ⟨J, hJ, hphi⟩ h
    refine List.pairwise_of_forall_mem_list fun I hI J hJ hphi => ?_
    rw [hall J hJ] at hphi
    cases hphi

theorem ExpandsBlock.phisFirst_iff {n m : Nat} {B B' : List (Inst X C A O)}
    (h : ExpandsBlock n B B' m) : PhisFirst B' ↔
      PhisFirst B ∧ ∀ I ∈ B, I.isPhi = true → ∀ v ∈ I.operands, v.isConstantExpr = false := by
  induction h with
  | nil => exact ⟨fun h => ⟨h, fun _ hI => absurd hI List.not_mem_nil⟩, And.left⟩
  | @cons n m I E I' B B' hI hB ih =>
    have hany := hB.any_isPhi
    have hphi := hI.isPhi_eq
    by_cases hE : E = []
    · have hops := hI.nil_iff.mp hE
      rw [hE, List.nil_append, phisFirst_cons, phisFirst_cons, hany, hphi, ih, List.forall_mem_cons]
      constructor
      · rintro ⟨hfirst, hB, hB'⟩
        exact ⟨⟨hfirst, hB⟩, fun _ => hops, hB'⟩
      · rintro ⟨⟨hfirst, hB⟩, _, hB'⟩
        exact ⟨hfirst, hB, hB'⟩
    · -- something is inserted, so a phi node from here on breaks the order
      have hex : ¬ ∀ v ∈ I.operands, v.isConstantExpr = false := fun h => hE (hI.nil_iff.mpr h)
      rw [phisFirst_append (fun J hJ => hI.not_isPhi hJ) hE, phisFirst_cons, List.forall_mem_cons,
        List.exists_mem_cons_iff, hany, hphi]
      constructor
      · intro h
        have hnot : ¬ ∃ J ∈ B, J.isPhi = true := fun hJ => h (.inr hJ)
        refine ⟨⟨fun hJ => absurd hJ hnot, ?_⟩, fun hI => absurd (.inl hI) h, ?_⟩
        · exact List.pairwise_of_forall_mem_list fun J _ K hK hKphi => absurd ⟨K, hK, hKphi⟩ hnot
        · exact fun J hJ hJphi => absurd ⟨J, hJ, hJphi⟩ hnot
      · rintro ⟨⟨hfirst, _⟩, hops, _⟩ hphi'
        rcases hphi' with hphi' | hphi'
        · exact hex (hops hphi')
        · exact hex (hops (hfirst hphi'))

theorem ExpandsBlocks.phisFirst_iff {n m : Nat} {Bs Bs' : Blocks X C A O}
    (h : ExpandsBlocks n Bs Bs' m) : (∀ B ∈ Bs', PhisFirst B) ↔
      (∀ B ∈ Bs, PhisFirst B) ∧ NoPhiExpr Bs := by
  have hocc : NoPhiExpr Bs ↔ ∀ B ∈ Bs, ∀ I ∈ B, I.isPhi = true →
      ∀ v ∈ I.operands, v.isConstantExpr = false :=
    ⟨fun h B hB I hI => h I ⟨B, hB, hI⟩, fun h I ⟨B, hB, hI⟩ => h B hB I hI⟩
  rw [hocc]
  clear hocc
  induction h with
  | nil => simp
  | cons hB _ ih =>
    rw [List.forall_mem_cons, List.forall_mem_cons, List.forall_mem_cons, hB.phisFirst_iff]
    exact (and_congr_right fun _ => ih).trans and_and_and_comm

/-! ## the new instructions -/

/-- `B` uses numbers from `n` on behind their definitions only, `D` being defined in front of it -/
def Placed (n : Nat) : List Nat → List (Inst X C A O) → Prop
  | _, [] => True
  | D, I :: B => (∀ id, .inst id ∈ I.operands → n ≤ id → I.isPhi = false ∧ id ∈ D) ∧
      Placed n (I.id :: D) B

theorem Placed.append {n : Nat} {D : List Nat} {E B : List (Inst X C A O)}
    (hE : ∀ J ∈ E, ∀ id, Value.inst id ∉ J.operands)
    (hB : ∀ D', (∀ id ∈ D, id ∈ D') → (∀ J ∈ E, J.id ∈ D') → Placed n D' B) :
    Placed n D (E ++ B) := by
  induction E generalizing D with
  | nil => exact hB D (fun _ h => h) fun _ h => absurd h List.not_mem_nil
  | cons J E ih =>
    refine ⟨fun id hid => absurd hid (hE J List.mem_cons_self id), ih ?_ ?_⟩
    · exact fun K hK => hE K (List.mem_cons_of_mem _ hK)
    · intro D' hD hJ
      refine hB D' (fun id hid => hD id (List.mem_cons_of_mem _ hid)) fun K hK => ?_
      rcases List.mem_cons.mp hK with rfl | hK
      · exact hD _ List.mem_cons_self
      · exact hJ K hK

theorem ExpandsBlock.placed {n k m : Nat} {B B' : List (Inst X C A O)}
    (h : ExpandsBlock k B B' m)
    (hphi : ∀ I ∈ B, I.isPhi = true → ∀ v ∈ I.operands, v.isConstantExpr = false)
    {D D' : List Nat} (hD : ∀ id ∈ D, id ∈ D') (hB : Placed n D B) : Placed n D' B' := by
  induction h generalizing D D' with
  | nil => trivial
  | @cons k m I E I' B B' hI _ ih =>
    obtain ⟨hops, hrest⟩ := hB
    refine Placed.append (fun J hJ id hid => ?_) fun D₁ hD₁ hE => ⟨fun id hid hn => ?_, ?_⟩
    · obtain ⟨c, _, hc, _⟩ := hI.toCreated.operand hJ hid
      cases hc
    · rw [hI.isPhi_eq]
      obtain ⟨w, hw, hr⟩ := hI.operand hid
      cases hr with
      | kept _ =>
        obtain ⟨hIphi, hmem⟩ := hops id hw hn
        exact ⟨hIphi, hD₁ _ (hD _ hmem)⟩
      | expanded hJ =>
        refine ⟨?_, hE _ hJ⟩
        cases hIphi : I.isPhi with
        | false => rfl
        | true => cases hphi I List.mem_cons_self hIphi _ hw
    · refine ih (fun J hJ => hphi J (List.mem_cons_of_mem _ hJ)) (fun id hid => ?_) hrest
      rw [hI.id_eq]
      rcases List.mem_cons.mp hid with rfl | hid
      · exact List.mem_cons_self
      · exact List.mem_cons_of_mem _ (hD₁ _ (hD _ hid))

/-- what no instruction of the block uses need not be defined -/
theorem Placed.of_lt {n : Nat} {B : List (Inst X C A O)}
    (h : ∀ I ∈ B, ∀ id, .inst id ∈ I.operands → id < n) (D : List Nat) : Placed n D B := by
  induction B generalizing D with
  | nil => trivial
  | cons I B ih =>
    refine ⟨fun id hid hn => ?_, ih (fun J hJ => h J (List.mem_cons_of_mem _ hJ)) _⟩
    have := h I List.mem_cons_self id hid
    omega

/-- a use at `j` is of something in front of it -/
theorem Placed.use {n : Nat} {D : List Nat} {B : List (Inst X C A O)} (h : Placed n D B) {j : Nat}
    {I : Inst X C A O} (hI : B[j]? = some I) {id : Nat} (hid : .inst id ∈ I.operands)
    (hn : n ≤ id) : I.isPhi = false ∧ (id ∈ D ∨ ∃ i < j, ∃ J, B[i]? = some J ∧ J.id = id) := by
  induction B generalizing D j with
  | nil => cases hI
  | cons K B ih =>
    obtain ⟨hops, hrest⟩ := h
    cases j with
    | zero =>
      cases hI
      obtain ⟨hphi, hmem⟩ := hops id hid hn
      exact ⟨hphi, .inl hmem⟩
    | succ j =>
      obtain ⟨hphi, hdef⟩ := ih hrest hI
      refine ⟨hphi, ?_⟩
      rcases hdef with hdef | ⟨i, hi, J, hJ, hJid⟩
      · rcases List.mem_cons.mp hdef with rfl | hdef
        · exact .inr ⟨0, Nat.succ_pos _, K, rfl, rfl⟩
        · exact .inl hdef
      · exact .inr ⟨i + 1, Nat.succ_lt_succ hi, J, hJ, hJid⟩

theorem Function.usesDominated {F : Function X C A O} {n : Nat}
    (h : ∀ B ∈ F.blocks, Placed n [] B) : F.UsesDominated n := by
  intro b B j I k id hB hI hk hn
  obtain ⟨hphi, hdef⟩ := (h B (List.mem_of_getElem? hB)).use hI (List.mem_of_getElem? hk) hn
  rcases hdef with hdef | ⟨i, hi, J, hJ, hid⟩
  · cases hdef
  · refine ⟨b, i, ⟨B, J, hB, hJ, hid⟩, ?_⟩
    rw [Function.DominatesUse]
    split
    · next incoming hkind =>
      rw [Inst.isPhi, hkind] at hphi
      cases hphi
    · exact .inl ⟨rfl, hi⟩

/-! ## the pass -/

section
variable [DecidableEq X] [DecidableEq C] [DecidableEq A]

/-- The pass keeps the phi nodes first and puts every new instruction where it dominates its uses if
and only if no phi node of the function has a constant expression. -/
theorem expandNestedGEP_placement (F : Function X C A O) (hF : ∀ B ∈ F.blocks, PhisFirst B) :
    ∃ fuel F' changed, expandNestedGEP fuel F = some (F', changed) ∧
      (((∀ B ∈ F'.blocks, PhisFirst B) ∧ F'.UsesDominated F.bound) ↔ NoPhiExpr F.blocks) := by
  obtain ⟨fuel, F', changed, m, hres, _, _, hexpr, hphis, hplaced⟩ := expandNestedGEP_spec F
    (P := fun Bs k => F.bound ≤ k ∧ NoPhiExpr Bs ∧
      ((∀ B ∈ Bs, PhisFirst B) ↔ NoPhiExpr F.blocks) ∧
      (NoPhiExpr F.blocks → ∀ B ∈ Bs, Placed F.bound [] B))
    (fun Bs k h => by
      refine ⟨h.le, h.noPhiExpr, ?_, fun hphi B' hB' => ?_⟩
      · rw [h.phisFirst_iff]
        exact and_iff_right hF
      · obtain ⟨B, hB, _, _, _, _, hBB⟩ := h.block hB'
        refine hBB.placed (fun I hI => hphi I ⟨B, hB, hI⟩) (fun _ h => h) (Placed.of_lt ?_ [])
        exact fun I hI id hid => (F.bounded I ⟨B, hB, hI⟩).2 id hid)
    (fun Bs Bs' k l hP h => by
      obtain ⟨hle, hexpr, hphis, hplaced⟩ := hP
      refine ⟨hle.trans h.le, h.noPhiExpr, ?_, fun hphi B' hB' => ?_⟩
      · rw [h.phisFirst_iff, and_iff_left hexpr, hphis]
      · obtain ⟨B, hB, _, _, _, _, hBB⟩ := h.block hB'
        exact hBB.placed (fun I hI => hexpr I ⟨B, hB, hI⟩) (fun _ h => h) (hplaced hphi B hB))
  refine ⟨fuel, F', changed, hres, ?_⟩
  rw [hphis]
  exact ⟨And.left, fun hphi => ⟨hphi, Function.usesDominated (hplaced hphi)⟩⟩

end

/-- the same use of a constant expression by an instruction that is no phi node -/
def useOfExpr : Function Nat Nat Nat Nat where
  blocks := [
    [⟨0, .other 0 [1], []⟩],
    [⟨1, .phi [0], [.other 0]⟩, ⟨2, .other 1 [], [.const (.expr 0 [.other 0]), .inst 1]⟩]]

theorem expandNestedGEP_placement_useOfExpr :
    (∀ B ∈ useOfExpr.blocks, PhisFirst B) ∧
    ∃ fuel F' changed, expandNestedGEP fuel useOfExpr = some (F', changed) ∧
      (((∀ B ∈ F'.blocks, PhisFirst B) ∧ F'.UsesDominated useOfExpr.bound) ↔
        NoPhiExpr useOfExpr.blocks) := by
  have hphis : ∀ B ∈ useOfExpr.blocks, PhisFirst B := by
    unfold PhisFirst
    decide
  exact ⟨hphis, expandNestedGEP_placement useOfExpr hphis⟩

/-- the new instruction stands in front of the phi node and does not dominate the end of block 0 -/
theorem phi_behind_expr :
    (∀ B ∈ phiOfExpr.blocks, PhisFirst B) ∧ phiOfExpr.UsesDominated 0 ∧
      expandNestedGEP 2 phiOfExpr = some (phiBehindExpr, true) ∧
      (¬ ∀ B ∈ phiBehindExpr.blocks, PhisFirst B) ∧
      ¬ phiBehindExpr.UsesDominated phiOfExpr.bound := by
  refine ⟨by unfold PhisFirst; decide, ?_, rfl, by unfold PhisFirst; decide, fun h => ?_⟩
  · refine Function.usesDominated fun B hB => ?_
    rcases List.mem_cons.mp hB with rfl | hB
    · simp [Placed]
    · cases List.mem_singleton.mp hB
      simp [Placed, Inst.isPhi]
  · obtain ⟨a, i, ⟨B, I, hB, hI, hid⟩, p, hp, hdom⟩ := h 1 _ 1 _ 0 3 rfl rfl rfl (by decide)
    cases hp
    -- nothing in block 0 has the number 3, and block 0 is entered first
    refine hdom (.entry ?_)
    rintro rfl
    cases hB
    rcases i with _ | i
    · cases hI
      cases hid
    · cases hI

end AserPTA.ExpandNestedGEP
