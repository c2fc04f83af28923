import AserPTA.MemoryModel.MemLayout
import Mathlib.Tactic.Linarith
import Mathlib.Tactic.Ring

/-!
# Maps of arrays

The arrays of a layout stand in a map by their physical offsets.

* `Ordered`, `Fits`     arrays in increasing order that do not overlap; with `Fits` none is empty;
* `between`             the loop of `indexBetweenArrays`, by what the arrays before have lost;
* `taken`               which of some arrays a map takes that keeps what stands at a key;
* `foldl_insertSubArray`, `foldl_insert_taken`   the loop of `mergeMemoryLayout`.
-/

namespace AserPTA

/-! ## order -/

/-- the arrays stand in increasing order between `lo` and `hi` and do not overlap; one without size may
stand where another one starts -/
def Ordered : Nat → List (Nat × ArrayLayout) → Nat → Prop
  | lo, [], hi => lo ≤ hi
  | lo, (off, arr) :: rest, hi => lo ≤ off ∧ Ordered (off + arr.getArraySize) rest hi

/-- the arrays stand in increasing order between `lo` and `hi` and do not overlap -/
def Fits : Nat → List (Nat × ArrayLayout) → Nat → Prop
  | lo, [], hi => lo ≤ hi
  | lo, (off, arr) :: rest, hi => lo ≤ off ∧ 0 < arr.getArraySize ∧ Fits (off + arr.getArraySize) rest hi

/-- the arrays of something that starts at `offset` -/
def shift (offset : Nat) (arrays : List (Nat × ArrayLayout)) : List (Nat × ArrayLayout) :=
  arrays.map fun x => (x.1 + offset, x.2)

/-- what the arrays lose when they are collapsed -/
def lost : List (Nat × ArrayLayout) → Int
  | [] => 0
  | (_, arr) :: rest => arr.getArraySize - arr.layoutSize + lost rest

/-- the result of the loop, when the arrays before have lost `d` -/
def between : List (Nat × ArrayLayout) → Nat → Int → Int × Nat
  | [], p, d => (p - d, p)
  | (off, arr) :: rest, p, d =>
    if p ≤ off then (p - d, p)
    else if off + arr.getArraySize ≤ p then between rest p (d + (arr.getArraySize - arr.layoutSize))
    else ((arr.indexPhysicalOffset (p - off)).1 + (off - d), off + (arr.indexPhysicalOffset (p - off)).2)

namespace Ordered

variable {A B : List (Nat × ArrayLayout)} {lo mid hi : Nat}

theorem le (h : Ordered lo A hi) : lo ≤ hi := by
  induction A generalizing lo with
  | nil => exact h
  | cons x rest ih => exact h.1.trans ((Nat.le_add_right _ _).trans (ih h.2))

theorem mono_left (h : Ordered mid A hi) (hle : lo ≤ mid) : Ordered lo A hi := by
  cases A with
  | nil => exact hle.trans h
  | cons x rest => exact ⟨hle.trans h.1, h.2⟩

theorem append (hA : Ordered lo A mid) (hB : Ordered mid B hi) : Ordered lo (A ++ B) hi := by
  induction A generalizing lo with
  | nil => exact hB.mono_left hA
  | cons x rest ih => exact ⟨hA.1, ih hA.2⟩

theorem shift (h : Ordered lo A hi) (offset : Nat) :
    Ordered (lo + offset) (shift offset A) (hi + offset) := by
  induction A generalizing lo with
  | nil => exact Nat.add_le_add_right h offset
  | cons x rest ih =>
    refine ⟨Nat.add_le_add_right h.1 offset, ?_⟩
    have hrest := ih h.2
    rwa [Nat.add_right_comm] at hrest

theorem key_le (h : Ordered lo A hi) {x : Nat × ArrayLayout} (hx : x ∈ A) :
    lo ≤ x.1 ∧ x.1 + x.2.getArraySize ≤ hi := by
  induction A generalizing lo with
  | nil => exact absurd hx List.not_mem_nil
  | cons y rest ih =>
    rcases List.mem_cons.mp hx with rfl | hx
    · exact ⟨h.1, h.2.le⟩
    · obtain ⟨h1, h2⟩ := ih h.2 hx
      have := h.1
      exact ⟨by omega, h2⟩

theorem pairwise (h : Ordered lo A hi) : A.Pairwise fun x y => x.1 + x.2.getArraySize ≤ y.1 := by
  induction A generalizing lo with
  | nil => exact .nil
  | cons x rest ih => exact List.pairwise_cons.mpr ⟨fun y hy => (h.2.key_le hy).1, ih h.2⟩

/-- the keys do not decrease -/
theorem keys_le (h : Ordered lo A hi) : A.Pairwise fun x y => x.1 ≤ y.1 :=
  h.pairwise.imp fun hxy => (Nat.le_add_right _ _).trans hxy

theorem sublist (h : Ordered lo A hi) (hB : B.Sublist A) : Ordered lo B hi := by
  induction hB generalizing lo with
  | slnil => exact h
  | cons x _ ih => exact (ih h.2).mono_left (h.1.trans (Nat.le_add_right _ _))
  | cons_cons x _ ih => exact ⟨h.1, ih h.2⟩

end Ordered

namespace Fits

variable {A B : List (Nat × ArrayLayout)} {lo mid hi : Nat}

theorem le (h : Fits lo A hi) : lo ≤ hi := by
  induction A generalizing lo with
  | nil => exact h
  | cons x rest ih => exact h.1.trans ((Nat.le_add_right _ _).trans (ih h.2.2))

theorem mono_left (h : Fits mid A hi) (hle : lo ≤ mid) : Fits lo A hi := by
  cases A with
  | nil => exact hle.trans h
  | cons x rest => exact ⟨hle.trans h.1, h.2⟩

theorem mono_right (h : Fits lo A mid) (hle : mid ≤ hi) : Fits lo A hi := by
  induction A generalizing lo with
  | nil => exact Nat.le_trans h hle
  | cons x rest ih => exact ⟨h.1, h.2.1, ih h.2.2⟩

theorem append (hA : Fits lo A mid) (hB : Fits mid B hi) : Fits lo (A ++ B) hi := by
  induction A generalizing lo with
  | nil => exact hB.mono_left hA
  | cons x rest ih => exact ⟨hA.1, hA.2.1, ih hA.2.2⟩

theorem shift (h : Fits lo A hi) (offset : Nat) : Fits (lo + offset) (shift offset A) (hi + offset) := by
  induction A generalizing lo with
  | nil => exact Nat.add_le_add_right h offset
  | cons x rest ih =>
    refine ⟨Nat.add_le_add_right h.1 offset, h.2.1, ?_⟩
    have hrest := ih h.2.2
    rwa [Nat.add_right_comm] at hrest

theorem key_lt (h : Fits lo A hi) {x : Nat × ArrayLayout} (hx : x ∈ A) : lo ≤ x.1 ∧ x.1 < hi := by
  induction A generalizing lo with
  | nil => exact absurd hx List.not_mem_nil
  | cons y rest ih =>
    have hle := h.2.2.le
    have hpos := h.2.1
    rcases List.mem_cons.mp hx with rfl | hx
    · exact ⟨h.1, by omega⟩
    · obtain ⟨h1, h2⟩ := ih h.2.2 hx
      have := h.1
      exact ⟨by omega, h2⟩

theorem ordered (h : Fits lo A hi) : Ordered lo A hi := by
  induction A generalizing lo with
  | nil => exact h
  | cons x rest ih => exact ⟨h.1, ih h.2.2⟩

end Fits

/-- inserting behind every key -/
theorem insertSubArray_append {arrays : List (Nat × ArrayLayout)} {k : Nat} {arr : ArrayLayout}
    (h : ∀ x ∈ arrays, x.1 < k) : insertSubArray k arr arrays = arrays ++ [(k, arr)] := by
  induction arrays with
  | nil => rfl
  | cons x rest ih =>
    have hx := h x List.mem_cons_self
    rw [insertSubArray, if_neg (by omega), if_neg (by omega),
      ih fun y hy => h y (List.mem_cons_of_mem x hy), List.cons_append]

/-- the loop of `mergeMemoryLayout` over arrays that stand behind the ones already there -/
theorem foldl_insertSubArray {A B : List (Nat × ArrayLayout)} {lo hi offset : Nat}
    (hA : Fits lo A hi) (hB : Fits 0 B (lo + offset)) :
    A.foldl (fun arrays x => insertSubArray (x.1 + offset) x.2 arrays) B = B ++ shift offset A := by
  induction A generalizing lo B with
  | nil => exact (List.append_nil B).symm
  | cons x rest ih =>
    have hkey : ∀ y ∈ B, y.1 < x.1 + offset := fun y hy =>
      (hB.key_lt hy).2.trans_le (Nat.add_le_add_right hA.1 offset)
    rw [List.foldl_cons, insertSubArray_append hkey, ih hA.2.2, List.append_assoc]
    · rfl
    · refine (hB.mono_right (Nat.add_le_add_right hA.1 offset)).append ⟨le_rfl, hA.2.1, ?_⟩
      show _ ≤ _
      rw [Nat.add_right_comm]

/-! ## arrays at one offset -/

section
variable {α : Type}

/-- the entries that a map takes, of some whose keys do not decrease, when `last` is its last key -/
def taken : Option Nat → List (Nat × α) → List (Nat × α)
  | _, [] => []
  | last, x :: rest => if last = some x.1 then taken last rest else x :: taken (some x.1) rest

theorem taken_sublist (last : Option Nat) (A : List (Nat × α)) : (taken last A).Sublist A := by
  induction A generalizing last with
  | nil => exact .slnil
  | cons x rest ih =>
    rw [taken]
    split
    · exact (ih last).cons x
    · exact (ih _).cons_cons x

/-- entries that were left out once are left out again -/
theorem taken_taken_append {last last' : Option Nat} (A B : List (Nat × α))
    (h : last' = none ∨ last' = last) : taken last (taken last' A ++ B) = taken last (A ++ B) := by
  induction A generalizing last last' with
  | nil => rfl
  | cons x rest ih =>
    rw [List.cons_append, taken, taken]
    by_cases hx' : last' = some x.1
    · have hx : last = some x.1 := (h.resolve_left (by rw [hx']; exact nofun)).symm.trans hx'
      rw [if_pos hx', if_pos hx]
      exact ih h
    · rw [if_neg hx', List.cons_append, taken]
      split
      · next hx => exact ih (.inr hx.symm)
      · rw [ih (.inr rfl)]

theorem taken_append_congr {B B' : List (Nat × α)} (h : ∀ last, taken last B = taken last B')
    (A : List (Nat × α)) (last : Option Nat) : taken last (A ++ B) = taken last (A ++ B') := by
  induction A generalizing last with
  | nil => exact h last
  | cons x rest ih =>
    rw [List.cons_append, List.cons_append, taken, taken, ih, ih]

theorem taken_map {β : Type} (f : α → β) (last : Option Nat) (A : List (Nat × α)) :
    taken last (A.map fun x => (x.1, f x.2)) = (taken last A).map fun x => (x.1, f x.2) := by
  induction A generalizing last with
  | nil => rfl
  | cons x rest ih =>
    rw [List.map_cons, taken, taken]
    split
    · exact ih last
    · rw [ih, List.map_cons]

theorem taken_shift (offset : Nat) (last : Option Nat) (A : List (Nat × α)) :
    taken (last.map (· + offset)) (A.map fun x => (x.1 + offset, x.2)) =
      (taken last A).map fun x => (x.1 + offset, x.2) := by
  induction A generalizing last with
  | nil => rfl
  | cons x rest ih =>
    have hiff : last.map (· + offset) = some (x.1 + offset) ↔ last = some x.1 := by
      cases last with
      | none => simp
      | some k => simp
    rw [List.map_cons, taken, taken]
    simp only [hiff]
    split
    · exact ih last
    · have hrest := ih (some x.1)
      rw [Option.map_some] at hrest
      rw [hrest, List.map_cons]

/-- the keys that are taken increase -/
theorem taken_pairwise {last : Option Nat} {A : List (Nat × α)}
    (hA : A.Pairwise fun x y => x.1 ≤ y.1) (hlast : ∀ k, last = some k → ∀ x ∈ A, k ≤ x.1) :
    (taken last A).Pairwise (fun x y => x.1 < y.1) ∧
      ∀ k, last = some k → ∀ x ∈ taken last A, k < x.1 := by
  induction A generalizing last with
  | nil => exact ⟨.nil, fun _ _ x hx => absurd hx List.not_mem_nil⟩
  | cons x rest ih =>
    obtain ⟨hx, hrest⟩ := List.pairwise_cons.mp hA
    rw [taken]
    split
    · next h => exact ih hrest fun k hk y hy => hlast k hk y (List.mem_cons_of_mem x hy)
    · next h =>
      obtain ⟨h1, h2⟩ := @ih (some x.1) hrest fun k hk y hy => by
        obtain rfl := Option.some.inj hk
        exact hx y hy
      refine ⟨List.pairwise_cons.mpr ⟨h2 x.1 rfl, h1⟩, fun k hk y hy => ?_⟩
      have hle := hlast k hk x List.mem_cons_self
      have hne : k ≠ x.1 := fun he => h (he ▸ hk)
      rcases List.mem_cons.mp hy with rfl | hy
      · omega
      · exact (Nat.lt_of_le_of_ne hle hne).trans (h2 x.1 rfl y hy)

/-- entries with increasing keys are all taken -/
theorem taken_eq_self {last : Option Nat} {A : List (Nat × α)}
    (hA : A.Pairwise fun x y => x.1 < y.1) (hlast : ∀ k, last = some k → ∀ x ∈ A, k < x.1) :
    taken last A = A := by
  induction A generalizing last with
  | nil => rfl
  | cons x rest ih =>
    obtain ⟨hx, hrest⟩ := List.pairwise_cons.mp hA
    rw [taken, if_neg, ih hrest]
    · intro k hk y hy
      obtain rfl := Option.some.inj hk
      exact hx y hy
    · intro h
      exact absurd (hlast x.1 h x List.mem_cons_self) (Nat.lt_irrefl _)

/-- where the keys do not decrease, an entry that does not start before `p` is the first of those -/
theorem filter_lt_eq_nil {x : Nat × α} {rest : List (Nat × α)}
    (hA : (x :: rest).Pairwise fun x y => x.1 ≤ y.1) {p : Nat} (hp : p ≤ x.1) :
    (x :: rest).filter (·.1 < p) = [] := by
  refine List.filter_eq_nil_iff.mpr fun y hy => ?_
  rw [decide_eq_true_iff, Nat.not_lt]
  rcases List.mem_cons.mp hy with rfl | hy
  · exact hp
  · exact hp.trans ((List.pairwise_cons.mp hA).1 y hy)

theorem filter_lt_cons {x : Nat × α} {p : Nat} (hp : x.1 < p) (rest : List (Nat × α)) :
    (x :: rest).filter (·.1 < p) = x :: rest.filter (·.1 < p) :=
  List.filter_cons_of_pos (decide_eq_true hp)

/-- what is taken before an offset -/
theorem taken_filter {last : Option Nat} {A : List (Nat × α)} (hA : A.Pairwise fun x y => x.1 ≤ y.1)
    (p : Nat) : (taken last A).filter (·.1 < p) = taken last (A.filter (·.1 < p)) := by
  induction A generalizing last with
  | nil => rfl
  | cons x rest ih =>
    have hrest := (List.pairwise_cons.mp hA).2
    rcases Nat.lt_or_ge x.1 p with hlt | hge
    · rw [filter_lt_cons hlt, taken, taken]
      split
      · exact ih hrest
      · rw [filter_lt_cons hlt, ih hrest]
    · have hnil := filter_lt_eq_nil hA hge
      rw [hnil]
      exact List.sublist_nil.mp (hnil ▸ (taken_sublist last (x :: rest)).filter _)

/-- the last key of a map -/
def lastKey (B : List (Nat × α)) : Option Nat := B.getLast?.map Prod.fst

/-- inserting at a key that no key of the map exceeds -/
theorem insertSubArray_last {B : List (Nat × α)} {k : Nat} {a : α}
    (hB : B.Pairwise fun x y => x.1 < y.1) (hk : ∀ y ∈ B, y.1 ≤ k) :
    insertSubArray k a B = if lastKey B = some k then B else B ++ [(k, a)] := by
  induction B with
  | nil => rfl
  | cons x rest ih =>
    obtain ⟨hx, hrest⟩ := List.pairwise_cons.mp hB
    have hle := hk x List.mem_cons_self
    cases rest with
    | nil =>
      by_cases h : k = x.1
      · simp [insertSubArray, lastKey, h]
      · simp [insertSubArray, lastKey, h, Ne.symm h, show ¬ k < x.1 by omega]
    | cons y rest =>
      have hy := hx y List.mem_cons_self
      have hyk := hk y (List.mem_cons_of_mem x List.mem_cons_self)
      have hlast : lastKey (x :: y :: rest) = lastKey (y :: rest) := by
        simp [lastKey]
      rw [insertSubArray, if_neg (by omega), if_neg (by omega),
        ih hrest fun z hz => hk z (List.mem_cons_of_mem x hz), hlast]
      split <;> rfl

/-- the loop of `mergeMemoryLayout` over arrays none of which starts before one already there -/
theorem foldl_insert_taken {A B : List (Nat × α)} (hA : A.Pairwise fun x y => x.1 ≤ y.1)
    (hB : B.Pairwise fun x y => x.1 < y.1) (hAB : ∀ y ∈ B, ∀ x ∈ A, y.1 ≤ x.1) :
    A.foldl (fun arrays x => insertSubArray x.1 x.2 arrays) B = B ++ taken (lastKey B) A := by
  induction A generalizing B with
  | nil => exact (List.append_nil B).symm
  | cons x rest ih =>
    obtain ⟨hx, hrest⟩ := List.pairwise_cons.mp hA
    have hBx : ∀ y ∈ B, y.1 ≤ x.1 := fun y hy => hAB y hy x List.mem_cons_self
    rw [List.foldl_cons, insertSubArray_last hB hBx, taken]
    by_cases h : lastKey B = some x.1
    · rw [if_pos h, if_pos h]
      exact ih hrest hB fun y hy z hz => hAB y hy z (List.mem_cons_of_mem x hz)
    · have hlt : ∀ y ∈ B, y.1 < x.1 := by
        intro y hy
        refine Nat.lt_of_le_of_ne (hBx y hy) fun he => h ?_
        -- a key that none exceeds is the last one
        obtain ⟨B', z, rfl⟩ := List.eq_nil_or_concat B |>.resolve_left (List.ne_nil_of_mem hy)
        have hz : z.1 = x.1 := by
          have hzx := hBx z (by simp)
          rw [List.concat_eq_append] at hB hy
          rcases List.mem_append.mp hy with hy' | hy'
          · have := (List.pairwise_append.mp hB).2.2 y hy' z (List.mem_singleton_self z)
            omega
          · rw [← List.mem_singleton.mp hy']
            exact he
        simp [lastKey, hz]
      rw [if_neg h, if_neg h, ih hrest]
      · simp [lastKey]
      · rw [List.pairwise_append]
        refine ⟨hB, List.pairwise_singleton _ _, fun y hy z hz => ?_⟩
        rw [List.mem_singleton.mp hz]
        exact hlt y hy
      · intro y hy z hz
        rcases List.mem_append.mp hy with hy | hy
        · exact hAB y hy z (List.mem_cons_of_mem x hz)
        · rw [List.mem_singleton.mp hy]
          exact hx z hz

end

section
variable {A B : List (Nat × ArrayLayout)} {lo mid hi p : Nat}

/-- the source's loop, with `curOffset` behind the arrays passed -/
theorem indexBetweenArraysFrom_eq (h : Ordered lo A hi) (hhi : hi < 2 ^ 64) {l cur : Nat}
    (hcur : cur ≤ lo) (hp : cur ≤ p) :
    between A p (cur - l) =
      (((indexBetweenArraysFrom A p l cur).1 : Int), (indexBetweenArraysFrom A p l cur).2) := by
  induction A generalizing lo l cur with
  | nil =>
    rw [indexBetweenArraysFrom, between]
    congr 1
    push_cast [Nat.cast_sub hp]
    ring
  | cons x rest ih =>
    obtain ⟨off, arr⟩ := x
    obtain ⟨hlo, hrest⟩ := h
    have hend : (off + arr.getArraySize) % 2 ^ 64 = off + arr.getArraySize :=
      Nat.mod_eq_of_lt (hrest.le.trans_lt hhi)
    rw [indexBetweenArraysFrom, between, hend]
    dsimp only
    have hoff : cur ≤ off := hcur.trans hlo
    by_cases h1 : p ≤ off
    · rw [if_pos h1, if_pos h1]
      congr 1
      push_cast [Nat.cast_sub hp]
      ring
    · rw [if_neg h1, if_neg h1]
      by_cases h2 : off + arr.getArraySize ≤ p
      · rw [if_pos h2, if_pos h2]
        refine Eq.trans ?_ (ih hrest le_rfl h2)
        congr 1
        push_cast [Nat.cast_sub hoff]
        ring
      · rw [if_neg h2, if_neg h2]
        congr 1
        push_cast [Nat.cast_sub hoff]
        ring

/-- what the arrays before have lost is subtracted -/
theorem between_sub (d : Int) : between A p d = ((between A p 0).1 - d, (between A p 0).2) := by
  have h : ∀ s : Int, between A p (s + d) = ((between A p s).1 - d, (between A p s).2) := by
    induction A with
    | nil =>
      intro s
      exact Prod.ext (by simp only [between]; ring) rfl
    | cons x rest ih =>
      intro s
      simp only [between]
      split
      · exact Prod.ext (by ring) rfl
      · split
        · rw [← ih, add_right_comm]
        · exact Prod.ext (by ring) rfl
  rw [← h 0, zero_add]

/-- before the arrays -/
theorem between_before (h : Ordered lo A hi) (hp : p ≤ lo) (d : Int) : between A p d = (p - d, p) := by
  cases A with
  | nil => rfl
  | cons x rest => exact if_pos (hp.trans h.1)

/-- past the arrays, the last of which may be empty but starts before -/
theorem between_past (h : Ordered lo A hi) (hp : hi ≤ p) (hkey : ∀ x ∈ A, x.1 < p) (d : Int) :
    between (A ++ B) p d = between B p (d + lost A) := by
  induction A generalizing lo d with
  | nil => rw [List.nil_append, lost, add_zero]
  | cons x rest ih =>
    have hend := h.2.le.trans hp
    have hx := hkey x List.mem_cons_self
    rw [List.cons_append, between, if_neg (by omega), if_pos hend,
      ih h.2 fun y hy => hkey y (List.mem_cons_of_mem x hy), lost, add_assoc]

/-- past the arrays, if those that do not start before lose nothing -/
theorem between_past_lost (h : Ordered lo A hi) (hB : Ordered hi B mid) (hp : hi ≤ p)
    (hkey : ∀ x ∈ A, p ≤ x.1 → (x.2.getArraySize : Int) = x.2.layoutSize) (d : Int) :
    between (A ++ B) p d = between B p (d + lost A) := by
  induction A generalizing lo d with
  | nil => rw [List.nil_append, lost, add_zero]
  | cons x rest ih =>
    have hend := h.2.le.trans hp
    have hrest := ih h.2 fun y hy => hkey y (List.mem_cons_of_mem x hy)
    rcases Nat.lt_or_ge x.1 p with hx | hx
    · rw [List.cons_append, between, if_neg (by omega), if_pos hend, hrest, lost, add_assoc]
    · -- the others do not start before either
      have hzero := hkey x List.mem_cons_self hx
      have hsame := hrest d
      rw [between_before (h.2.append hB) (by omega)] at hsame
      rw [List.cons_append, between, if_pos hx, hsame, lost, hzero, sub_self, zero_add]

/-- what starts behind is not looked at -/
theorem between_filter (hA : A.Pairwise fun x y => x.1 ≤ y.1) (d : Int) :
    between (A.filter (·.1 < p)) p d = between A p d := by
  induction A generalizing d with
  | nil => rfl
  | cons x rest ih =>
    have hrest := (List.pairwise_cons.mp hA).2
    rcases Nat.lt_or_ge x.1 p with hlt | hge
    · rw [filter_lt_cons hlt, between, between, ih hrest]
    · rw [filter_lt_eq_nil hA hge, between, between, if_pos hge]

/-- not past the arrays -/
theorem between_append (hB : Ordered hi B mid) (hp : p ≤ hi) (d : Int) :
    between (A ++ B) p d = between A p d := by
  induction A generalizing d with
  | nil => exact between_before hB hp d
  | cons x rest ih => simp only [List.cons_append, between, ih]

/-- inside something that starts at `offset` -/
theorem between_shift (offset : Nat) (d : Int) :
    between (shift offset A) (p + offset) d =
      ((between A p d).1 + offset, (between A p d).2 + offset) := by
  induction A generalizing d with
  | nil => exact Prod.ext (by simp only [shift, List.map_nil, between]; push_cast; ring) rfl
  | cons x rest ih =>
    have hsub : p + offset - (x.1 + offset) = p - x.1 := Nat.add_sub_add_right p offset x.1
    have hend : x.1 + offset + x.2.getArraySize ≤ p + offset ↔ x.1 + x.2.getArraySize ≤ p := by omega
    show between ((x.1 + offset, x.2) :: shift offset rest) _ _ = _
    simp only [between, Nat.add_le_add_iff_right, hend, hsub]
    split
    · exact Prod.ext (by push_cast; ring) rfl
    · split
      · exact ih _
      · exact Prod.ext (by push_cast; ring) (by show _ = _; omega)

/-! ### the loop on arrays that start at different offsets -/

theorem indexPhysicalOffset_zero (arr : ArrayLayout) : arr.indexPhysicalOffset 0 = (0, 0) := by
  obtain ⟨n, s, l, sub⟩ := arr
  cases sub with
  | nil =>
    rw [ArrayLayout.indexPhysicalOffset, Nat.zero_mod]
  | cons x rest =>
    rw [ArrayLayout.indexPhysicalOffset, Nat.zero_mod, indexBetweenArraysFrom,
      if_pos (Nat.zero_le x.1)]

theorem between_cons_inside {x : Nat × ArrayLayout} (hxp : x.1 ≤ p)
    (hpx : p < x.1 + x.2.getArraySize) (d : Int) : between (x :: A) p d =
      ((x.2.indexPhysicalOffset (p - x.1)).1 + (x.1 - d),
        x.1 + (x.2.indexPhysicalOffset (p - x.1)).2) := by
  rw [between]
  by_cases h : p ≤ x.1
  · obtain rfl : p = x.1 := le_antisymm h hxp
    rw [if_pos h, Nat.sub_self, indexPhysicalOffset_zero]
    exact Prod.ext (by push_cast; ring) rfl
  · rw [if_neg h, if_neg (by omega)]

/-- nothing is indexed before the arrays -/
theorem le_between (h : Ordered lo A hi) (hp : lo ≤ p) (d : Int) : lo - d ≤ (between A p d).1 := by
  induction A generalizing lo d with
  | nil =>
    show (lo : Int) - d ≤ p - d
    omega
  | cons x rest ih =>
    obtain ⟨hlo, hrest⟩ := h
    rw [between]
    split
    · dsimp only
      omega
    · split
      · next hpast =>
        have := ih hrest hpast (d + (x.2.getArraySize - x.2.layoutSize))
        omega
      · dsimp only
        omega

/-- the offset is left as it is outside the arrays -/
theorem between_outside (h : ∀ x ∈ A, p ≤ x.1 ∨ x.1 + x.2.getArraySize ≤ p) (d : Int) :
    (between A p d).2 = p := by
  induction A generalizing d with
  | nil => rfl
  | cons x rest ih =>
    rw [between]
    split
    · rfl
    · next hlt =>
      rw [if_pos ((h x List.mem_cons_self).resolve_left hlt)]
      exact ih (fun y hy => h y (.tail _ hy)) _

/-- in one array -/
theorem between_in (h : Ordered lo A hi) (hkeys : A.Pairwise fun x y => x.1 < y.1)
    {x : Nat × ArrayLayout} (hx : x ∈ A) (d : Int) : ∃ base : Int, ∀ p, x.1 ≤ p →
      p < x.1 + x.2.getArraySize → between A p d =
        ((x.2.indexPhysicalOffset (p - x.1)).1 + base, x.1 + (x.2.indexPhysicalOffset (p - x.1)).2) := by
  induction A generalizing lo d with
  | nil => exact absurd hx List.not_mem_nil
  | cons y rest ih =>
    obtain ⟨hy, hrest⟩ := List.pairwise_cons.mp hkeys
    rcases List.mem_cons.mp hx with rfl | hx
    · exact ⟨x.1 - d, fun p hxp hpx => between_cons_inside hxp hpx d⟩
    · obtain ⟨base, hbase⟩ := ih h.2 hrest hx (d + (y.2.getArraySize - y.2.layoutSize))
      refine ⟨base, fun p hxp hpx => ?_⟩
      have hlt := hy x hx
      have hend := (h.2.key_le hx).1
      rw [between, if_neg (by omega), if_pos (by omega)]
      exact hbase p hxp hpx

/-- the loop keeps the order of offsets, if every array keeps the one of those inside it -/
theorem between_lt (h : Ordered lo A hi) {c c' : Nat} (hcc : c < c')
    (hsize : ∀ x ∈ A, 0 < x.2.layoutSize)
    (hin : ∀ x ∈ A, x.1 ≤ c → c < x.1 + x.2.getArraySize →
      (x.2.indexPhysicalOffset (c - x.1)).1 < x.2.layoutSize ∧
        (c' < x.1 + x.2.getArraySize →
          (x.2.indexPhysicalOffset (c - x.1)).1 < (x.2.indexPhysicalOffset (c' - x.1)).1))
    (d : Int) : (between A c d).1 < (between A c' d).1 := by
  induction A generalizing lo d with
  | nil =>
    show (c : Int) - d < c' - d
    omega
  | cons x rest ih =>
    have hpos := hsize x List.mem_cons_self
    have hx := hin x List.mem_cons_self
    -- behind the array
    have hbehind : x.1 < c' → x.1 + x.2.getArraySize ≤ c' →
        x.1 - d + x.2.layoutSize ≤ (between (x :: rest) c' d).1 := by
      intro hlt hend
      have hle := le_between h.2 hend (d + (x.2.getArraySize - x.2.layoutSize))
      rw [between, if_neg (by omega), if_pos hend]
      push_cast at hle
      linarith
    rcases Nat.lt_or_ge c x.1 with hc | hc
    · have hbefore : (between (x :: rest) c d).1 = c - d := by
        rw [between, if_pos hc.le]
      rw [hbefore]
      rcases Nat.lt_or_ge c' (x.1 + x.2.getArraySize) with hc' | hc'
      · rcases Nat.lt_or_ge c' x.1 with hlt | hge
        · rw [between, if_pos hlt.le]
          dsimp only
          omega
        · rw [between_cons_inside hge hc']
          dsimp only
          omega
      · rcases Nat.lt_or_ge x.1 c' with hlt | hge
        · have := hbehind hlt hc'
          omega
        · rw [between, if_pos hge]
          dsimp only
          omega
    · rcases Nat.lt_or_ge c (x.1 + x.2.getArraySize) with hin' | hout
      · obtain ⟨hlt, hmono⟩ := hx hc hin'
        rw [between_cons_inside hc hin']
        dsimp only
        rcases Nat.lt_or_ge c' (x.1 + x.2.getArraySize) with hc' | hc'
        · rw [between_cons_inside (by omega) hc']
          have := hmono hc'
          dsimp only
          omega
        · have := hbehind (by omega) hc'
          omega
      · rcases Nat.lt_or_ge x.1 c with hlt | hge
        · rw [between, if_neg (by omega), if_pos hout, between, if_neg (by omega),
            if_pos (by omega)]
          exact ih h.2 (fun y hy => hsize y (.tail _ hy)) (fun y hy => hin y (.tail _ hy)) _
        · -- an array without size at the offset itself
          have := hbehind (by omega) (by omega)
          rw [between, if_pos hge]
          dsimp only
          omega

theorem lost_append : lost (A ++ B) = lost A + lost B := by
  induction A with
  | nil => exact (zero_add _).symm
  | cons x rest ih => rw [List.cons_append, lost, lost, ih, add_assoc]

theorem lost_shift (offset : Nat) : lost (shift offset A) = lost A := by
  induction A with
  | nil => rfl
  | cons x rest ih =>
    show _ + lost (shift offset rest) = _
    rw [ih, lost]

end

end AserPTA
