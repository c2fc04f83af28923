import Mathlib.Data.Fintype.Basic
import Mathlib.Data.Finset.Card
import Mathlib.Logic.Relation

/-!
# Wrappers of heap allocation

A caller of a heap API is a wrapper if what the API returns flows through phi nodes and casts to a
`return`.  The uses of the call are on a stack; a use that is a phi node or a cast is replaced by its
first user, unless that is on the stack already.  The names of wrappers are heap APIs, too.

* `IRModule`, `Fn`              what the pass reads of a module;
* `useChainLoop`                the uses of one call;
* `inlineHeapWrapperAPIs`       the worklist of heap APIs;
* `Follows`, `Finds`            where the first users lead;
* `useChainLoop_iff`            they decide what the loop returns, and whether it does;
* `FirstUsersReturn`            it finds a `return`, in terms of the use lists;
* `terminates_iff`              when the pass terminates;
* `marked_iff`                  which functions it marks.
-/

namespace AserPTA.WrapperFunIdentify

/-- the instructions that the pass tells apart; `call` is a `CallBase` -/
inductive Kind
  | call
  | phi
  | bitCast
  | ret
  | other
  deriving DecidableEq

/-- a function; `uses` are the users of its uses, and whether they call it there -/
structure Fn (V : Type) where
  name : String
  instructionCount : Nat
  returnsPointer : Bool
  uses : List (V × Bool)

/-- a module; named functions have different names -/
structure IRModule (V : Type) where
  functions : List (Fn V)
  distinct : ∀ i j : Fin functions.length, (functions.get i).name = (functions.get j).name →
    (functions.get i).name ≠ "" → i = j
  kind : V → Kind
  users : V → List V
  -- the function that an instruction is in
  getFunction : V → Fin functions.length
  -- the base name that the demangler finds in a mangled name
  getFunctionBaseName : String → Option String

/-! ## the heuristics -/

/-- `StringRef::contains` -/
def contains (s t : String) : Bool := s.toList.tails.any fun u => t.toList.isPrefixOf u

def isItaniumEncoding (mangledName : String) : Bool :=
  let rest := mangledName.toList.dropWhile (· == '_')
  let pos := mangledName.toList.length - rest.length
  0 < pos && pos ≤ 4 && rest.head? == some 'Z'

namespace IRModule

variable {V : Type} (M : IRModule V)

/-- `Module::getFunction` -/
def lookup (name : String) : Option (Fn V) :=
  M.functions.find? fun f => f.name = name ∧ name ≠ ""

/-- the function that a call is in -/
def caller (v : V) : Fn V := M.functions.get (M.getFunction v)

def funBaseName (f : Fn V) : Option String :=
  if isItaniumEncoding f.name then M.getFunctionBaseName f.name else some f.name

/-- the function is small, has the name of an allocator and returns a pointer -/
def isCandidate (f : Fn V) : Bool :=
  decide (f.instructionCount ≤ 100) &&
    (match M.funBaseName f with
      | none => false
      | some name => contains name "alloc" || contains name "Alloc" || contains name "new" ||
          contains name "New") &&
    f.returnsPointer

/-! ## the use chain -/

section
variable [DecidableEq V]

/-- `pushNonRecursivePhi`: the loop over the users returns at the first one -/
def pushNonRecursivePhi (use : V) (useChain : List V) : Bool × List V :=
  match M.users use with
  | [] => (true, useChain)
  | phiUser :: _ => if phiUser ∈ useChain then (false, useChain) else (true, phiUser :: useChain)

/-- the loop over the use chain, whose last element is the first of the list: does it find a `return`? -/
def useChainLoop : Nat → List V → Option Bool
  | _, [] => some false
  | 0, _ :: _ => none
  | fuel + 1, use :: useChain =>
    match M.kind use with
    | .ret => some true
    | .phi | .bitCast =>
      let r := M.pushNonRecursivePhi use useChain
      if r.1 then useChainLoop fuel r.2 else some false
    | .call | .other => useChainLoop fuel useChain

/-- the uses of a call, the last one on top -/
def useChain (allocSite : V) : List V := (M.users allocSite).reverse

end

end IRModule

/-- `workList` is a stack, `alwaysInline` are the functions that were marked -/
structure State where
  heapAPIs : List String
  workList : List String
  alwaysInline : List String
  deriving DecidableEq

/-- the caller is a wrapper -/
def State.wrapper (s : State) (name : String) : State where
  heapAPIs := if name ∈ s.heapAPIs then s.heapAPIs else name :: s.heapAPIs
  workList := if name ∈ s.heapAPIs then s.workList else name :: s.workList
  alwaysInline := name :: s.alwaysInline

namespace IRModule

variable {V : Type} [DecidableEq V] (M : IRModule V)

/-- one user of a heap API -/
def visitUser (fuel : Nat) (s : State) (user : V) : Option State :=
  if M.kind user = .call ∧ M.isCandidate (M.caller user) then do
    let found ← M.useChainLoop fuel (M.useChain user)
    return if found then s.wrapper (M.caller user).name else s
  else return s

/-- one heap API -/
def visitAPI (fuel : Nat) (s : State) (allocAPI : String) : Option State :=
  match M.lookup allocAPI with
  | none => return s
  | some allocFun => (allocFun.uses.map Prod.fst).foldlM (M.visitUser fuel) s

/-- the worklist -/
def workListLoop : Nat → State → Option State
  | 0, s => if s.workList = [] then some s else none
  | fuel + 1, s =>
    match s.workList with
    | [] => some s
    | allocAPI :: rest => do
      let s ← M.visitAPI fuel { s with workList := rest } allocAPI
      workListLoop fuel s

/-- `inlineHeapWrapperAPIs`, with the elements of `HeapAPIs` in order -/
def inlineHeapWrapperAPIs (fuel : Nat) (heapAPIs : List String) : Option State :=
  M.workListLoop fuel ⟨heapAPIs, heapAPIs.reverse, []⟩

end IRModule
/-! ## first users -/

/-- where the first users of a use lead: to a `return`, to an end, or to an earlier use -/
inductive Outcome
  | returns
  | ends
  | stops

/-- what the loop returns then, given what it returns for the earlier uses -/
def Outcome.result : Outcome → Option Bool → Option Bool
  | returns, _ => some true
  | ends, rest => rest
  | stops, _ => some false

namespace IRModule

variable {V : Type} {M : IRModule V}

/-- phi nodes and casts -/
def Through (M : IRModule V) (v : V) : Prop := M.kind v = .phi ∨ M.kind v = .bitCast

def firstUser (M : IRModule V) (v : V) : Option V := (M.users v).head?

/-- following the first users of phi nodes and casts, off the uses that come before -/
inductive Follows (M : IRModule V) (before : List V) : V → Outcome → Prop
  | ret {u} : M.kind u = .ret → Follows M before u .returns
  | other {u} : ¬ M.Through u → M.kind u ≠ .ret → Follows M before u .ends
  | unused {u} : M.Through u → M.firstUser u = none → Follows M before u .ends
  | met {u u'} : M.Through u → M.firstUser u = some u' → u' ∈ before → Follows M before u .stops
  | step {u u' o} : M.Through u → M.firstUser u = some u' → u' ∉ before → Follows M before u' o →
      Follows M before u o

/-- whether the uses, the last of them at the head, lead to a `return` before they stop -/
inductive Finds (M : IRModule V) : List V → Bool → Prop
  | nil : Finds M [] false
  | returns {u before} : Follows M before u .returns → Finds M (u :: before) true
  | stops {u before} : Follows M before u .stops → Finds M (u :: before) false
  | ends {u before found} : Follows M before u .ends → Finds M before found →
      Finds M (u :: before) found

theorem Finds.step {u u' : V} {before : List V} {found : Bool} (hu : M.Through u)
    (hfirst : M.firstUser u = some u') (hmem : u' ∉ before) (h : M.Finds (u' :: before) found) :
    M.Finds (u :: before) found := by
  cases h with
  | returns h => exact .returns (.step hu hfirst hmem h)
  | stops h => exact .stops (.step hu hfirst hmem h)
  | ends h hrest => exact .ends (.step hu hfirst hmem h) hrest

/-- following first users from a use goes on forever -/
def Loops (M : IRModule V) (before : List V) (u : V) : Prop :=
  ∀ n, ∃ x, (fun o => o.bind M.firstUser)^[n] (some u) = some x ∧ M.Through x ∧ (n ≠ 0 → x ∉ before)

/-- no use does so, from the last one on, as long as those behind end without a `return` -/
def Settles (M : IRModule V) : List V → Prop
  | [] => True
  | u :: before => ¬ M.Loops before u ∧ (M.Follows before u .ends → Settles M before)

theorem not_through_of_ret {u : V} (h : M.kind u = .ret) : ¬ M.Through u := by
  rintro (h' | h') <;> rw [h] at h' <;> cases h'

theorem Follows.through {u : V} {before : List V} {o : Outcome} (h : M.Follows before u o)
    (hu : M.Through u) : M.firstUser u = none ∧ o = .ends ∨ ∃ u', M.firstUser u = some u' ∧
      (u' ∈ before ∧ o = .stops ∨ u' ∉ before ∧ M.Follows before u' o) := by
  cases h with
  | ret hret => exact absurd hu (not_through_of_ret hret)
  | other hu' _ => exact absurd hu hu'
  | unused _ hfirst => exact .inl ⟨hfirst, rfl⟩
  | met _ hfirst hmem => exact .inr ⟨_, hfirst, .inl ⟨hmem, rfl⟩⟩
  | step _ hfirst hmem h => exact .inr ⟨_, hfirst, .inr ⟨hmem, h⟩⟩

theorem Follows.unique {u : V} {before : List V} {o o' : Outcome} (h : M.Follows before u o)
    (h' : M.Follows before u o') : o = o' := by
  induction h with
  | ret hret =>
    cases h' with
    | ret _ => rfl
    | other _ hret' => exact absurd hret hret'
    | unused hu _ => exact absurd hu (not_through_of_ret hret)
    | met hu _ _ => exact absurd hu (not_through_of_ret hret)
    | step hu _ _ _ => exact absurd hu (not_through_of_ret hret)
  | other hu hret =>
    cases h' with
    | ret hret' => exact absurd hret' hret
    | other _ _ => rfl
    | unused hu' _ => exact absurd hu' hu
    | met hu' _ _ => exact absurd hu' hu
    | step hu' _ _ _ => exact absurd hu' hu
  | unused hu hfirst =>
    rcases h'.through hu with ⟨-, rfl⟩ | ⟨u', hfirst', -⟩
    · rfl
    · rw [hfirst] at hfirst'
      cases hfirst'
  | met hu hfirst hmem =>
    rcases h'.through hu with ⟨hnone, -⟩ | ⟨u', hfirst', hcases⟩
    · rw [hfirst] at hnone
      cases hnone
    · obtain rfl := Option.some.inj (hfirst.symm.trans hfirst')
      rcases hcases with ⟨-, rfl⟩ | ⟨hmem', -⟩
      · rfl
      · exact absurd hmem hmem'
  | step hu hfirst hmem _ ih =>
    rcases h'.through hu with ⟨hnone, -⟩ | ⟨u', hfirst', hcases⟩
    · rw [hfirst] at hnone
      cases hnone
    · obtain rfl := Option.some.inj (hfirst.symm.trans hfirst')
      rcases hcases with ⟨hmem', -⟩ | ⟨-, h'⟩
      · exact absurd hmem' hmem
      · exact ih h'

/-- first users lead somewhere unless they go on forever -/
theorem follows_iff {u : V} {before : List V} :
    (∃ o, M.Follows before u o) ↔ ¬ M.Loops before u := by
  constructor
  · rintro ⟨o, h⟩ hloops
    induction h with
    | ret hret =>
      obtain ⟨x, hx, hthrough, -⟩ := hloops 0
      obtain rfl := Option.some.inj hx
      exact not_through_of_ret hret hthrough
    | other hu _ =>
      obtain ⟨x, hx, hthrough, -⟩ := hloops 0
      obtain rfl := Option.some.inj hx
      exact hu hthrough
    | unused _ hfirst =>
      obtain ⟨x, hx, -⟩ := hloops 1
      exact nomatch hfirst.symm.trans hx
    | met _ hfirst hmem =>
      obtain ⟨x, hx, -, hx'⟩ := hloops 1
      obtain rfl := Option.some.inj (hfirst.symm.trans hx)
      exact hx' Nat.one_ne_zero hmem
    | @step u u' o hu hfirst hmem _ ih =>
      refine ih fun n => ?_
      obtain ⟨x, hx, hthrough, hx'⟩ := hloops (n + 1)
      rw [Function.iterate_succ_apply, Option.bind_some, hfirst] at hx
      exact ⟨x, hx, hthrough, fun _ => hx' (Nat.succ_ne_zero n)⟩
  · intro hloops
    obtain ⟨n, hn⟩ := not_forall.mp hloops
    clear hloops
    induction n generalizing u with
    | zero =>
      have hu : ¬ M.Through u := fun hu => hn ⟨u, rfl, hu, fun h => absurd rfl h⟩
      by_cases hret : M.kind u = .ret
      · exact ⟨_, .ret hret⟩
      · exact ⟨_, .other hu hret⟩
    | succ n ih =>
      by_cases hu : M.Through u
      · cases hfirst : M.firstUser u with
        | none => exact ⟨_, .unused hu hfirst⟩
        | some u' =>
          by_cases hmem : u' ∈ before
          · exact ⟨_, .met hu hfirst hmem⟩
          · have hrest : ∃ o, M.Follows before u' o := by
              refine ih fun hex => hn ?_
              obtain ⟨x, hx, hthrough, hx'⟩ := hex
              refine ⟨x, ?_, hthrough, fun _ => ?_⟩
              · rw [Function.iterate_succ_apply, Option.bind_some, hfirst]
                exact hx
              · by_cases hn0 : n = 0
                · subst hn0
                  obtain rfl := Option.some.inj hx
                  exact hmem
                · exact hx' hn0
            obtain ⟨o, ho⟩ := hrest
            exact ⟨o, .step hu hfirst hmem ho⟩
      · by_cases hret : M.kind u = .ret
        · exact ⟨_, .ret hret⟩
        · exact ⟨_, .other hu hret⟩

theorem settles_iff {s : List V} : (∃ found, M.Finds s found) ↔ M.Settles s := by
  induction s with
  | nil => exact iff_of_true ⟨false, .nil⟩ trivial
  | cons u before ih =>
    rw [Settles, ← follows_iff, ← ih]
    constructor
    · rintro ⟨found, h⟩
      cases h with
      | returns h => exact ⟨⟨_, h⟩, fun h' => nomatch h.unique h'⟩
      | stops h => exact ⟨⟨_, h⟩, fun h' => nomatch h.unique h'⟩
      | ends h hrest => exact ⟨⟨_, h⟩, fun _ => ⟨found, hrest⟩⟩
    · rintro ⟨⟨o, h⟩, hrest⟩
      cases o with
      | returns => exact ⟨true, .returns h⟩
      | stops => exact ⟨false, .stops h⟩
      | ends =>
        obtain ⟨found, hfound⟩ := hrest h
        exact ⟨found, .ends h hfound⟩

section
variable [DecidableEq V]

/-- the loop at a phi node or cast -/
theorem useChainLoop_through {u : V} (hu : M.Through u) (before : List V) (fuel : Nat) :
    M.useChainLoop (fuel + 1) (u :: before) =
      match M.firstUser u with
      | none => M.useChainLoop fuel before
      | some u' => if u' ∈ before then some false else M.useChainLoop fuel (u' :: before) := by
  have hpush : M.useChainLoop (fuel + 1) (u :: before) =
      if (M.pushNonRecursivePhi u before).1 then
        M.useChainLoop fuel (M.pushNonRecursivePhi u before).2
      else some false := by
    rw [useChainLoop]
    rcases hu with hu | hu <;> rw [hu]
  rw [hpush, pushNonRecursivePhi, firstUser]
  cases M.users u with
  | nil => rfl
  | cons u' rest =>
    show (if (if u' ∈ before then _ else _ : Bool × List V).1 then _ else _) = if u' ∈ before then _ else _
    by_cases hmem : u' ∈ before
    · simp [hmem]
    · simp [hmem]

theorem useChainLoop_ret {u : V} (hu : M.kind u = .ret) (before : List V) (fuel : Nat) :
    M.useChainLoop (fuel + 1) (u :: before) = some true := by
  rw [useChainLoop, hu]

theorem useChainLoop_other {u : V} (hu : ¬ M.Through u) (hret : M.kind u ≠ .ret) (before : List V)
    (fuel : Nat) : M.useChainLoop (fuel + 1) (u :: before) = M.useChainLoop fuel before := by
  rw [useChainLoop]
  cases hk : M.kind u with
  | call => rfl
  | phi => exact absurd (.inl hk) hu
  | bitCast => exact absurd (.inr hk) hu
  | ret => exact absurd hk hret
  | other => rfl

theorem useChainLoop_mono {fuel fuel' : Nat} {s : List V} {found : Bool}
    (h : M.useChainLoop fuel s = some found) (hle : fuel ≤ fuel') :
    M.useChainLoop fuel' s = some found := by
  induction fuel generalizing fuel' s with
  | zero =>
    cases s with
    | nil =>
      rw [useChainLoop] at h ⊢
      exact h
    | cons u before =>
      rw [useChainLoop] at h
      cases h
  | succ fuel ih =>
    cases s with
    | nil =>
      rw [useChainLoop] at h ⊢
      exact h
    | cons u before =>
      obtain ⟨n, rfl⟩ : ∃ n, fuel' = n + 1 := ⟨fuel' - 1, by omega⟩
      have hle' : fuel ≤ n := by omega
      by_cases hu : M.Through u
      · rw [useChainLoop_through hu] at h ⊢
        cases hfirst : M.firstUser u with
        | none =>
          rw [hfirst] at h
          exact ih h hle'
        | some u' =>
          rw [hfirst] at h
          dsimp only at h ⊢
          split at h
          · next hmem =>
            rw [if_pos hmem]
            exact h
          · next hmem =>
            rw [if_neg hmem]
            exact ih h hle'
      · by_cases hret : M.kind u = .ret
        · rw [useChainLoop_ret hret] at h ⊢
          exact h
        · rw [useChainLoop_other hu hret] at h ⊢
          exact ih h hle'

/-- the loop until the use is popped for good -/
theorem Follows.loop {u : V} {before : List V} {o : Outcome} (h : M.Follows before u o) :
    ∃ n, ∀ fuel, M.useChainLoop (fuel + n) (u :: before) =
      o.result (M.useChainLoop fuel before) := by
  induction h with
  | ret hu => exact ⟨1, fun fuel => useChainLoop_ret hu _ fuel⟩
  | other hu hret => exact ⟨1, fun fuel => useChainLoop_other hu hret _ fuel⟩
  | unused hu hfirst =>
    refine ⟨1, fun fuel => ?_⟩
    rw [useChainLoop_through hu, hfirst]
    rfl
  | met hu hfirst hmem =>
    refine ⟨1, fun fuel => ?_⟩
    rw [useChainLoop_through hu, hfirst]
    exact if_pos hmem
  | step hu hfirst hmem _ ih =>
    obtain ⟨n, hn⟩ := ih
    refine ⟨n + 1, fun fuel => ?_⟩
    rw [← Nat.add_assoc, useChainLoop_through hu, hfirst]
    exact (if_neg hmem).trans (hn fuel)

/-- the loop returns what the first users lead to, if they lead anywhere -/
theorem useChainLoop_iff {s : List V} {found : Bool} :
    (∃ fuel, M.useChainLoop fuel s = some found) ↔ M.Finds s found := by
  constructor
  · rintro ⟨fuel, h⟩
    induction fuel generalizing s with
    | zero =>
      cases s with
      | nil =>
        rw [useChainLoop] at h
        obtain rfl := Option.some.inj h
        exact .nil
      | cons u before =>
        rw [useChainLoop] at h
        cases h
    | succ fuel ih =>
      cases s with
      | nil =>
        rw [useChainLoop] at h
        obtain rfl := Option.some.inj h
        exact .nil
      | cons u before =>
        by_cases hu : M.Through u
        · rw [useChainLoop_through hu] at h
          cases hfirst : M.firstUser u with
          | none =>
            rw [hfirst] at h
            exact .ends (.unused hu hfirst) (ih h)
          | some u' =>
            rw [hfirst] at h
            dsimp only at h
            split at h
            · next hmem =>
              obtain rfl := Option.some.inj h
              exact .stops (.met hu hfirst hmem)
            · next hmem => exact (ih h).step hu hfirst hmem
        · by_cases hret : M.kind u = .ret
          · rw [useChainLoop_ret hret] at h
            obtain rfl := Option.some.inj h
            exact .returns (.ret hret)
          · rw [useChainLoop_other hu hret] at h
            exact .ends (.other hu hret) (ih h)
  · intro h
    induction h with
    | nil => exact ⟨0, by rw [useChainLoop]⟩
    | returns h =>
      obtain ⟨n, hn⟩ := h.loop
      exact ⟨0 + n, hn 0⟩
    | stops h =>
      obtain ⟨n, hn⟩ := h.loop
      exact ⟨0 + n, hn 0⟩
    | ends h _ ih =>
      obtain ⟨n, hn⟩ := h.loop
      obtain ⟨fuel, hfuel⟩ := ih
      exact ⟨fuel + n, (hn fuel).trans hfuel⟩

theorem Finds.unique {s : List V} {found found' : Bool} (h : M.Finds s found)
    (h' : M.Finds s found') : found = found' := by
  obtain ⟨fuel, hfuel⟩ := useChainLoop_iff.mpr h
  obtain ⟨fuel', hfuel'⟩ := useChainLoop_iff.mpr h'
  have hmax := useChainLoop_mono hfuel (Nat.le_max_left fuel fuel')
  have hmax' := useChainLoop_mono hfuel' (Nat.le_max_right fuel fuel')
  exact Option.some.inj (hmax.symm.trans hmax')

end

/-! ## first users in the use lists -/

/-- from a phi node or cast to its first user, off the uses that come before -/
def FirstUse (M : IRModule V) (before : List V) (u u' : V) : Prop :=
  M.Through u ∧ M.firstUser u = some u' ∧ u' ∉ before

def LeadsToReturn (M : IRModule V) (before : List V) (u : V) : Prop :=
  ∃ r, Relation.ReflTransGen (M.FirstUse before) u r ∧ M.kind r = .ret

/-- to another instruction, or to a phi node or cast that is not used -/
def LeadsElsewhere (M : IRModule V) (before : List V) (u : V) : Prop :=
  ∃ w, Relation.ReflTransGen (M.FirstUse before) u w ∧ M.kind w ≠ .ret ∧ (M.Through w → M.users w = [])

/-- first users lead from one of the users to a `return`, and from each user behind it elsewhere; they do
not meet the users before -/
def FirstUsersReturn (M : IRModule V) (v : V) : Prop :=
  ∃ (k : Nat) (u : V), (M.users v)[k]? = some u ∧ M.LeadsToReturn ((M.users v).take k) u ∧
    ∀ (j : Nat) (u' : V), k < j → (M.users v)[j]? = some u' → M.LeadsElsewhere ((M.users v).take j) u'

theorem firstUser_eq_none {u : V} : M.firstUser u = none ↔ M.users u = [] := List.head?_eq_none_iff

theorem follows_returns_iff {before : List V} {u : V} :
    M.Follows before u .returns ↔ M.LeadsToReturn before u := by
  constructor
  · intro h
    generalize ho : Outcome.returns = o at h
    induction h with
    | ret hu => exact ⟨_, .refl, hu⟩
    | other _ _ => cases ho
    | unused _ _ => cases ho
    | met _ _ _ => cases ho
    | step hu hfirst hmem _ ih =>
      obtain ⟨r, hr, hret⟩ := ih ho
      exact ⟨r, .head ⟨hu, hfirst, hmem⟩ hr, hret⟩
  · rintro ⟨r, hr, hret⟩
    induction hr using Relation.ReflTransGen.head_induction_on with
    | refl => exact .ret hret
    | head hu _ ih => exact .step hu.1 hu.2.1 hu.2.2 ih

theorem follows_ends_iff {before : List V} {u : V} :
    M.Follows before u .ends ↔ M.LeadsElsewhere before u := by
  constructor
  · intro h
    generalize ho : Outcome.ends = o at h
    induction h with
    | ret _ => cases ho
    | other hu hret => exact ⟨_, .refl, hret, fun h => absurd h hu⟩
    | unused hu hfirst =>
      exact ⟨_, .refl, fun hret => not_through_of_ret hret hu, fun _ => firstUser_eq_none.mp hfirst⟩
    | met _ _ _ => cases ho
    | step hu hfirst hmem _ ih =>
      obtain ⟨w, hw, hend⟩ := ih ho
      exact ⟨w, .head ⟨hu, hfirst, hmem⟩ hw, hend⟩
  · rintro ⟨w, hw, hret, hend⟩
    induction hw using Relation.ReflTransGen.head_induction_on with
    | refl =>
      by_cases hu : M.Through w
      · exact .unused hu (firstUser_eq_none.mpr (hend hu))
      · exact .other hu hret
    | head hu _ ih => exact .step hu.1 hu.2.1 hu.2.2 ih

theorem finds_cons {u : V} {before : List V} : M.Finds (u :: before) true ↔
    M.Follows before u .returns ∨ M.Follows before u .ends ∧ M.Finds before true := by
  constructor
  · intro h
    cases h with
    | returns h => exact .inl h
    | ends h hrest => exact .inr ⟨h, hrest⟩
  · rintro (h | ⟨h, hrest⟩)
    · exact .returns h
    · exact .ends h hrest

/-- the loop finds a `return` exactly then -/
theorem finds_useChain_iff {v : V} : M.Finds (M.useChain v) true ↔ M.FirstUsersReturn v := by
  rw [FirstUsersReturn, useChain]
  induction M.users v using List.reverseRecOn with
  | nil =>
    refine iff_of_false (by exact nofun) ?_
    rintro ⟨k, u, hu, -⟩
    cases hu
  | append_singleton l u ih =>
    have hbefore : M.FirstUse l.reverse = M.FirstUse l := by
      funext u u'
      rw [FirstUse, FirstUse, List.mem_reverse]
    have hreturns : M.Follows l.reverse u .returns ↔ M.LeadsToReturn l u := by
      rw [follows_returns_iff, LeadsToReturn, hbefore, LeadsToReturn]
    have hends : M.Follows l.reverse u .ends ↔ M.LeadsElsewhere l u := by
      rw [follows_ends_iff, LeadsElsewhere, hbefore, LeadsElsewhere]
    have hget : ∀ {k u'}, (l ++ [u])[k]? = some u' →
        k < l.length ∧ l[k]? = some u' ∨ k = l.length ∧ u' = u := by
      intro k u' h
      rcases Nat.lt_trichotomy k l.length with hk | rfl | hk
      · rw [List.getElem?_append_left hk] at h
        exact .inl ⟨hk, h⟩
      · rw [List.getElem?_concat_length] at h
        exact .inr ⟨rfl, (Option.some.inj h).symm⟩
      · rw [List.getElem?_eq_none (by rw [List.length_append]; exact hk)] at h
        cases h
    have htake : ∀ {k}, k ≤ l.length → (l ++ [u]).take k = l.take k := List.take_append_of_le_length
    have hself : (l ++ [u]).take l.length = l := (htake le_rfl).trans List.take_length
    rw [List.reverse_concat, finds_cons, hreturns, hends, ih]
    constructor
    · rintro (h | ⟨h, k, u', hu', hreturn, hbehind⟩)
      · refine ⟨l.length, u, List.getElem?_concat_length, hself.symm ▸ h, fun j u' hj hu' => ?_⟩
        rcases hget hu' with ⟨hlt, -⟩ | ⟨rfl, -⟩ <;> omega
      · have hk := (List.getElem?_eq_some_iff.mp hu').1
        refine ⟨k, u', by rwa [List.getElem?_append_left hk], by rwa [htake hk.le], fun j u'' hj hu'' => ?_⟩
        rcases hget hu'' with ⟨hlt, hu''⟩ | ⟨rfl, rfl⟩
        · rw [htake hlt.le]
          exact hbehind j u'' hj hu''
        · rwa [hself]
    · rintro ⟨k, u', hu', hreturn, hbehind⟩
      rcases hget hu' with ⟨hk, hu'⟩ | ⟨rfl, rfl⟩
      · refine .inr ⟨?_, k, u', hu', by rwa [htake hk.le] at hreturn, fun j u'' hj hu'' => ?_⟩
        · have h := hbehind l.length u hk List.getElem?_concat_length
          rwa [hself] at h
        · have hlt := (List.getElem?_eq_some_iff.mp hu'').1
          have h := hbehind j u'' hj (by rwa [List.getElem?_append_left hlt])
          rwa [htake hlt.le] at h
      · rw [hself] at hreturn
        exact .inl hreturn

/-! ## heap APIs -/

/-- a call in a candidate that uses the heap API -/
def Site (M : IRModule V) (allocAPI : String) (v : V) : Prop :=
  ∃ allocFun, M.lookup allocAPI = some allocFun ∧ v ∈ allocFun.uses.map Prod.fst ∧
    M.kind v = .call ∧ M.isCandidate (M.caller v)

/-- the listed APIs, and the callers of their wrappers -/
inductive Reached (M : IRModule V) (heapAPIs : List String) : String → Prop
  | listed {api} : api ∈ heapAPIs → Reached M heapAPIs api
  | wrapper {api v} : Reached M heapAPIs api → M.Site api v → M.FirstUsersReturn v →
      Reached M heapAPIs (M.caller v).name

/-- the uses of the call of the heap API lead somewhere, and if it is to a `return`, the caller was
marked -/
def Visited (M : IRModule V) (s : State) (v : V) : Prop :=
  ∃ found, M.Finds (M.useChain v) found ∧ (found = true → (M.caller v).name ∈ s.alwaysInline)

/-- the state of the worklist loop, where `P` are the heap APIs that are being visited -/
structure Inv (M : IRModule V) (heapAPIs : List String) (P : String → Prop) (s : State) : Prop where
  listed : ∀ api ∈ heapAPIs, api ∈ s.heapAPIs
  reached : ∀ api ∈ s.heapAPIs, M.Reached heapAPIs api
  workList : ∀ api ∈ s.workList, api ∈ s.heapAPIs
  alwaysInline : ∀ name ∈ s.alwaysInline, name ∈ s.heapAPIs ∧ ∃ api v, M.Reached heapAPIs api ∧
    M.Site api v ∧ M.FirstUsersReturn v ∧ (M.caller v).name = name
  visited : ∀ api ∈ s.heapAPIs, api ∈ s.workList ∨ (∀ v, M.Site api v → M.Visited s v) ∨ P api

variable {heapAPIs : List String} {P : String → Prop} {s s' : State}

theorem State.mem_heapAPIs {name n : String} :
    n ∈ (s.wrapper name).heapAPIs ↔ n ∈ s.heapAPIs ∨ n = name := by
  rw [State.wrapper]
  dsimp only
  split
  · next h =>
    refine ⟨.inl, ?_⟩
    rintro (h' | rfl)
    · exact h'
    · exact h
  · rw [List.mem_cons, or_comm]

theorem State.mem_workList {name n : String} :
    n ∈ (s.wrapper name).workList ↔ n ∈ s.workList ∨ n = name ∧ name ∉ s.heapAPIs := by
  rw [State.wrapper]
  dsimp only
  split
  · next h => exact ⟨.inl, fun h' => h'.resolve_right fun h'' => h''.2 h⟩
  · next h => rw [List.mem_cons, or_comm, and_iff_left h]

theorem Visited.mono {v : V} (h : M.Visited s v) (hsub : ∀ n ∈ s.alwaysInline, n ∈ s'.alwaysInline) :
    M.Visited s' v := by
  obtain ⟨found, hfinds, himp⟩ := h
  exact ⟨found, hfinds, fun hf => hsub _ (himp hf)⟩

/-- a wrapper is found -/
theorem Inv.wrapper (h : M.Inv heapAPIs P s) {api : String} {v : V} (hapi : M.Reached heapAPIs api)
    (hv : M.Site api v) (hreturn : M.FirstUsersReturn v) :
    M.Inv heapAPIs P (s.wrapper (M.caller v).name) where
  listed api hmem := State.mem_heapAPIs.mpr (.inl (h.listed api hmem))
  reached n hn := by
    rcases State.mem_heapAPIs.mp hn with hn | rfl
    · exact h.reached n hn
    · exact .wrapper hapi hv hreturn
  workList n hn := by
    rcases State.mem_workList.mp hn with hn | ⟨rfl, -⟩
    · exact State.mem_heapAPIs.mpr (.inl (h.workList n hn))
    · exact State.mem_heapAPIs.mpr (.inr rfl)
  alwaysInline n hn := by
    rcases List.mem_cons.mp hn with rfl | hn
    · exact ⟨State.mem_heapAPIs.mpr (.inr rfl), api, v, hapi, hv, hreturn, rfl⟩
    · obtain ⟨hmem, hex⟩ := h.alwaysInline n hn
      exact ⟨State.mem_heapAPIs.mpr (.inl hmem), hex⟩
  visited n hn := by
    have hold : ∀ n ∈ s.heapAPIs, n ∈ (s.wrapper (M.caller v).name).workList ∨
        (∀ v', M.Site n v' → M.Visited (s.wrapper (M.caller v).name) v') ∨ P n := by
      intro n hn
      rcases h.visited n hn with hwork | hvisited | hP
      · exact .inl (State.mem_workList.mpr (.inl hwork))
      · exact .inr (.inl fun v' hv' => (hvisited v' hv').mono fun _ => List.mem_cons_of_mem _)
      · exact .inr (.inr hP)
    by_cases hmem : n ∈ s.heapAPIs
    · exact hold n hmem
    · rcases State.mem_heapAPIs.mp hn with hn | rfl
      · exact absurd hn hmem
      · exact .inl (State.mem_workList.mpr (.inr ⟨rfl, hmem⟩))

theorem inv_initial (M : IRModule V) (heapAPIs : List String) :
    M.Inv heapAPIs (fun _ => False) ⟨heapAPIs, heapAPIs.reverse, []⟩ where
  listed _ h := h
  reached _ h := .listed h
  workList _ h := List.mem_reverse.mp h
  alwaysInline _ h := absurd h List.not_mem_nil
  visited _ h := .inl (List.mem_reverse.mpr h)

/-- a heap API is taken from the worklist and is being visited now -/
theorem Inv.take (h : M.Inv heapAPIs (fun _ => False) s) {api : String} {rest : List String}
    (hcons : s.workList = api :: rest) :
    M.Reached heapAPIs api ∧ M.Inv heapAPIs (· = api) { s with workList := rest } := by
  have hmem : ∀ n ∈ api :: rest, n ∈ s.workList := fun n hn => hcons ▸ hn
  refine ⟨h.reached api (h.workList api (hmem api List.mem_cons_self)), h.listed, h.reached,
    fun n hn => h.workList n (hmem n (.tail _ hn)), h.alwaysInline, fun n hn => ?_⟩
  rcases h.visited n hn with hwork | hdone | hfalse
  · rw [hcons] at hwork
    rcases List.mem_cons.mp hwork with rfl | hwork
    · exact .inr (.inr rfl)
    · exact .inl hwork
  · exact .inr (.inl hdone)
  · exact hfalse.elim

/-- the functions that are not heap APIs yet -/
def missing (M : IRModule V) (s : State) : Finset (Fin M.functions.length) :=
  Finset.univ.filter fun i => (M.functions.get i).name ∉ s.heapAPIs

/-- no wrapper is a heap API before it is on the worklist, and then it leaves the missing ones -/
def measure (M : IRModule V) (s : State) : Nat := (M.missing s).card + s.workList.length

theorem measure_wrapper (v : V) : M.measure (s.wrapper (M.caller v).name) ≤ M.measure s := by
  by_cases hmem : (M.caller v).name ∈ s.heapAPIs
  · have hapis : (s.wrapper (M.caller v).name).heapAPIs = s.heapAPIs := if_pos hmem
    have hwork : (s.wrapper (M.caller v).name).workList = s.workList := if_pos hmem
    rw [measure, measure, missing, missing, hapis, hwork]
  · have hlt : (M.missing (s.wrapper (M.caller v).name)).card < (M.missing s).card := by
      refine Finset.card_lt_card (Finset.ssubset_iff_subset_ne.mpr ⟨fun i hi => ?_, fun heq => ?_⟩)
      · rw [missing, Finset.mem_filter] at hi ⊢
        exact ⟨hi.1, fun h => hi.2 (State.mem_heapAPIs.mpr (.inl h))⟩
      · have hin : M.getFunction v ∈ M.missing s := Finset.mem_filter.mpr ⟨Finset.mem_univ _, hmem⟩
        rw [← heq, missing, Finset.mem_filter] at hin
        exact hin.2 (State.mem_heapAPIs.mpr (.inr rfl))
    have hwork : (s.wrapper (M.caller v).name).workList = (M.caller v).name :: s.workList :=
      if_neg hmem
    rw [measure, measure, hwork, List.length_cons]
    omega

section
variable [DecidableEq V]

/-- one user, if the loop over its uses returns -/
theorem Inv.visitUser (h : M.Inv heapAPIs P s) {api : String} {allocFun : Fn V}
    (hapi : M.Reached heapAPIs api) (hlookup : M.lookup api = some allocFun) {v : V}
    (hv : v ∈ allocFun.uses.map Prod.fst) {fuel : Nat} (hvisit : M.visitUser fuel s v = some s') :
    M.Inv heapAPIs P s' ∧ (M.Site api v → M.Visited s' v) ∧
      ∀ n ∈ s.alwaysInline, n ∈ s'.alwaysInline := by
  rw [IRModule.visitUser] at hvisit
  split at hvisit
  · next hsite =>
    obtain ⟨found, hloop, hret⟩ := Option.bind_eq_some_iff.mp hvisit
    obtain rfl := Option.some.inj hret
    have hfinds := useChainLoop_iff.mp ⟨fuel, hloop⟩
    cases found with
    | false => exact ⟨h, fun _ => ⟨false, hfinds, nofun⟩, fun n hn => hn⟩
    | true =>
      refine ⟨h.wrapper hapi ⟨allocFun, hlookup, hv, hsite⟩ (finds_useChain_iff.mp hfinds),
        fun _ => ⟨true, hfinds, fun _ => List.mem_cons_self⟩, fun n hn => .tail _ hn⟩
  · next hsite =>
    obtain rfl := Option.some.inj hvisit
    refine ⟨h, ?_, fun n hn => hn⟩
    rintro ⟨-, -, -, hsite'⟩
    exact absurd hsite' hsite

/-- several users -/
theorem Inv.visitUsers (h : M.Inv heapAPIs P s) {api : String} {allocFun : Fn V}
    (hapi : M.Reached heapAPIs api) (hlookup : M.lookup api = some allocFun) {users : List V}
    (hsub : ∀ v ∈ users, v ∈ allocFun.uses.map Prod.fst) {fuel : Nat}
    (hfold : users.foldlM (M.visitUser fuel) s = some s') :
    M.Inv heapAPIs P s' ∧ (∀ v ∈ users, M.Site api v → M.Visited s' v) ∧
      ∀ n ∈ s.alwaysInline, n ∈ s'.alwaysInline := by
  induction users generalizing s with
  | nil =>
    obtain rfl := Option.some.inj hfold
    exact ⟨h, fun v hv => absurd hv List.not_mem_nil, fun n hn => hn⟩
  | cons v users ih =>
    rw [List.foldlM_cons, Option.bind_eq_bind, Option.bind_eq_some_iff] at hfold
    obtain ⟨t, hvisit, hrest⟩ := hfold
    obtain ⟨ht, hvisited, hmono⟩ := h.visitUser hapi hlookup (hsub v List.mem_cons_self) hvisit
    obtain ⟨hs', hvisited', hmono'⟩ := ih ht (fun u hu => hsub u (.tail _ hu)) hrest
    refine ⟨hs', fun u hu hsite => ?_, fun n hn => hmono' n (hmono n hn)⟩
    rcases List.mem_cons.mp hu with rfl | hu
    · exact (hvisited hsite).mono hmono'
    · exact hvisited' u hu hsite

theorem Inv.visitAPI {api : String} (h : M.Inv heapAPIs (· = api) s) (hapi : M.Reached heapAPIs api)
    {fuel : Nat} (hvisit : M.visitAPI fuel s api = some s') : M.Inv heapAPIs (fun _ => False) s' := by
  have hclose : ∀ {t : State}, M.Inv heapAPIs (· = api) t → (∀ v, M.Site api v → M.Visited t v) →
      M.Inv heapAPIs (fun _ => False) t := by
    intro t ht hvisited
    refine ⟨ht.listed, ht.reached, ht.workList, ht.alwaysInline, fun n hn => ?_⟩
    rcases ht.visited n hn with hwork | hdone | rfl
    · exact .inl hwork
    · exact .inr (.inl hdone)
    · exact .inr (.inl hvisited)
  rw [IRModule.visitAPI] at hvisit
  split at hvisit
  · next hnone =>
    obtain rfl := Option.some.inj hvisit
    refine hclose h ?_
    rintro v ⟨allocFun, hsome, -⟩
    rw [hnone] at hsome
    cases hsome
  · next allocFun hlookup =>
    obtain ⟨hs', hvisited, -⟩ := h.visitUsers hapi hlookup (fun v hv => hv) hvisit
    refine hclose hs' ?_
    rintro v ⟨allocFun', hlookup', hv, hsite⟩
    obtain rfl := Option.some.inj (hlookup.symm.trans hlookup')
    exact hvisited v hv ⟨allocFun, hlookup', hv, hsite⟩

/-- the whole worklist -/
theorem Inv.workListLoop (h : M.Inv heapAPIs (fun _ => False) s) {fuel : Nat}
    (hloop : M.workListLoop fuel s = some s') :
    M.Inv heapAPIs (fun _ => False) s' ∧ s'.workList = [] := by
  induction fuel generalizing s with
  | zero =>
    rw [IRModule.workListLoop] at hloop
    split at hloop
    · next hnil =>
      obtain rfl := Option.some.inj hloop
      exact ⟨h, hnil⟩
    · cases hloop
  | succ fuel ih =>
    rw [IRModule.workListLoop] at hloop
    split at hloop
    · next hnil =>
      obtain rfl := Option.some.inj hloop
      exact ⟨h, hnil⟩
    · next api rest hcons =>
      obtain ⟨t, hvisit, hrest⟩ := Option.bind_eq_some_iff.mp hloop
      obtain ⟨hapi, htaken⟩ := h.take hcons
      exact ih (htaken.visitAPI hapi hvisit) hrest

/-- what a finished run has done -/
structure Finished (M : IRModule V) (heapAPIs : List String) (s : State) : Prop where
  reached : ∀ api, api ∈ s.heapAPIs ↔ M.Reached heapAPIs api
  finds : ∀ api, M.Reached heapAPIs api → ∀ v, M.Site api v → ∃ found, M.Finds (M.useChain v) found
  marked : ∀ name, name ∈ s.alwaysInline ↔ ∃ api v, M.Reached heapAPIs api ∧ M.Site api v ∧
    M.FirstUsersReturn v ∧ (M.caller v).name = name

theorem inlineHeapWrapperAPIs_finished {fuel : Nat}
    (h : M.inlineHeapWrapperAPIs fuel heapAPIs = some s) : M.Finished heapAPIs s := by
  obtain ⟨hinv, hnil⟩ := (M.inv_initial heapAPIs).workListLoop h
  have hvisited : ∀ api ∈ s.heapAPIs, ∀ v, M.Site api v → M.Visited s v := by
    intro api hapi
    rcases hinv.visited api hapi with hwork | hdone | hfalse
    · rw [hnil] at hwork
      exact absurd hwork List.not_mem_nil
    · exact hdone
    · exact hfalse.elim
  have hmarked : ∀ {api v}, api ∈ s.heapAPIs → M.Site api v → M.FirstUsersReturn v →
      (M.caller v).name ∈ s.alwaysInline := by
    intro api v hapi hv hreturn
    obtain ⟨found, hfound, himp⟩ := hvisited api hapi v hv
    exact himp (hfound.unique (finds_useChain_iff.mpr hreturn))
  have hreached : ∀ api, M.Reached heapAPIs api → api ∈ s.heapAPIs := by
    intro api hapi
    induction hapi with
    | listed hmem => exact hinv.listed _ hmem
    | wrapper _ hv hreturn ih => exact (hinv.alwaysInline _ (hmarked ih hv hreturn)).1
  refine ⟨fun api => ⟨hinv.reached api, hreached api⟩, fun api hapi v hv => ?_, fun name => ⟨?_, ?_⟩⟩
  · obtain ⟨found, hfinds, -⟩ := hvisited api (hreached api hapi) v hv
    exact ⟨found, hfinds⟩
  · exact fun hn => (hinv.alwaysInline name hn).2
  · rintro ⟨api, v, hapi, hv, hreturn, rfl⟩
    exact hmarked (hreached api hapi) hv hreturn

/-! ## termination -/

theorem visitUser_mono {fuel fuel' : Nat} {v : V} (h : M.visitUser fuel s v = some s')
    (hle : fuel ≤ fuel') : M.visitUser fuel' s v = some s' := by
  rw [visitUser] at h ⊢
  split at h
  · next hsite =>
    obtain ⟨found, hloop, hret⟩ := Option.bind_eq_some_iff.mp h
    rw [if_pos hsite, useChainLoop_mono hloop hle]
    exact hret
  · next hsite =>
    rw [if_neg hsite]
    exact h

theorem visitUsers_mono {fuel fuel' : Nat} {users : List V}
    (h : users.foldlM (M.visitUser fuel) s = some s') (hle : fuel ≤ fuel') :
    users.foldlM (M.visitUser fuel') s = some s' := by
  induction users generalizing s with
  | nil => exact h
  | cons v users ih =>
    rw [List.foldlM_cons, Option.bind_eq_bind, Option.bind_eq_some_iff] at h
    obtain ⟨t, hvisit, hrest⟩ := h
    rw [List.foldlM_cons, visitUser_mono hvisit hle]
    exact ih hrest

theorem visitAPI_mono {fuel fuel' : Nat} {api : String} (h : M.visitAPI fuel s api = some s')
    (hle : fuel ≤ fuel') : M.visitAPI fuel' s api = some s' := by
  rw [visitAPI] at h ⊢
  split at h
  · exact h
  · exact visitUsers_mono h hle

theorem workListLoop_mono {fuel fuel' : Nat} (h : M.workListLoop fuel s = some s')
    (hle : fuel ≤ fuel') : M.workListLoop fuel' s = some s' := by
  induction fuel generalizing fuel' s with
  | zero =>
    rw [workListLoop] at h
    split at h
    · next hnil =>
      cases fuel' with
      | zero =>
        rw [workListLoop, if_pos hnil]
        exact h
      | succ n =>
        rw [workListLoop, hnil]
        exact h
    · cases h
  | succ fuel ih =>
    obtain ⟨n, rfl⟩ : ∃ n, fuel' = n + 1 := ⟨fuel' - 1, by omega⟩
    have hle' : fuel ≤ n := by omega
    rw [workListLoop] at h ⊢
    split at h
    · exact h
    · obtain ⟨t, hvisit, hrest⟩ := Option.bind_eq_some_iff.mp h
      rw [visitAPI_mono hvisit hle']
      exact ih hrest hle'

/-- the users of a heap API are visited if the loops for their uses return -/
theorem exists_visitUsers {api : String} {allocFun : Fn V} (hlookup : M.lookup api = some allocFun)
    (hfinds : ∀ v, M.Site api v → ∃ found, M.Finds (M.useChain v) found) {users : List V}
    (hsub : ∀ v ∈ users, v ∈ allocFun.uses.map Prod.fst) (s : State) :
    ∃ fuel s', users.foldlM (M.visitUser fuel) s = some s' ∧ M.measure s' ≤ M.measure s := by
  induction users generalizing s with
  | nil => exact ⟨0, s, rfl, Nat.le_refl _⟩
  | cons v users ih =>
    have hvisit : ∃ fuel t, M.visitUser fuel s v = some t ∧ M.measure t ≤ M.measure s := by
      by_cases hsite : M.kind v = .call ∧ M.isCandidate (M.caller v)
      · obtain ⟨found, hfound⟩ := hfinds v ⟨allocFun, hlookup, hsub v List.mem_cons_self, hsite⟩
        obtain ⟨fuel, hloop⟩ := useChainLoop_iff.mpr hfound
        refine ⟨fuel, if found then s.wrapper (M.caller v).name else s, ?_, ?_⟩
        · rw [visitUser, if_pos hsite, hloop]
          rfl
        · split
          · exact measure_wrapper v
          · exact Nat.le_refl _
      · exact ⟨0, s, if_neg hsite, Nat.le_refl _⟩
    obtain ⟨fuel, t, hvisit, hle⟩ := hvisit
    obtain ⟨fuel', s', hrest, hle'⟩ := ih (fun u hu => hsub u (.tail _ hu)) t
    refine ⟨max fuel fuel', s', ?_, hle'.trans hle⟩
    rw [List.foldlM_cons, visitUser_mono hvisit (Nat.le_max_left _ _)]
    exact visitUsers_mono hrest (Nat.le_max_right _ _)

theorem exists_visitAPI {api : String}
    (hfinds : ∀ v, M.Site api v → ∃ found, M.Finds (M.useChain v) found) (s : State) :
    ∃ fuel s', M.visitAPI fuel s api = some s' ∧ M.measure s' ≤ M.measure s := by
  cases hlookup : M.lookup api with
  | none => exact ⟨0, s, by rw [visitAPI, hlookup]; rfl, Nat.le_refl _⟩
  | some allocFun =>
    obtain ⟨fuel, s', hfold, hle⟩ := exists_visitUsers hlookup hfinds (fun v hv => hv) s
    exact ⟨fuel, s', by rw [visitAPI, hlookup]; exact hfold, hle⟩

/-- the worklist gets empty: each step takes a heap API from it, and what it adds was missing -/
theorem exists_workListLoop
    (hfinds : ∀ api, M.Reached heapAPIs api → ∀ v, M.Site api v →
      ∃ found, M.Finds (M.useChain v) found) (h : M.Inv heapAPIs (fun _ => False) s) :
    ∃ fuel s', M.workListLoop fuel s = some s' := by
  induction hn : M.measure s using Nat.strong_induction_on generalizing s with
  | _ n ih =>
  cases hcons : s.workList with
  | nil => exact ⟨0, s, by rw [workListLoop, if_pos hcons]⟩
  | cons api rest =>
    obtain ⟨hapi, htaken⟩ := h.take hcons
    obtain ⟨fuel, t, hvisit, hle⟩ := exists_visitAPI (hfinds api hapi) { s with workList := rest }
    have hlt : M.measure t < n := by
      have htake : M.measure { s with workList := rest } < n := by
        rw [← hn, measure, measure, hcons, List.length_cons]
        exact Nat.lt_succ_self _
      omega
    obtain ⟨fuel', s', hrest⟩ := ih _ hlt (htaken.visitAPI hapi hvisit) rfl
    refine ⟨max fuel fuel' + 1, s', ?_⟩
    rw [workListLoop, hcons]
    dsimp only
    rw [visitAPI_mono hvisit (Nat.le_max_left _ _)]
    exact workListLoop_mono hrest (Nat.le_max_right _ _)

/-- both loops terminate exactly if, for no call of a heap API that is reached, the first users of one
of its uses go on forever -/
theorem terminates_iff (M : IRModule V) (heapAPIs : List String) :
    (∃ fuel, (M.inlineHeapWrapperAPIs fuel heapAPIs).isSome) ↔
      ∀ api, M.Reached heapAPIs api → ∀ v, M.Site api v → M.Settles (M.useChain v) := by
  constructor
  · rintro ⟨fuel, h⟩ api hapi v hv
    obtain ⟨s, hs⟩ := Option.isSome_iff_exists.mp h
    exact settles_iff.mp ((inlineHeapWrapperAPIs_finished hs).finds api hapi v hv)
  · intro h
    obtain ⟨fuel, s, hs⟩ := exists_workListLoop (fun api hapi v hv => settles_iff.mpr (h api hapi v hv))
      (M.inv_initial heapAPIs)
    exact ⟨fuel, Option.isSome_iff_exists.mpr ⟨s, hs⟩⟩

end

/-! ## what is marked -/

/-- a call of the function -/
def CallSite (M : IRModule V) (allocAPI : String) (v : V) : Prop :=
  ∃ allocFun, M.lookup allocAPI = some allocFun ∧ (v, true) ∈ allocFun.uses ∧ M.kind v = .call

/-- a path of uses through phi nodes and casts ends in a `return` -/
inductive ReachesReturn (M : IRModule V) : V → Prop
  | ret {v r} : r ∈ M.users v → M.kind r = .ret → ReachesReturn M v
  | through {v u} : u ∈ M.users v → M.Through u → ReachesReturn M u → ReachesReturn M v

/-- first users that lead to a `return` are such a path -/
theorem LeadsToReturn.reachesReturn {u : V} {before : List V} (h : M.LeadsToReturn before u) :
    M.kind u = .ret ∨ M.Through u ∧ M.ReachesReturn u := by
  obtain ⟨r, hr, hret⟩ := h
  induction hr using Relation.ReflTransGen.head_induction_on with
  | refl => exact .inl hret
  | head hu _ ih =>
    have hmem := List.mem_of_mem_head? hu.2.1
    rcases ih with hret | ⟨hthrough, hreach⟩
    · exact .inr ⟨hu.1, .ret hmem hret⟩
    · exact .inr ⟨hu.1, .through hmem hthrough hreach⟩

theorem FirstUsersReturn.reachesReturn {v : V} (h : M.FirstUsersReturn v) : M.ReachesReturn v := by
  obtain ⟨k, u, hu, hreturn, -⟩ := h
  have hmem := List.mem_of_getElem? hu
  rcases hreturn.reachesReturn with hret | ⟨hthrough, hreach⟩
  · exact .ret hmem hret
  · exact .through hmem hthrough hreach

/-- a call of an API in the function has a path to a `return` -/
def HasPath (M : IRModule V) (apis : String → Prop) (i : Fin M.functions.length) : Prop :=
  ∃ api v, apis api ∧ M.CallSite api v ∧ M.getFunction v = i ∧ M.ReachesReturn v

/-- first users are one, for some call that uses an API -/
def HasFirstUserPath (M : IRModule V) (apis : String → Prop) (i : Fin M.functions.length) : Prop :=
  ∃ api v, apis api ∧ M.Site api v ∧ M.getFunction v = i ∧ M.FirstUsersReturn v

/-- first users are one, for some call that uses an API without calling it -/
def PassesFirstUserPath (M : IRModule V) (apis : String → Prop) (i : Fin M.functions.length) : Prop :=
  ∃ api v, apis api ∧ M.Site api v ∧ ¬ M.CallSite api v ∧ M.getFunction v = i ∧ M.FirstUsersReturn v

/-- a function without a name is no candidate -/
theorem name_ne_empty {f : Fn V} (h : M.isCandidate f) : f.name ≠ "" := by
  intro hname
  have hbase : M.funBaseName f = some "" := by
    rw [funBaseName, hname]
    rfl
  rw [isCandidate, hbase] at h
  have hcontains : (contains "" "alloc" || contains "" "Alloc" || contains "" "new" ||
      contains "" "New") = false := by decide
  dsimp only at h
  rw [hcontains, Bool.and_false, Bool.false_and] at h
  cases h

theorem Finished.mem_alwaysInline_iff (h : M.Finished heapAPIs s) {i : Fin M.functions.length}
    (hcandidate : M.isCandidate (M.functions.get i)) :
    (M.functions.get i).name ∈ s.alwaysInline ↔ M.HasFirstUserPath (M.Reached heapAPIs) i := by
  rw [h.marked]
  constructor
  · rintro ⟨api, v, hapi, hv, hreturn, heq⟩
    exact ⟨api, v, hapi, hv, M.distinct _ _ heq (heq ▸ name_ne_empty hcandidate), hreturn⟩
  · rintro ⟨api, v, hapi, hv, rfl, hreturn⟩
    exact ⟨api, v, hapi, hv, hreturn, rfl⟩

/-- A candidate is marked if a call of a heap API in it has a path to a `return`, and only then: exactly if
some such path is one of first users whenever there is one, from a user behind which first users lead
elsewhere, and there is one if a call that only passes an API on has such a path. -/
theorem marked_iff [DecidableEq V] (M : IRModule V) (heapAPIs : List String) (fuel : Nat) (s : State)
    (hrun : M.inlineHeapWrapperAPIs fuel heapAPIs = some s) (i : Fin M.functions.length)
    (hcandidate : M.isCandidate (M.functions.get i)) :
    (((M.functions.get i).name ∈ s.alwaysInline ∧ (M.functions.get i).name ∈ s.heapAPIs) ↔
        M.HasPath (· ∈ s.heapAPIs) i) ↔
      (M.HasPath (M.Reached heapAPIs) i → M.HasFirstUserPath (M.Reached heapAPIs) i) ∧
        (M.PassesFirstUserPath (M.Reached heapAPIs) i → M.HasPath (M.Reached heapAPIs) i) := by
  have hfinished := inlineHeapWrapperAPIs_finished hrun
  have hapis : (· ∈ s.heapAPIs) = M.Reached heapAPIs := by
    funext api
    exact propext (hfinished.reached api)
  have hmarked : ((M.functions.get i).name ∈ s.alwaysInline ∧
      (M.functions.get i).name ∈ s.heapAPIs) ↔ M.HasFirstUserPath (M.Reached heapAPIs) i := by
    rw [hfinished.mem_alwaysInline_iff hcandidate, and_iff_left_iff_imp, hfinished.reached]
    rintro ⟨api, v, hapi, hv, rfl, hreturn⟩
    exact .wrapper hapi hv hreturn
  rw [hmarked, hapis]
  constructor
  · intro h
    refine ⟨h.mpr, ?_⟩
    rintro ⟨api, v, hapi, hv, -, hi, hreturn⟩
    exact h.mp ⟨api, v, hapi, hv, hi, hreturn⟩
  · rintro ⟨hfound, hpassed⟩
    refine ⟨?_, hfound⟩
    rintro ⟨api, v, hapi, hv, hi, hreturn⟩
    by_cases hcall : M.CallSite api v
    · exact ⟨api, v, hapi, hcall, hi, hreturn.reachesReturn⟩
    · exact hpassed ⟨api, v, hapi, hv, hcall, hi, hreturn⟩

/-! ### three wrappers of `malloc` -/

/-- `my_alloc` calls `malloc` by instruction 0; the users of instructions and their kinds are given -/
def wrapperModule (kind : Nat → Kind) (users : Nat → List Nat) : IRModule Nat where
  functions := [⟨"malloc", 0, true, [(0, true)]⟩, ⟨"my_alloc", 4, true, []⟩]
  distinct := by decide
  kind := kind
  users := users
  getFunction := fun _ => ⟨1, by decide⟩
  getFunctionBaseName := fun _ => none

/-- the result of `malloc` goes into a phi node that has no other user than itself -/
def selfPhi : IRModule Nat :=
  wrapperModule (fun v => if v = 0 then .call else .phi) (fun _ => [1])

theorem site_wrapperModule {kind : Nat → Kind} {users : Nat → List Nat} (hkind : kind 0 = .call)
    (hcandidate : (wrapperModule kind users).isCandidate ((wrapperModule kind users).caller 0)) :
    (wrapperModule kind users).Site "malloc" 0 :=
  ⟨⟨"malloc", 0, true, [(0, true)]⟩, by rfl, List.mem_singleton_self 0, hkind, hcandidate⟩

/-- its first user goes on forever -/
theorem not_terminates_selfPhi :
    ¬ ∃ fuel, (selfPhi.inlineHeapWrapperAPIs fuel ["malloc"]).isSome := by
  rintro ⟨fuel, h⟩
  obtain ⟨s, hs⟩ := Option.isSome_iff_exists.mp h
  have hfinds := (inlineHeapWrapperAPIs_finished hs).finds "malloc" (.listed List.mem_cons_self) 0
    (site_wrapperModule rfl (by decide))
  refine (settles_iff.mp hfinds).1 fun n => ⟨1, ?_, .inl rfl, fun _ => List.not_mem_nil⟩
  induction n with
  | zero => rfl
  | succ n ih => rw [Function.iterate_succ_apply]; exact ih

/-- the result is cast and returned -/
def castWrapper : IRModule Nat :=
  wrapperModule (fun v => if v = 0 then .call else if v = 1 then .bitCast else .ret)
    (fun v => if v = 0 then [1] else if v = 1 then [2] else [])

theorem marked_castWrapper :
    ("my_alloc" ∈ ["my_alloc"] ∧ "my_alloc" ∈ ["my_alloc", "malloc"]) ↔
      castWrapper.HasPath (· ∈ ["my_alloc", "malloc"]) ⟨1, by decide⟩ := by
  have hreturn : castWrapper.FirstUsersReturn 0 := by
    refine ⟨0, 1, rfl, ⟨2, .single ⟨.inr rfl, rfl, List.not_mem_nil⟩, rfl⟩, fun j u' hj hu' => ?_⟩
    -- there is one user only
    obtain ⟨i, rfl⟩ := Nat.exists_eq_succ_of_ne_zero hj.ne'
    cases hu'
  have hreached : castWrapper.Reached ["malloc"] "malloc" := .listed List.mem_cons_self
  have hsite : castWrapper.Site "malloc" 0 :=
    site_wrapperModule rfl (by decide)
  have hpath : castWrapper.HasPath (castWrapper.Reached ["malloc"]) ⟨1, by decide⟩ :=
    ⟨"malloc", 0, hreached, ⟨_, rfl, List.mem_singleton_self (0, true), rfl⟩, rfl,
      hreturn.reachesReturn⟩
  exact (marked_iff castWrapper ["malloc"] 5 ⟨["my_alloc", "malloc"], [], ["my_alloc"]⟩ (by decide)
    ⟨1, by decide⟩ (by decide)).mpr ⟨fun _ => ⟨"malloc", 0, hreached, hsite, rfl, hreturn⟩,
      fun _ => hpath⟩

/-- the result is cast, compared and returned, and the comparison comes first among the users -/
def comparedWrapper : IRModule Nat :=
  wrapperModule
    (fun v => if v = 0 then .call else if v = 1 then .bitCast else if v = 2 then .other else .ret)
    (fun v => if v = 0 then [1] else if v = 1 then [2, 3] else [])

theorem not_marked_comparedWrapper :
    comparedWrapper.isCandidate (comparedWrapper.functions.get ⟨1, by decide⟩) ∧
      comparedWrapper.inlineHeapWrapperAPIs 5 ["malloc"] = some ⟨["malloc"], [], []⟩ ∧
      comparedWrapper.HasPath (· ∈ ["malloc"]) ⟨1, by decide⟩ := by
  refine ⟨by decide, by decide, "malloc", 0, List.mem_cons_self,
    ⟨_, rfl, List.mem_singleton_self (0, true), rfl⟩, rfl, ?_⟩
  refine .through (List.mem_singleton_self 1) (.inr rfl) ?_
  exact .ret (r := 3) (List.mem_cons_of_mem _ (List.mem_singleton_self 3)) rfl

end IRModule
end AserPTA.WrapperFunIdentify
