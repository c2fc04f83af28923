import Mathlib.Logic.Relation

/-!
# Inclusion systems and their least solution

A system of subset constraints over variables `V` with values in sets of objects `O`:

* `base v o`     the object `o` is in `v`;
* `copy s d`     everything in `s` is in `d`;
* `load s d`     for every object `p` in `s`, everything in the cell of `p` is in `d`;
* `store s d`    for every object `p` in `d`, everything in `s` is in the cell of `p`;
* `offset s d`   for every object `o` in `s`, the object `index d o`, where there is one, is in `d`.

`Least S` is the least assignment that satisfies all of them (`Least.solution`, `Least.le`), and what
satisfies a larger system satisfies a smaller one (`System.Solution.of_le`).  Nothing here is about a
particular solver: a solver is correct when what it returns is `Least S`.
-/

namespace Inclusion

/-- a system of inclusion constraints over the variables `V` and the objects `O` -/
structure System (V O : Type*) where
  /-- the variable that holds what is stored in an object -/
  cell : O → V
  /-- the object found at the offset of the variable, if there is one -/
  index : V → O → Option O
  base : V → O → Prop
  copy : V → V → Prop
  load : V → V → Prop
  store : V → V → Prop
  offset : V → V → Prop

variable {V O : Type*}

/-- the assignment `P` satisfies every constraint of `S` -/
structure System.Solution (S : System V O) (P : V → O → Prop) : Prop where
  base : ∀ v o, S.base v o → P v o
  copy : ∀ s d, S.copy s d → ∀ o, P s o → P d o
  load : ∀ s d, S.load s d → ∀ p, P s p → ∀ o, P (S.cell p) o → P d o
  store : ∀ s d, S.store s d → ∀ p, P d p → ∀ o, P s o → P (S.cell p) o
  offset : ∀ s d, S.offset s d → ∀ o, P s o → ∀ f, S.index d o = some f → P d f

/-- the least solution, as what can be derived -/
inductive Least (S : System V O) : V → O → Prop where
  | base {v o} : S.base v o → Least S v o
  | copy {s d o} : S.copy s d → Least S s o → Least S d o
  | load {s d p o} : S.load s d → Least S s p → Least S (S.cell p) o → Least S d o
  | store {s d p o} : S.store s d → Least S d p → Least S s o → Least S (S.cell p) o
  | offset {s d o f} : S.offset s d → Least S s o → S.index d o = some f → Least S d f

theorem Least.solution (S : System V O) : S.Solution (Least S) where
  base _ _ h := .base h
  copy _ _ h _ ho := .copy h ho
  load _ _ h _ hp _ ho := .load h hp ho
  store _ _ h _ hp _ ho := .store h hp ho
  offset _ _ h _ ho _ hf := .offset h ho hf

theorem Least.le {S : System V O} {P : V → O → Prop} (hP : S.Solution P) {v : V} {o : O}
    (h : Least S v o) : P v o := by
  induction h with
  | base h => exact hP.base _ _ h
  | copy h _ ih => exact hP.copy _ _ h _ ih
  | load h _ _ ih₁ ih₂ => exact hP.load _ _ h _ ih₁ _ ih₂
  | store h _ _ ih₁ ih₂ => exact hP.store _ _ h _ ih₁ _ ih₂
  | offset h _ hf ih => exact hP.offset _ _ h _ ih _ hf

/-- `T` has every constraint of `S`, over the same objects -/
structure System.Le (S T : System V O) : Prop where
  cell : S.cell = T.cell
  index : S.index = T.index
  base : ∀ v o, S.base v o → T.base v o
  copy : ∀ s d, S.copy s d → T.copy s d
  load : ∀ s d, S.load s d → T.load s d
  store : ∀ s d, S.store s d → T.store s d
  offset : ∀ s d, S.offset s d → T.offset s d

/-- what satisfies the larger system satisfies the smaller one -/
theorem System.Solution.of_le {S T : System V O} (hle : S.Le T) {P : V → O → Prop}
    (hP : T.Solution P) : S.Solution P where
  base v o h := hP.base v o (hle.base v o h)
  copy s d h := hP.copy s d (hle.copy s d h)
  load s d h p hp o ho := hP.load s d (hle.load s d h) p hp o (hle.cell ▸ ho)
  store s d h p hp o ho := hle.cell ▸ hP.store s d (hle.store s d h) p hp o ho
  offset s d h o ho f hf := hP.offset s d (hle.offset s d h) o ho f (hle.index ▸ hf)

end Inclusion
