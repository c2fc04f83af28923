import AserPTA.Inclusion.System

/-!
# Inclusion systems that grow while they are solved

What is found in a variable may bring new constraints: a function that a pointer turns out to hold is
called, and its body has constraints of its own.  The constraints are brought by events, and events are
caused by other events, alone or together with an object that is found in a variable.

* `Dynamic`            the events, what they cause and the constraints they bring;
* `Dynamic.Derives`    the events that happen and the objects that are found, as what can be derived;
* `Dynamic.Model`      a set of facts that is closed under the rules (`Derives.le`, `Derives.model`);
* `Dynamic.Morphism`   a map from one system to another, under which derived facts are derived
                       (`Derives.map`);
* `Dynamic.system`     the constraints of a set of events, as a system with a least solution
                       (`derives_iff_least`).
-/

namespace Inclusion

/-- constraints over the variables `V` and the objects `O` that are brought by the events `E` -/
structure Dynamic (V O E : Type*) where
  cell : O → V
  index : V → O → Option O
  start : E → Prop
  next : E → E → Prop
  /-- the event and the object in the variable cause another event -/
  trigger : E → V → O → E → Prop
  base : E → V → O → Prop
  copy : E → V → V → Prop
  load : E → V → V → Prop
  store : E → V → V → Prop
  offset : E → V → V → Prop

/-- an event happens, or an object is found in a variable -/
inductive Fact (V O E : Type*) where
  | event (e : E)
  | found (v : V) (o : O)

namespace Dynamic

variable {V O E V' O' E' : Type*} {S : Dynamic V O E} {T : Dynamic V' O' E'}

/-- what can be derived -/
inductive Derives (S : Dynamic V O E) : Fact V O E → Prop where
  | start {e} : S.start e → Derives S (.event e)
  | next {e e'} : Derives S (.event e) → S.next e e' → Derives S (.event e')
  | trigger {e e' v o} : Derives S (.event e) → Derives S (.found v o) → S.trigger e v o e' →
      Derives S (.event e')
  | base {e v o} : Derives S (.event e) → S.base e v o → Derives S (.found v o)
  | copy {e s d o} : Derives S (.event e) → S.copy e s d → Derives S (.found s o) →
      Derives S (.found d o)
  | load {e s d p o} : Derives S (.event e) → S.load e s d → Derives S (.found s p) →
      Derives S (.found (S.cell p) o) → Derives S (.found d o)
  | store {e s d p o} : Derives S (.event e) → S.store e s d → Derives S (.found d p) →
      Derives S (.found s o) → Derives S (.found (S.cell p) o)
  | offset {e s d o f} : Derives S (.event e) → S.offset e s d → Derives S (.found s o) →
      S.index d o = some f → Derives S (.found d f)

/-- the events `R` and the assignment `P` are closed under the rules -/
structure Model (S : Dynamic V O E) (R : E → Prop) (P : V → O → Prop) : Prop where
  start : ∀ e, S.start e → R e
  next : ∀ e e', R e → S.next e e' → R e'
  trigger : ∀ e e' v o, R e → P v o → S.trigger e v o e' → R e'
  base : ∀ e v o, R e → S.base e v o → P v o
  copy : ∀ e s d o, R e → S.copy e s d → P s o → P d o
  load : ∀ e s d p o, R e → S.load e s d → P s p → P (S.cell p) o → P d o
  store : ∀ e s d p o, R e → S.store e s d → P d p → P s o → P (S.cell p) o
  offset : ∀ e s d o f, R e → S.offset e s d → P s o → S.index d o = some f → P d f

/-- the fact is among the events `R` or in the assignment `P` -/
def Within (R : E → Prop) (P : V → O → Prop) : Fact V O E → Prop
  | .event e => R e
  | .found v o => P v o

/-- what can be derived is the least model -/
theorem Derives.model (S : Dynamic V O E) :
    S.Model (fun e => S.Derives (.event e)) fun v o => S.Derives (.found v o) where
  start _ h := .start h
  next _ _ he h := .next he h
  trigger _ _ _ _ he ho h := .trigger he ho h
  base _ _ _ he h := .base he h
  copy _ _ _ _ he h ho := .copy he h ho
  load _ _ _ _ _ he h hp ho := .load he h hp ho
  store _ _ _ _ _ he h hp ho := .store he h hp ho
  offset _ _ _ _ _ he h ho hf := .offset he h ho hf

theorem Derives.le {R : E → Prop} {P : V → O → Prop} (h : S.Model R P) {x : Fact V O E}
    (hx : S.Derives x) : Within R P x := by
  induction hx with
  | start hs => exact h.start _ hs
  | next _ hn ih => exact h.next _ _ ih hn
  | trigger _ _ ht ih ih' => exact h.trigger _ _ _ _ ih ih' ht
  | base _ hb ih => exact h.base _ _ _ ih hb
  | copy _ hc _ ih ih' => exact h.copy _ _ _ _ ih hc ih'
  | load _ hl _ _ ih ihp iho => exact h.load _ _ _ _ _ ih hl ihp iho
  | store _ hs _ _ ih ihp iho => exact h.store _ _ _ _ _ ih hs ihp iho
  | offset _ hoff _ hf ih iho => exact h.offset _ _ _ _ _ ih hoff iho hf

/-! ## maps between systems -/

/-- a map of variables, objects and events that keeps the rules -/
structure Morphism (S : Dynamic V O E) (T : Dynamic V' O' E') where
  var : V → V'
  obj : O → O'
  event : E → E'
  cell : ∀ o, var (S.cell o) = T.cell (obj o)
  index : ∀ e s d o f, S.offset e s d → S.index d o = some f →
    T.index (var d) (obj o) = some (obj f)
  start : ∀ e, S.start e → T.start (event e)
  next : ∀ e e', S.next e e' → T.next (event e) (event e')
  trigger : ∀ e v o e', S.trigger e v o e' → T.trigger (event e) (var v) (obj o) (event e')
  base : ∀ e v o, S.base e v o → T.base (event e) (var v) (obj o)
  copy : ∀ e s d, S.copy e s d → T.copy (event e) (var s) (var d)
  load : ∀ e s d, S.load e s d → T.load (event e) (var s) (var d)
  store : ∀ e s d, S.store e s d → T.store (event e) (var s) (var d)
  offset : ∀ e s d, S.offset e s d → T.offset (event e) (var s) (var d)

/-- the facts that a map takes to derived ones are a model -/
theorem Morphism.model (m : Morphism S T) :
    S.Model (fun e => T.Derives (.event (m.event e)))
      fun v o => T.Derives (.found (m.var v) (m.obj o)) where
  start _ h := .start (m.start _ h)
  next _ _ he h := .next he (m.next _ _ h)
  trigger _ _ _ _ he ho h := .trigger he ho (m.trigger _ _ _ _ h)
  base _ _ _ he h := .base he (m.base _ _ _ h)
  copy _ _ _ _ he h ho := .copy he (m.copy _ _ _ h) ho
  load _ _ _ p _ he h hp ho := by
    rw [m.cell p] at ho
    exact .load he (m.load _ _ _ h) hp ho
  store _ _ _ p _ he h hp ho := by
    rw [m.cell p]
    exact .store he (m.store _ _ _ h) hp ho
  offset _ _ _ _ _ he h ho hf := .offset he (m.offset _ _ _ h) ho (m.index _ _ _ _ _ h hf)

theorem Derives.map (m : Morphism S T) {x : Fact V O E} (hx : S.Derives x) :
    Within (fun e => T.Derives (.event (m.event e)))
      (fun v o => T.Derives (.found (m.var v) (m.obj o))) x :=
  hx.le m.model

/-! ## the constraints of a set of events -/

/-- the constraints that the events `R` bring -/
def system (S : Dynamic V O E) (R : E → Prop) : System V O where
  cell := S.cell
  index := S.index
  base v o := ∃ e, R e ∧ S.base e v o
  copy s d := ∃ e, R e ∧ S.copy e s d
  load s d := ∃ e, R e ∧ S.load e s d
  store s d := ∃ e, R e ∧ S.store e s d
  offset s d := ∃ e, R e ∧ S.offset e s d

/-- Once the events are known, the objects are those of the least solution of their constraints. -/
theorem derives_iff_least (v : V) (o : O) :
    S.Derives (.found v o) ↔ Least (S.system fun e => S.Derives (.event e)) v o := by
  constructor
  · intro h
    have hsol := Least.solution (S.system fun e => S.Derives (.event e))
    have hle : Within (fun e => S.Derives (.event e))
        (fun v o => S.Derives (.found v o) ∧ Least (S.system fun e => S.Derives (.event e)) v o)
        (.found v o : Fact V O E) := by
      refine h.le ⟨fun _ h => .start h, fun _ _ he h => .next he h, ?_, ?_, ?_, ?_, ?_, ?_⟩
      · exact fun _ _ _ _ he ho h => .trigger he ho.1 h
      · exact fun e v o he h => ⟨.base he h, hsol.base v o ⟨e, he, h⟩⟩
      · exact fun e s d o he h ho => ⟨.copy he h ho.1, hsol.copy s d ⟨e, he, h⟩ o ho.2⟩
      · exact fun e s d p o he h hp ho =>
          ⟨.load he h hp.1 ho.1, hsol.load s d ⟨e, he, h⟩ p hp.2 o ho.2⟩
      · exact fun e s d p o he h hp ho =>
          ⟨.store he h hp.1 ho.1, hsol.store s d ⟨e, he, h⟩ p hp.2 o ho.2⟩
      · exact fun e s d o f he h ho hf =>
          ⟨.offset he h ho.1 hf, hsol.offset s d ⟨e, he, h⟩ o ho.2 f hf⟩
    exact hle.2
  · intro h
    refine h.le (P := fun v o => S.Derives (.found v o)) ⟨?_, ?_, ?_, ?_, ?_⟩
    · rintro v o ⟨e, he, h⟩
      exact .base he h
    · rintro s d ⟨e, he, h⟩ o ho
      exact .copy he h ho
    · rintro s d ⟨e, he, h⟩ p hp o ho
      exact .load he h hp ho
    · rintro s d ⟨e, he, h⟩ p hp o ho
      exact .store he h hp ho
    · rintro s d ⟨e, he, h⟩ o ho f hf
      exact .offset he h ho hf

end Dynamic

end Inclusion
