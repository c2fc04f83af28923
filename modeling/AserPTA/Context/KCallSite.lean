import AserPTA.Context.PtrRingBuffer
import AserPTA.Loop.Fold

/-!
# Call strings of length K

`KCallSite` is a context: the last `K` call sites, in a ring buffer.  `CtxTrait` keeps one object for
each context in a hash set, so contexts are compared by their pointers.

* `KCallSite.eq`, `emplace`, `contextEvolve`   the source's functions;
* `Hashing`            the hash function, and what the set compares a key with;
* `Evolution`          contexts that were evolved from the initial one, in any order;
* `Exact`              two pointers are equal iff the last `K` call sites are;
* `ProbeOk`            the set compares a new context with one of the same call sites first, if with any;
* `evolved_exact`      the contexts are exact iff this is so at every step.
-/

namespace AserPTA

open Loop

variable {I : Type} {K : Nat}

structure KCallSite (I : Type) (K : Nat) where
  ctxBuffer : PtrRingBuffer I K

namespace KCallSite

def empty [NeZero K] : KCallSite I K := ⟨.empty⟩

/-- the constructor with a previous context -/
def append [NeZero K] (prevCtx : KCallSite I K) (i : I) : KCallSite I K :=
  ⟨prevCtx.ctxBuffer.push (some i)⟩

def toList (ctx : KCallSite I K) : List (Option I) := ctx.ctxBuffer.toList

/-- the loop of `operator==`, with iterators over two buffers; `none` if an assertion fails -/
def eqLoop [DecidableEq I] (b1 b2 : PtrRingBuffer I K) : Nat → Nat → Nat → Option Bool
  | 0, _, _ => none
  | n + 1, it1, it2 =>
    if it1 = K then
      -- assert(it2 == ie2)
      if it2 = K then some true else none
    else match b1.deref it1, b2.deref it2 with
      | some x, some y =>
        if x ≠ y then some false else eqLoop b1 b2 n (b1.advance it1) (b2.advance it2)
      | _, _ => none

/-- `operator==`: both iterators start at `this->begin()` -/
def eq [DecidableEq I] (this _rhs : KCallSite I K) : Option Bool :=
  eqLoop this.ctxBuffer this.ctxBuffer (K + 1) this.ctxBuffer.last this.ctxBuffer.last

/-- the loop compares what the two buffers hold -/
theorem eqLoop_eq [NeZero K] [DecidableEq I] (b1 b2 : PtrRingBuffer I K) :
    eqLoop b1 b2 (K + 1) b1.last b2.last = some (decide (b1.toList = b2.toList)) := by
  have h : ∀ n j, j + n = K → eqLoop b1 b2 (n + 1) (b1.position j) (b2.position j) =
      some (decide ((List.range' j n).map b1.cell = (List.range' j n).map b2.cell)) := by
    intro n
    induction n with
    | zero =>
      intro j hj
      have hend : ∀ b : PtrRingBuffer I K, b.position j = K := fun b => if_pos hj
      rw [eqLoop, hend, hend, if_pos rfl, if_pos rfl]
      simp
    | succ n ih =>
      intro j hj
      have hlt : j < K := by omega
      have hin : b1.position j ≠ K := by
        rw [PtrRingBuffer.position, if_neg hlt.ne]
        exact (Nat.mod_lt _ (Nat.pos_of_neZero K)).ne
      rw [eqLoop, if_neg hin, PtrRingBuffer.deref_position hlt, PtrRingBuffer.deref_position hlt]
      dsimp only
      rw [PtrRingBuffer.advance_position hlt, PtrRingBuffer.advance_position hlt, ih _ (by omega),
        List.range'_succ, List.map_cons, List.map_cons]
      by_cases hx : b1.cell j = b2.cell j <;> simp [hx]
  have h0 := h K 0 (Nat.zero_add K)
  rw [PtrRingBuffer.position_zero, PtrRingBuffer.position_zero] at h0
  rw [h0, PtrRingBuffer.toList_eq, PtrRingBuffer.toList_eq, List.range_eq_range']

/-- so a context is equal to every other one -/
theorem eq_true [NeZero K] [DecidableEq I] (a b : KCallSite I K) : a.eq b = some true := by
  rw [eq, eqLoop_eq, decide_eq_true rfl]

theorem toList_append [NeZero K] (ctx : KCallSite I K) (i : I) :
    (ctx.append i).toList = ctx.toList.tail ++ [some i] := PtrRingBuffer.toList_push _

theorem toList_empty [NeZero K] : (empty : KCallSite I K).toList = PtrRingBuffer.window K [] := by
  rw [← PtrRingBuffer.toList_pushAll]
  rfl

end KCallSite

/-- The hash function, and what the set compares a key with: `probe` takes the hash values of the
elements, in the order of insertion, and the hash value of the key, and gives positions of elements in
the order in which they are met.  An element with the same hash value is met. -/
structure Hashing (I : Type) where
  hash : List (Option I) → Nat
  probe : List Nat → Nat → List Nat
  probe_lt : ∀ hs h, ∀ i ∈ probe hs h, i < hs.length
  probe_mem : ∀ hs h i, hs[i]? = some h → i ∈ probe hs h

/-- a pointer to a context: an element of the set is known by its position -/
inductive CtxPtr where
  | initCtx
  | globCtx
  | ctxSet (i : Nat)
  deriving DecidableEq

namespace CtxTrait

variable [NeZero K] (H : Hashing I)

/-- the positions that are met when `ctx` is looked up -/
def met (ctxSet : List (KCallSite I K)) (ctx : KCallSite I K) : List Nat :=
  H.probe (ctxSet.map fun c => H.hash c.toList) (H.hash ctx.toList)

/-- `ctxSet.emplace(...)`, with the position of the element -/
def emplace [DecidableEq I] (ctxSet : List (KCallSite I K)) (ctx : KCallSite I K) :
    List (KCallSite I K) × Nat :=
  match (met H ctxSet ctx).find? fun i => match ctxSet[i]? with
    | some c => ctx.eq c == some true
    | none => false with
  | some i => (ctxSet, i)
  | none => (ctxSet ++ [ctx], ctxSet.length)

/-- the context that a pointer points to -/
def deref (ctxSet : List (KCallSite I K)) : CtxPtr → KCallSite I K
  | .initCtx => .empty
  | .globCtx => .empty
  | .ctxSet i => ctxSet[i]?.getD .empty

def contextEvolve [DecidableEq I] (ctxSet : List (KCallSite I K)) (prevCtx : CtxPtr) (i : I) :
    List (KCallSite I K) × CtxPtr :=
  let result := emplace H ctxSet ((deref ctxSet prevCtx).append i)
  (result.1, .ctxSet result.2)

/-- as every comparison succeeds, the first element that is met is taken -/
theorem emplace_eq [DecidableEq I] (ctxSet : List (KCallSite I K)) (ctx : KCallSite I K) :
    emplace H ctxSet ctx = match (met H ctxSet ctx).head? with
      | some i => (ctxSet, i)
      | none => (ctxSet ++ [ctx], ctxSet.length) := by
  have hlt : ∀ i ∈ met H ctxSet ctx, i < ctxSet.length := by
    intro i hi
    have := H.probe_lt _ _ i hi
    rwa [List.length_map] at this
  rw [emplace]
  cases hm : met H ctxSet ctx with
  | nil => rfl
  | cons i l =>
    have hi := hlt i (by rw [hm]; exact List.mem_cons_self)
    rw [List.find?_cons_of_pos]
    · rfl
    · rw [List.getElem?_eq_getElem hi]
      show (ctx.eq ctxSet[i] == some true) = true
      rw [KCallSite.eq_true]
      rfl

end CtxTrait

/-! ## evolutions -/

/-- the set, and the contexts that were evolved, each with the call sites on its way -/
structure Evolution (I : Type) (K : Nat) where
  ctxSet : List (KCallSite I K) := []
  evolved : List (CtxPtr × List I) := [(.initCtx, [])]

namespace Evolution

open CtxTrait
open PtrRingBuffer (window window_concat window_inj)

variable [NeZero K] (H : Hashing I)

/-- evolve one of the contexts with a call site -/
def step [DecidableEq I] (s : Evolution I K) (op : Nat × I) : Evolution I K :=
  match s.evolved[op.1]? with
  | none => s
  | some (ctx, sites) =>
    let r := contextEvolve H s.ctxSet ctx op.2
    ⟨r.1, s.evolved ++ [(r.2, sites ++ [op.2])]⟩

def run [DecidableEq I] (ops : List (Nat × I)) (s : Evolution I K) : Evolution I K :=
  ops.foldl (step H) s

/-- two pointers are equal iff the last `K` call sites are -/
def Exact (s : Evolution I K) : Prop :=
  ∀ a ∈ s.evolved, ∀ b ∈ s.evolved, a.1 = b.1 ↔ a.2.rtake K = b.2.rtake K

/-- The first element that is met, if there is one, has the call sites of the new context. -/
def ProbeOk (s : Evolution I K) (op : Nat × I) : Prop :=
  ∀ a, s.evolved[op.1]? = some a → let ctx := (deref s.ctxSet a.1).append op.2
    ∀ (i : Nat) (c : KCallSite I K), (met H s.ctxSet ctx).head? = some i →
      s.ctxSet[i]? = some c → c.toList = ctx.toList

instance [DecidableEq I] (s : Evolution I K) : Decidable s.Exact :=
  inferInstanceAs (Decidable (∀ a ∈ s.evolved, ∀ b ∈ s.evolved, _))

/-- every pointer points to the last `K` call sites, and there is one object for them -/
structure Inv (s : Evolution I K) : Prop where
  sites : ∀ a ∈ s.evolved, (deref s.ctxSet a.1).toList = window K a.2
  ptr : ∀ a ∈ s.evolved, (a.1 = .initCtx ∧ a.2 = []) ∨
    ∃ i < s.ctxSet.length, a.1 = .ctxSet i ∧ a.2 ≠ []
  unique : ∀ (i j : Nat) (c d : KCallSite I K), s.ctxSet[i]? = some c → s.ctxSet[j]? = some d →
    c.toList = d.toList → i = j
  owner : ∀ i < s.ctxSet.length, ∃ a ∈ s.evolved, a.1 = .ctxSet i

variable {H} {s : Evolution I K}

theorem Inv.start : ({} : Evolution I K).Inv := by
  refine ⟨fun a ha => ?_, fun a ha => .inl ?_, fun i j c d hc => (by cases hc), fun i hi => (by cases hi)⟩
  all_goals
    obtain rfl := List.mem_singleton.mp ha
  · exact KCallSite.toList_empty
  · exact ⟨rfl, rfl⟩

/-- with the invariant the contexts are exact -/
theorem Inv.exact (h : s.Inv) : s.Exact := by
  have hK := Nat.pos_of_neZero K
  have hnil : ∀ l : List I, l.rtake K = [] → l = [] := by
    intro l hl
    have hlen := congrArg List.length hl
    rw [List.rtake, List.length_drop, List.length_nil] at hlen
    exact List.length_eq_zero_iff.mp (by omega)
  intro a ha b hb
  constructor
  · intro he
    apply window_inj.mp
    rw [← h.sites a ha, ← h.sites b hb, he]
  · intro he
    rcases h.ptr a ha with ⟨h1, h2⟩ | ⟨i, hi, h1, h2⟩ <;>
      rcases h.ptr b hb with ⟨h3, h4⟩ | ⟨j, hj, h3, h4⟩
    · rw [h1, h3]
    · rw [h2, List.rtake_nil] at he
      exact absurd (hnil _ he.symm) h4
    · rw [h4, List.rtake_nil] at he
      exact absurd (hnil _ he) h2
    · have hwin := window_inj.mpr he
      rw [← h.sites a ha, ← h.sites b hb, h1, h3] at hwin
      have hci := List.getElem?_eq_getElem hi
      have hcj := List.getElem?_eq_getElem hj
      simp only [deref, hci, hcj, Option.getD_some] at hwin
      rw [h1, h3, h.unique i j _ _ hci hcj hwin]

/-- the new context has the call sites of its way -/
theorem Inv.sites_append (h : s.Inv) {a : CtxPtr × List I} (ha : a ∈ s.evolved) (x : I) :
    ((deref s.ctxSet a.1).append x).toList = window K (a.2 ++ [x]) := by
  rw [KCallSite.toList_append, h.sites a ha, window_concat]

/-- one step: the first element that is met is taken, or the new context is appended -/
theorem step_cases [DecidableEq I] (H : Hashing I) (s : Evolution I K) (op : Nat × I) :
    (s.evolved[op.1]? = none ∧ step H s op = s) ∨
    ∃ a ∈ s.evolved, s.evolved[op.1]? = some a ∧
      let ctx := (deref s.ctxSet a.1).append op.2
      (∃ i c, (met H s.ctxSet ctx).head? = some i ∧ s.ctxSet[i]? = some c ∧
        step H s op = ⟨s.ctxSet, s.evolved ++ [(.ctxSet i, a.2 ++ [op.2])]⟩) ∨
      (met H s.ctxSet ctx = [] ∧ step H s op = ⟨s.ctxSet ++ [ctx],
        s.evolved ++ [(.ctxSet s.ctxSet.length, a.2 ++ [op.2])]⟩) := by
  cases ho : s.evolved[op.1]? with
  | none => exact .inl ⟨rfl, by rw [step, ho]⟩
  | some a =>
    refine .inr ⟨a, List.mem_of_getElem? ho, rfl, ?_⟩
    intro ctx
    have hstep : step H s op = ⟨(emplace H s.ctxSet ctx).1,
        s.evolved ++ [(.ctxSet (emplace H s.ctxSet ctx).2, a.2 ++ [op.2])]⟩ := by
      rw [step, ho]
      rfl
    rw [emplace_eq] at hstep
    cases hm : met H s.ctxSet ctx with
    | nil =>
      rw [hm] at hstep
      exact .inr ⟨rfl, hstep⟩
    | cons i l =>
      rw [hm] at hstep
      have hi : i < s.ctxSet.length := by
        have := H.probe_lt _ _ i (hm ▸ List.mem_cons_self : i ∈ met H s.ctxSet ctx)
        rwa [List.length_map] at this
      exact .inl ⟨i, s.ctxSet[i], rfl, List.getElem?_eq_getElem hi, hstep⟩

/-- a step that meets no other context keeps the invariant -/
theorem Inv.step [DecidableEq I] (h : s.Inv) {op : Nat × I} (hok : ProbeOk H s op) :
    (step H s op).Inv := by
  rcases step_cases H s op with ⟨-, heq⟩ | ⟨a, ha, hop, ⟨i, c, hhead, hc, heq⟩ | ⟨hmet, heq⟩⟩
  · rwa [heq]
  · have hsame := hok a hop i c hhead hc
    have hi := (List.getElem?_eq_some_iff.mp hc).1
    have hnew : (deref s.ctxSet (.ctxSet i)).toList = window K (a.2 ++ [op.2]) := by
      rw [deref, hc, Option.getD_some, hsame, h.sites_append ha]
    rw [heq]
    refine ⟨fun b hb => ?_, fun b hb => ?_, h.unique, fun j hj => ?_⟩
    · rcases List.mem_append.mp hb with hb | hb
      · exact h.sites b hb
      · obtain rfl := List.mem_singleton.mp hb
        exact hnew
    · rcases List.mem_append.mp hb with hb | hb
      · exact h.ptr b hb
      · obtain rfl := List.mem_singleton.mp hb
        exact .inr ⟨i, hi, rfl, by simp⟩
    · obtain ⟨b, hb, hbj⟩ := h.owner j hj
      exact ⟨b, List.mem_append_left _ hb, hbj⟩
  · set ctx := (deref s.ctxSet a.1).append op.2 with hctx
    have hfresh : ∀ (j : Nat) (c : KCallSite I K), s.ctxSet[j]? = some c → c.toList ≠ ctx.toList := by
      intro j c hc he
      have hmem := H.probe_mem (s.ctxSet.map fun c => H.hash c.toList) (H.hash ctx.toList) j
        (by rw [List.getElem?_map, hc, Option.map_some, he])
      have hnil : j ∈ met H s.ctxSet ctx := hmem
      rw [hmet] at hnil
      cases hnil
    have hold : ∀ b ∈ s.evolved, deref (s.ctxSet ++ [ctx]) b.1 = deref s.ctxSet b.1 := by
      intro b hb
      rcases h.ptr b hb with ⟨h1, -⟩ | ⟨j, hj, h1, -⟩
      · rw [h1]
        rfl
      · rw [h1, deref, deref, List.getElem?_append_left hj]
    have hlast : (s.ctxSet ++ [ctx])[s.ctxSet.length]? = some ctx := List.getElem?_concat_length
    have hget : ∀ (j : Nat) (c : KCallSite I K), (s.ctxSet ++ [ctx])[j]? = some c →
        s.ctxSet[j]? = some c ∨ j = s.ctxSet.length ∧ c = ctx := by
      intro j c hc
      rcases Nat.lt_trichotomy j s.ctxSet.length with hj | rfl | hj
      · rw [List.getElem?_append_left hj] at hc
        exact .inl hc
      · rw [hlast] at hc
        exact .inr ⟨rfl, (Option.some.inj hc).symm⟩
      · rw [List.getElem?_eq_none (by rw [List.length_append]; exact hj)] at hc
        cases hc
    rw [heq]
    refine ⟨fun b hb => ?_, fun b hb => ?_, fun i j c d hc hd he => ?_, fun j hj => ?_⟩
    · rcases List.mem_append.mp hb with hb | hb
      · rw [← h.sites b hb]
        exact congrArg _ (hold b hb)
      · obtain rfl := List.mem_singleton.mp hb
        rw [← h.sites_append ha]
        simp only [deref, hlast, Option.getD_some]
        rfl
    · rcases List.mem_append.mp hb with hb | hb
      · refine (h.ptr b hb).imp_right fun ⟨j, hj, h1⟩ => ⟨j, ?_, h1⟩
        rw [List.length_append]
        exact Nat.lt_add_right _ hj
      · obtain rfl := List.mem_singleton.mp hb
        exact .inr ⟨s.ctxSet.length, by simp, rfl, by simp⟩
    · rcases hget i c hc with hc | ⟨rfl, rfl⟩ <;> rcases hget j d hd with hd | ⟨rfl, rfl⟩
      · exact h.unique i j c d hc hd he
      · exact absurd he (hfresh i c hc)
      · exact absurd he.symm (hfresh j d hd)
      · rfl
    · rw [List.length_append, List.length_singleton] at hj
      rcases Nat.lt_succ_iff_lt_or_eq.mp hj with hj | rfl
      · obtain ⟨b, hb, hbj⟩ := h.owner j hj
        exact ⟨b, List.mem_append_left _ hb, hbj⟩
      · exact ⟨_, List.mem_append_right _ (List.mem_singleton_self _), rfl⟩

/-- what was evolved stays -/
theorem mem_run [DecidableEq I] (ops : List (Nat × I)) {a : CtxPtr × List I} (ha : a ∈ s.evolved) :
    a ∈ (run H ops s).evolved := by
  refine foldl_inv (I := fun t : Evolution I K => a ∈ t.evolved) (fun t op _ ht => ?_) ha
  rcases step_cases H t op with ⟨-, heq⟩ | ⟨b, -, -, ⟨i, c, -, -, heq⟩ | ⟨-, heq⟩⟩ <;> rw [heq]
  · exact ht
  · exact List.mem_append_left _ ht
  · exact List.mem_append_left _ ht

/-- after a step that takes another context the contexts are not exact any more -/
theorem Inv.not_exact [DecidableEq I] (h : s.Inv) {op : Nat × I} (hok : ¬ ProbeOk H s op)
    (ops : List (Nat × I)) : ¬ (run H ops (Evolution.step H s op)).Exact := by
  intro hexact
  apply hok
  intro a hop ctx i c hi hc
  rcases step_cases H s op with ⟨hnone, -⟩ | ⟨a', ha, hop', hcase⟩
  · rw [hnone] at hop
    cases hop
  · obtain rfl : a' = a := by
      rw [hop'] at hop
      exact Option.some.inj hop
    rcases hcase with ⟨i', c', hhead, -, heq⟩ | ⟨hmet, -⟩
    · obtain rfl : i' = i := Option.some.inj (hhead.symm.trans hi)
      obtain ⟨b, hb, hbi⟩ := h.owner i' (List.getElem?_eq_some_iff.mp hc).1
      have hold : b ∈ (Evolution.step H s op).evolved := by
        rw [heq]
        exact List.mem_append_left _ hb
      have hnew : (CtxPtr.ctxSet i', a'.2 ++ [op.2]) ∈ (Evolution.step H s op).evolved := by
        rw [heq]
        exact List.mem_append_right _ (List.mem_singleton_self _)
      have hrt := (hexact b (mem_run ops hold) _ (mem_run ops hnew)).mp hbi
      have hwin := window_inj.mpr hrt
      rw [← h.sites b hb, hbi, deref, show s.ctxSet[i']? = some c from hc, Option.getD_some,
        ← h.sites_append ha] at hwin
      exact hwin
    · have hnil : (met H s.ctxSet ctx).head? = some i := hi
      have hmet' : met H s.ctxSet ctx = [] := hmet
      rw [hmet'] at hnil
      cases hnil

end Evolution

/-- Contexts that are evolved in any order are exact iff the set meets a context with the same call
sites first, if it meets any, at every step; and `operator==`, which is always true, compares what two
buffers hold only when they hold the same. -/
theorem evolved_exact [NeZero K] [DecidableEq I] (H : Hashing I) (ops : List (Nat × I)) :
    ((Evolution.run H ops ({} : Evolution I K)).Exact ↔
      FoldOk (Evolution.ProbeOk H) (Evolution.step H) ops ({} : Evolution I K)) ∧
    ∀ a b : KCallSite I K, (a.eq b = some true ↔ a.toList = b.toList) ↔ a.toList = b.toList := by
  refine ⟨?_, fun a b => ?_⟩
  · suffices h : ∀ s : Evolution I K, s.Inv →
        ((Evolution.run H ops s).Exact ↔ FoldOk (Evolution.ProbeOk H) (Evolution.step H) ops s) from
      h {} .start
    induction ops with
    | nil => exact fun s hs => ⟨fun _ => trivial, fun _ => hs.exact⟩
    | cons op ops ih =>
      intro s hs
      by_cases hok : Evolution.ProbeOk H s op
      · exact (ih _ (hs.step hok)).trans ⟨fun h => ⟨hok, h⟩, fun h => h.2⟩
      · exact ⟨fun h => absurd h (hs.not_exact hok ops), fun h => absurd h.1 hok⟩
  · rw [KCallSite.eq_true]
    simp

/-- all elements with the hash value of the key are met, in the order of insertion -/
def Hashing.chained (hash : List (Option I) → Nat) : Hashing I where
  hash := hash
  probe hs h := (List.range hs.length).filter fun i => hs[i]? == some h
  probe_lt hs h i hi := List.mem_range.mp (List.mem_filter.mp hi).1
  probe_mem hs h i hi := List.mem_filter.mpr
    ⟨List.mem_range.mpr (List.getElem?_eq_some_iff.mp hi).1, by rw [hi]; exact beq_self_eq_true _⟩

theorem evolved_exact_sample :
    ((Evolution.run (.chained List.length) [(0, 7), (1, 8)] ({} : Evolution Nat 2)).Exact ↔
      FoldOk (Evolution.ProbeOk (.chained List.length)) (Evolution.step (.chained List.length))
        [(0, 7), (1, 8)] ({} : Evolution Nat 2)) ∧
    ∀ a b : KCallSite Nat 2, (a.eq b = some true ↔ a.toList = b.toList) ↔ a.toList = b.toList :=
  evolved_exact _ _

/-- Two call sites whose contexts have one hash value: they get one context, and two different
contexts are equal. -/
theorem evolved_not_exact :
    ¬ (Evolution.run (.chained fun _ => 0) [(0, 7), (0, 8)] ({} : Evolution Nat 1)).Exact ∧
    ∃ a b : KCallSite Nat 1, a.eq b = some true ∧ a.toList ≠ b.toList := by
  refine ⟨by decide, KCallSite.empty.append 7, KCallSite.empty.append 8, by decide, by decide⟩

end AserPTA
