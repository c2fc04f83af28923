import AserPTA.ConsGraph.Graph
import AserPTA.Loop.Iterator

/-!
# The edge iterators

`ConcatIteratorWithTag` walks several sets, the outermost one first, and gives every element together
with the number of its set.

* `ForwardIterator`       what it needs of the iterators of the sets;
* `Elements`              a set, with what its own iterator meets;
* `preIncrement`, `postIncrement`, `deref`, `eq`   the operators of the template, level by level;
* `tagged`                the elements of all sets with the numbers of their sets;
* `visits`, `visit_tagged`  the loop over the iterator meets just these;
* `succEdges_eq`, `predEdges_eq`   for the five sets of a node they are the lists that
                          `collapseSCCTo` walks.
-/

namespace AserPTA

open Loop

structure ForwardIterator (W α : Type) where
  next : W → W
  deref : W → α

/-- `ConcatIteratorWithTag<W, n + 1, E>`: a level holds two iterators of its set, and its base class is
the level below. -/
inductive ConcatIteratorWithTag (W : Type) : Nat → Type
  | base (cur end_ : W) : ConcatIteratorWithTag W 0
  | level {n : Nat} (cur end_ : W) (super : ConcatIteratorWithTag W n) :
      ConcatIteratorWithTag W (n + 1)

variable {W α E : Type} [DecidableEq W]

namespace ConcatIteratorWithTag

/-- `operator++()` -/
def preIncrement (F : ForwardIterator W α) : {n : Nat} → ConcatIteratorWithTag W n →
    ConcatIteratorWithTag W n
  | _, base cur end_ => base (F.next cur) end_
  | _, level cur end_ super =>
    if cur = end_ then level cur end_ (super.preIncrement F) else level (F.next cur) end_ super

/-- `operator++(int)`: what is returned, and the iterator after it -/
def postIncrement (F : ForwardIterator W α) : {n : Nat} → ConcatIteratorWithTag W n →
    ConcatIteratorWithTag W n × ConcatIteratorWithTag W n
  | _, base cur end_ => (base cur end_, base (F.next cur) end_)
  | _, level cur end_ super =>
    (level cur end_ super,
      if cur = end_ then level cur end_ (super.preIncrement F) else level (F.next cur) end_ super)

/-- `operator*`; `cast` is the conversion of the number of a level to the enumeration -/
def deref (F : ForwardIterator W α) (cast : Nat → E) : {n : Nat} → ConcatIteratorWithTag W n →
    E × α
  | _, base cur _ => (cast 0, F.deref cur)
  | n + 1, level cur end_ super =>
    if cur = end_ then super.deref F cast else (cast (n + 1), F.deref cur)

/-- `operator==` does not look at the ends -/
def eq : {n : Nat} → ConcatIteratorWithTag W n → ConcatIteratorWithTag W n → Bool
  | _, base cur _, base cur' _ => decide (cur = cur')
  | _, level cur _ super, level cur' _ super' => decide (cur = cur') && super.eq super'

/-- the iterator is advanced, by one of the two operators -/
def advance (F : ForwardIterator W α) (post : Bool) {n : Nat} (it : ConcatIteratorWithTag W n) :
    ConcatIteratorWithTag W n :=
  if post then (it.postIncrement F).2 else it.preIncrement F

theorem advance_eq (F : ForwardIterator W α) (post : Bool) {n : Nat}
    (it : ConcatIteratorWithTag W n) : it.advance F post = it.preIncrement F := by
  cases post with
  | false => rfl
  | true => cases it <;> rfl

end ConcatIteratorWithTag

open ConcatIteratorWithTag

/-- a finite set: where its iterator is on the way from the begin to the end -/
structure Elements (F : ForwardIterator W α) where
  begin_ : W
  end_ : W
  positions : List W
  visits : Visits (fun it => decide (it = end_)) F.next begin_ positions
  nodup : (positions.map F.deref).Nodup

namespace Elements

variable {F : ForwardIterator W α} (sets : Nat → Elements F)

def elems (s : Elements F) : List α := s.positions.map F.deref

/-- `INIT_ITERATOR` with the begins of the sets `0` to `n`, the last one outermost -/
def allBegin : (n : Nat) → ConcatIteratorWithTag W n
  | 0 => base (sets 0).begin_ (sets 0).end_
  | n + 1 => level (sets (n + 1)).begin_ (sets (n + 1)).end_ (allBegin n)

/-- and with their ends -/
def allEnd : (n : Nat) → ConcatIteratorWithTag W n
  | 0 => base (sets 0).end_ (sets 0).end_
  | n + 1 => level (sets (n + 1)).end_ (sets (n + 1)).end_ (allEnd n)

/-- where the iterator is on the way -/
def iterators : (n : Nat) → List (ConcatIteratorWithTag W n)
  | 0 => (sets 0).positions.map fun it => base it (sets 0).end_
  | n + 1 =>
    ((sets (n + 1)).positions.map fun it => level it (sets (n + 1)).end_ (allBegin sets n)) ++
      (iterators n).map fun super => level (sets (n + 1)).end_ (sets (n + 1)).end_ super

/-- the elements, each with the number of its set -/
def tagged : Nat → List (Nat × α)
  | 0 => (sets 0).elems.map fun x => (0, x)
  | n + 1 => ((sets (n + 1)).elems.map fun x => (n + 1, x)) ++ tagged n

theorem position_ne {s : Elements F} {it : W} (h : it ∈ s.positions) : it ≠ s.end_ :=
  of_decide_eq_false (s.visits.not_end it h)

/-- The iterator walks the outermost set; at its end the level below takes over. -/
theorem visits_iterators (n : Nat) :
    Visits (fun it => it.eq (allEnd sets n)) (preIncrement F) (allBegin sets n)
      (iterators sets n) := by
  induction n with
  | zero =>
    rw [← List.append_nil (iterators sets 0)]
    refine (sets 0).visits.map (f := fun it => base it (sets 0).end_) (fun it he => he)
      (fun it _ => rfl) fun it he => .done he
  | succ n ih =>
    refine (sets (n + 1)).visits.map
      (f := fun it => level it (sets (n + 1)).end_ (allBegin sets n)) (fun it he => ?_)
      (fun it he => if_neg (of_decide_eq_false he)) fun it he => ?_
    · show (decide (it = _) && _) = false
      rw [he, Bool.false_and]
    · obtain rfl : it = (sets (n + 1)).end_ := of_decide_eq_true he
      have hend : ∀ super : ConcatIteratorWithTag W n,
          eq (level (sets (n + 1)).end_ (sets (n + 1)).end_ super) (allEnd sets (n + 1)) =
            super.eq (allEnd sets n) := by
        intro super
        show (decide (_ = _) && _) = _
        rw [decide_eq_true rfl, Bool.true_and]
      rw [← List.append_nil (List.map _ (iterators sets n))]
      refine ih.map (f := fun super => level (sets (n + 1)).end_ (sets (n + 1)).end_ super)
        (fun super hs => ?_) (fun super _ => if_pos rfl) fun super hs => .done ?_
      · rw [hend, hs]
      · rw [hend, hs]

/-- on the way the iterator gives the elements with their tags -/
theorem map_deref_iterators (cast : Nat → E) (n : Nat) :
    (iterators sets n).map (deref F cast) = (tagged sets n).map (Prod.map cast id) := by
  induction n with
  | zero =>
    rw [iterators, tagged, elems, List.map_map, List.map_map, List.map_map]
    rfl
  | succ n ih =>
    rw [iterators, tagged, elems, List.map_append, List.map_append, List.map_map, List.map_map,
      List.map_map, List.map_map, ← ih]
    congr 1
    · exact List.map_congr_left fun it hit => if_neg (position_ne hit)
    · exact List.map_congr_left fun super _ => if_pos rfl

theorem mem_tagged (n i : Nat) (x : α) :
    (i, x) ∈ tagged sets n ↔ i ≤ n ∧ x ∈ (sets i).elems := by
  have hpair : ∀ m, (i, x) ∈ ((sets m).elems.map fun x => (m, x)) ↔ i = m ∧ x ∈ (sets i).elems := by
    intro m
    constructor
    · intro h
      obtain ⟨y, hy, he⟩ := List.mem_map.mp h
      obtain ⟨rfl, rfl⟩ := Prod.mk.inj he
      exact ⟨rfl, hy⟩
    · rintro ⟨rfl, h⟩
      exact List.mem_map_of_mem h
  induction n with
  | zero => rw [tagged, hpair, Nat.le_zero]
  | succ n ih =>
    have hor := (or_congr (hpair (n + 1)) ih).trans or_and_right.symm
    rw [tagged, List.mem_append, hor, Nat.le_succ_iff, or_comm]

theorem nodup_tagged (n : Nat) : (tagged sets n).Nodup := by
  have hset : ∀ m, ((sets m).elems.map fun x => (m, x)).Nodup := fun m =>
    (sets m).nodup.map fun x y h => (Prod.mk.inj h).2
  induction n with
  | zero => exact hset 0
  | succ n ih =>
    refine List.nodup_append'.mpr ⟨hset (n + 1), ih, ?_⟩
    intro p h h'
    obtain ⟨x, -, rfl⟩ := List.mem_map.mp h
    have hle := ((mem_tagged sets n (n + 1) x).mp h').1
    omega

/-- The loop from the iterator with all begins to the one with all ends, advanced by any of the two
operators, meets every element of every set once, with the number of its set, and then it is over:
it takes one test of the condition more than there are elements. -/
theorem visit_tagged (cast : Nat → E) (n : Nat) (post : ConcatIteratorWithTag W n → Bool) :
    ∃ (visited : List (ConcatIteratorWithTag W n)) (pairs : List (Nat × α)),
      (∀ fuel, visit (fun it => it.eq (allEnd sets n)) (fun it => it.advance F (post it)) fuel
        (allBegin sets n) = if visited.length < fuel then some visited else none) ∧
      visited.map (deref F cast) = pairs.map (Prod.map cast id) ∧
      pairs.Nodup ∧ ∀ i x, (i, x) ∈ pairs ↔ i ≤ n ∧ x ∈ (sets i).elems := by
  refine ⟨iterators sets n, tagged sets n, fun fuel => ?_, map_deref_iterators sets cast n,
    nodup_tagged sets n, mem_tagged sets n⟩
  simp only [advance_eq]
  exact (visits_iterators sets n).visit fuel

end Elements

/-! ## the edges of a node -/

/-- an iterator of a walk over a set, as the part of the walk that is left -/
def walkIterator : ForwardIterator (List NodeID) NodeID := ⟨List.tail, fun l => l.headD 0⟩

namespace Elements

/-- where the iterator is on a walk -/
def suffixes : List NodeID → List (List NodeID)
  | [] => []
  | v :: l => (v :: l) :: suffixes l

theorem visits_suffixes (l : List NodeID) :
    Visits (fun it => decide (it = [])) walkIterator.next l (suffixes l) := by
  induction l with
  | nil => exact .done rfl
  | cons v l ih => exact .turn rfl ih

theorem map_deref_suffixes (l : List NodeID) : (suffixes l).map walkIterator.deref = l := by
  induction l with
  | nil => rfl
  | cons v l ih =>
    rw [suffixes, List.map_cons, ih]
    rfl

/-- a `DenseSet` of nodes -/
def ofFinset (w : Walk) (s : Finset NodeID) : Elements walkIterator where
  begin_ := w.walk s
  end_ := []
  positions := suffixes (w.walk s)
  visits := visits_suffixes _
  nodup := by
    rw [map_deref_suffixes]
    exact w.nodup_walk s

theorem elems_ofFinset (w : Walk) (s : Finset NodeID) : (ofFinset w s).elems = w.walk s :=
  map_deref_suffixes _

end Elements

/-- `static_cast<Constraints>` -/
def Constraints.ofIndex : Nat → Constraints
  | 0 => .load
  | 1 => .store
  | 2 => .copy
  | 3 => .addrOf
  | _ => .offset

namespace ConsGraph

variable {Obj Val : Type} (g : ConsGraph Obj Val) (w : Walk) (n : NodeID)

/-- the pairs that an edge iterator gives for the five sets of a node -/
theorem map_tagged (cons : Constraints → Finset NodeID) :
    (Elements.tagged (fun i => .ofFinset w (cons (.ofIndex i))) 4).map
        (Prod.map Constraints.ofIndex id) =
      Constraints.all.flatMap fun k => (w.walk (cons k)).map fun v => (k, v) := by
  simp only [Elements.tagged, Elements.elems_ofFinset, List.map_append, List.map_map,
    Constraints.all, List.flatMap_cons, List.flatMap_nil, List.append_nil]
  rfl

/-- the loop from `succ_edge_begin()` to `succ_edge_end()` -/
theorem succEdges_eq : (Elements.iterators (fun i => .ofFinset w (g.succ (.ofIndex i) n)) 4).map
    (deref walkIterator Constraints.ofIndex) = g.succEdges w n :=
  (Elements.map_deref_iterators _ _ 4).trans (map_tagged w fun k => g.succ k n)

/-- the loop from `pred_edge_begin()` to `pred_edge_end()` -/
theorem predEdges_eq : (Elements.iterators (fun i => .ofFinset w (g.pred (.ofIndex i) n)) 4).map
    (deref walkIterator Constraints.ofIndex) = g.predEdges w n :=
  (Elements.map_deref_iterators _ _ 4).trans (map_tagged w fun k => g.pred k n)

end ConsGraph

end AserPTA
