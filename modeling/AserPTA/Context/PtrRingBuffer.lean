import AserPTA.Loop.Iterator
import Mathlib.Algebra.Ring.Nat
import Mathlib.Data.List.DropRight
import Mathlib.Data.List.Nodup
import Mathlib.Data.List.OfFn
import Mathlib.Data.List.ReduceOption
import Mathlib.Data.Nat.ModEq

/-!
# Ring buffers of pointers

`PtrRingBuffer` and its iterator.  `last` is where the next pointer goes, so it is where the oldest one
is, and the iterator starts there.  `N` is not a position: it is the index of the iterator at the end.

* `push`, `advance`, `deref`   the source's functions; a null pointer is `none`;
* `toList`                     what iterating from `begin()` to `end()` gives;
* `toList_push`                pushing drops the oldest pointer and appends the new one;
* `suffix`, `toList_foldl_push`  so a buffer that was pushed to holds the last `N` pointers;
* `iterate`, `iterate_suffix`  and the loop over it visits every slot once and gives just these;
* `pushAll`, `toList_pushAll`  the same for pointers that are not null.
-/

namespace AserPTA

/-- a pointer in `buffer` may be null -/
structure PtrRingBuffer (P : Type) (N : Nat) where
  buffer : Fin N → Option P
  last : Fin N

namespace PtrRingBuffer

variable {P : Type} {N : Nat}

section
variable [NeZero N]

def empty : PtrRingBuffer P N := ⟨fun _ => none, ⟨0, Nat.pos_of_neZero N⟩⟩

def push (b : PtrRingBuffer P N) (value : Option P) : PtrRingBuffer P N where
  buffer i := if i = b.last then value else b.buffer i
  last := ⟨(b.last + 1) % N, Nat.mod_lt _ (Nat.pos_of_neZero N)⟩

end

variable (b : PtrRingBuffer P N)

/-- `operator++` of the iterator with the given index -/
def advance (index : Nat) : Nat :=
  if (index + 1) % N = b.last then N else (index + 1) % N

/-- `operator*` of the iterator with the given index; there is nothing behind the buffer -/
def deref (index : Nat) : Option (Option P) :=
  if h : index < N then some (b.buffer ⟨index, h⟩) else none

/-- the pointers from an iterator on, at most `n` -/
def listFrom : Nat → Nat → List (Option P)
  | 0, _ => []
  | n + 1, index => match b.deref index with
    | none => []
    | some x => x :: listFrom n (b.advance index)

/-- the pointers from `begin()` to `end()` -/
def toList : List (Option P) := b.listFrom N b.last

/-- `for (it = begin(); it != end(); ++it)`: the slots where the body runs.  No sum overflows, since
an index is below `N` when it is advanced. -/
def iterate (fuel : Nat) : Option (List Nat) :=
  Loop.visit (fun index => decide (index = N)) b.advance fuel b.last

/-! ## iterating -/

/-- the index of the iterator after `j` steps -/
def position (j : Nat) : Nat := if j = N then N else (b.last + j) % N

/-- the pointer that the iterator meets after `j` steps -/
def cell [NeZero N] (j : Nat) : Option P :=
  b.buffer ⟨(b.last + j) % N, Nat.mod_lt _ (Nat.pos_of_neZero N)⟩

variable {b}

theorem position_zero [NeZero N] : b.position 0 = b.last := by
  rw [position, if_neg (Nat.pos_of_neZero N).ne, Nat.add_zero, Nat.mod_eq_of_lt b.last.2]

/-- the iterator comes back to `last` after `N` steps, and not before -/
theorem mod_eq_last {j : Nat} (hj : 0 < j) (hN : j ≤ N) : (b.last + j) % N = b.last ↔ j = N := by
  have hlt := b.last.2
  constructor
  · intro h
    by_contra hne
    rcases Nat.lt_or_ge (b.last + j) N with hsmall | hwrap
    · rw [Nat.mod_eq_of_lt hsmall] at h
      omega
    · rw [Nat.mod_eq_sub_mod hwrap, Nat.mod_eq_of_lt (by omega)] at h
      omega
  · rintro rfl
    rw [Nat.add_mod_right, Nat.mod_eq_of_lt hlt]

theorem advance_position {j : Nat} (hj : j < N) : b.advance (b.position j) = b.position (j + 1) := by
  have hmod : (b.position j + 1) % N = (b.last + (j + 1)) % N := by
    rw [position, if_neg hj.ne, Nat.mod_add_mod, Nat.add_assoc]
  rw [advance, hmod, position]
  exact if_congr (mod_eq_last (Nat.succ_pos j) hj) rfl rfl

theorem deref_position [NeZero N] {j : Nat} (hj : j < N) :
    b.deref (b.position j) = some (b.cell j) := by
  rw [deref, dif_pos]
  · congr 2
    apply Fin.ext
    exact if_neg hj.ne
  · rw [position, if_neg hj.ne]
    exact Nat.mod_lt _ (Nat.pos_of_neZero N)

theorem listFrom_position [NeZero N] {n j : Nat} (h : j + n = N) :
    b.listFrom n (b.position j) = (List.range' j n).map b.cell := by
  induction n generalizing j with
  | zero => rfl
  | succ n ih =>
    have hj : j < N := by omega
    rw [listFrom, deref_position hj, advance_position hj, List.range'_succ, List.map_cons]
    exact congrArg _ (ih (by omega))

theorem toList_eq [NeZero N] : b.toList = (List.range N).map b.cell := by
  rw [toList, ← position_zero, listFrom_position (Nat.zero_add N), ← List.range_eq_range']

@[simp] theorem length_toList [NeZero N] : b.toList.length = N := by
  rw [toList_eq, List.length_map, List.length_range]

/-! ## pushing -/

theorem toList_empty [NeZero N] : (empty : PtrRingBuffer P N).toList = List.replicate N none := by
  rw [toList_eq, List.eq_replicate_iff]
  refine ⟨by rw [List.length_map, List.length_range], fun x hx => ?_⟩
  obtain ⟨j, -, rfl⟩ := List.mem_map.mp hx
  rfl

/-- the cells of the buffer move by one, and the last one is new -/
theorem cell_push [NeZero N] (value : Option P) {j : Nat} (hj : j < N) :
    (b.push value).cell j = if j + 1 = N then value else b.cell (j + 1) := by
  have hidx : ((b.push value).last + j) % N = (b.last + (j + 1)) % N := by
    show ((b.last + 1) % N + j) % N = _
    rw [Nat.mod_add_mod, Nat.add_assoc, Nat.add_comm 1 j]
  have hcell : (b.push value).cell j =
      if ((b.push value).last + j) % N = b.last then value else b.cell (j + 1) := by
    show (if _ = b.last then value else _) = _
    refine if_congr Fin.ext_iff rfl ?_
    rw [cell]
    congr 2
  rw [hcell, hidx]
  exact if_congr (mod_eq_last (Nat.succ_pos j) hj) rfl rfl

theorem toList_push [NeZero N] (value : Option P) :
    (b.push value).toList = b.toList.tail ++ [value] := by
  have hN := Nat.pos_of_neZero N
  refine List.ext_getElem (by simp; omega) fun j h1 h2 => ?_
  have hj : j < N := by simpa using h1
  have hleft : (b.push value).toList[j] = (b.push value).cell j := by
    simp [toList_eq]
  rw [hleft, cell_push value hj, List.getElem_append]
  by_cases he : j + 1 = N
  · rw [if_pos he, dif_neg (by simp; omega)]
    simp
  · rw [if_neg he, dif_pos (by simp; omega)]
    simp [toList_eq]

/-- the last `N` of `N` null pointers and the pointers of `l` -/
def suffix (N : Nat) (l : List (Option P)) : List (Option P) :=
  (List.replicate N none ++ l).drop l.length

theorem suffix_concat [NeZero N] (l : List (Option P)) (x : Option P) :
    suffix N (l ++ [x]) = (suffix N l).tail ++ [x] := by
  have hN := Nat.pos_of_neZero N
  rw [suffix, suffix, ← List.append_assoc, List.length_append, List.tail_drop,
    List.length_singleton, List.drop_append_of_le_length]
  simp
  omega

theorem toList_foldl_push [NeZero N] (l : List (Option P)) :
    (l.foldl push (empty : PtrRingBuffer P N)).toList = suffix N l := by
  induction l using List.reverseRecOn with
  | nil => simp [suffix, toList_empty]
  | append_singleton l x ih =>
    rw [suffix_concat, ← ih, ← toList_push, List.foldl_append]
    rfl

/-! ## the loop over a buffer -/

theorem position_lt [NeZero N] {j : Nat} (hj : j < N) : b.position j < N := by
  rw [position, if_neg hj.ne]
  exact Nat.mod_lt _ (Nat.pos_of_neZero N)

theorem position_end : b.position N = N := if_pos rfl

/-- the loop from a position on goes through the positions behind it -/
theorem visits_position [NeZero N] {n j : Nat} (h : j + n = N) :
    Loop.Visits (fun index => decide (index = N)) b.advance (b.position j)
      ((List.range' j n).map b.position) := by
  induction n generalizing j with
  | zero =>
    obtain rfl : j = N := h
    exact .done (decide_eq_true position_end)
  | succ n ih =>
    have hj : j < N := by omega
    refine .turn (decide_eq_false (position_lt hj).ne) ?_
    rw [advance_position hj]
    exact ih (by omega)

theorem iterate_eq [NeZero N] (fuel : Nat) :
    b.iterate fuel = if N < fuel then some ((List.range N).map b.position) else none := by
  have h := (visits_position (b := b) (Nat.zero_add N)).visit fuel
  rwa [position_zero, ← List.range_eq_range', List.length_map, List.length_range] at h

/-- no two of the first `N` positions are one slot -/
theorem nodup_positions [NeZero N] : ((List.range N).map b.position).Nodup := by
  refine List.Nodup.map_on (fun i hi j hj h => ?_) List.nodup_range
  have hi := List.mem_range.mp hi
  have hj := List.mem_range.mp hj
  rw [position, position, if_neg hi.ne, if_neg hj.ne] at h
  have hmod : i ≡ j [MOD N] := Nat.ModEq.add_left_cancel' _ h
  exact hmod.eq_of_lt_of_lt hi hj

theorem map_deref_positions [NeZero N] :
    ((List.range N).map b.position).map b.deref = b.toList.map some := by
  rw [toList_eq, List.map_map, List.map_map]
  exact List.map_congr_left fun j hj => deref_position (List.mem_range.mp hj)

/-- the buffer after the pointers of `l` have been pushed -/
def pushed [NeZero N] (l : List (Option P)) : PtrRingBuffer P N := l.foldl push empty

/-- The loop over a buffer that was pushed to visits `N` slots, each once, and gives the last `N`
pointers, the oldest one first; so two such loops give the same pointers iff these are the same. -/
theorem iterate_suffix [NeZero N] (l : List (Option P)) :
    ∃ slots, (∀ fuel, (pushed l : PtrRingBuffer P N).iterate fuel =
        if N < fuel then some slots else none) ∧
      slots.length = N ∧ slots.Nodup ∧
      slots.map (pushed l : PtrRingBuffer P N).deref = (suffix N l).map some ∧
      ∀ l' slots', (pushed l' : PtrRingBuffer P N).iterate (N + 1) = some slots' →
        (slots.map (pushed l : PtrRingBuffer P N).deref =
          slots'.map (pushed l' : PtrRingBuffer P N).deref ↔ suffix N l = suffix N l') := by
  have hvalues : ∀ l : List (Option P), ((List.range N).map (pushed l : PtrRingBuffer P N).position).map
      (pushed l : PtrRingBuffer P N).deref = (suffix N l).map some := by
    intro l
    rw [map_deref_positions, pushed, toList_foldl_push]
  refine ⟨_, iterate_eq, by rw [List.length_map, List.length_range], nodup_positions, hvalues l, ?_⟩
  intro l' slots' h'
  rw [iterate_eq, if_pos (Nat.lt_succ_self N)] at h'
  obtain rfl := Option.some.inj h'
  rw [hvalues l, hvalues l']
  exact (List.map_injective_iff.mpr (Option.some_injective _)).eq_iff

theorem iterate_suffix_three :
    ∃ slots, (∀ fuel, (pushed [some 1, none, some 3, some 4] : PtrRingBuffer Nat 3).iterate fuel =
        if 3 < fuel then some slots else none) ∧
      slots.length = 3 ∧ slots.Nodup ∧
      slots.map (pushed [some 1, none, some 3, some 4] : PtrRingBuffer Nat 3).deref =
        [some none, some (some 3), some (some 4)] ∧
      ∀ l' slots', (pushed l' : PtrRingBuffer Nat 3).iterate (3 + 1) = some slots' →
        (slots.map (pushed [some 1, none, some 3, some 4] : PtrRingBuffer Nat 3).deref =
          slots'.map (pushed l' : PtrRingBuffer Nat 3).deref ↔
          suffix 3 [some 1, none, some 3, some 4] = suffix 3 l') :=
  iterate_suffix [some 1, none, some 3, some 4]

/-! ## pointers that are not null -/

/-- push pointers that are not null -/
def pushAll [NeZero N] (b : PtrRingBuffer P N) (l : List P) : PtrRingBuffer P N :=
  l.foldl (fun b x => b.push (some x)) b

/-- what an empty buffer holds after the pointers of `l` -/
def window (N : Nat) (l : List P) : List (Option P) :=
  (List.replicate N none ++ l.map some).drop l.length

theorem window_eq_suffix (l : List P) : window N l = suffix N (l.map some) := by
  rw [window, suffix, List.length_map]

theorem window_concat [NeZero N] (l : List P) (x : P) :
    window N (l ++ [x]) = (window N l).tail ++ [some x] := by
  rw [window_eq_suffix, window_eq_suffix, List.map_append]
  exact suffix_concat _ _

theorem toList_pushAll [NeZero N] (l : List P) :
    ((empty : PtrRingBuffer P N).pushAll l).toList = window N l := by
  rw [window_eq_suffix, ← toList_foldl_push, List.foldl_map]
  rfl

/-- the window without the null pointers -/
theorem reduceOption_window (l : List P) : (window N l).reduceOption = l.rtake N := by
  rw [window, List.drop_append, List.reduceOption_append, List.drop_replicate,
    List.reduceOption_replicate_none, List.nil_append, List.length_replicate, ← List.map_drop,
    List.rtake, List.reduceOption, List.filterMap_map]
  exact List.filterMap_some

/-- two windows are equal iff the last `N` pointers are -/
theorem window_inj {l l' : List P} : window N l = window N l' ↔ l.rtake N = l'.rtake N := by
  constructor
  · intro h
    rw [← reduceOption_window, h, reduceOption_window]
  · intro h
    have hform : ∀ l : List P, window N l =
        List.replicate (N - (l.rtake N).length) none ++ (l.rtake N).map some := by
      intro l
      rw [window, List.drop_append, List.drop_replicate, List.length_replicate, ← List.map_drop,
        List.rtake, List.length_drop]
      congr 2
      omega
    rw [hform, hform, h]

end PtrRingBuffer

end AserPTA
