import AserPTA.Context.KCallSite
import AserPTA.Program.CtxModule

/-!
# The context policies

The analysis takes its contexts from a policy: the context of the entry function, that of the globals, and
how a call makes the context of its callee from that of the caller.  A context is known by what it stands
for, and not by its pointer, as it is where contexts are interned exactly.

* `noCtx`, `kCallSite`, `kOrigin`, `hybridCtx`   the policies of the source;
* `kCallSite_evolve`, `Evolution.exact_iff`      the contexts of `kCallSite` are those of an evolution;
* `CtxDomain.Within`                             finitely many calls make finitely many contexts;
* `CtxDomain.Coarsens`                           a map from a policy to one that tells less apart;
* `Coarsens.toNoCtx`, `Coarsens.limit`, `Coarsens.limitOrigins`, `Coarsens.fst`, `Coarsens.snd`.
-/

namespace AserPTA

variable {I : Type}

/-! ## policies -/

/-- for context insensitive PTA -/
def noCtx : CtxDomain Unit I := ⟨(), (), fun _ _ => ()⟩

/-- the last call sites, none for the initial context; the global context is another one -/
inductive CallString (I : Type) where
  | globCtx
  | sites (l : List I)
  deriving DecidableEq

/-- the call sites that the constructor finds in the previous context -/
def CallString.toList : CallString I → List I
  | .globCtx => []
  | .sites l => l

def kCallSite (K : Nat) : CtxDomain (CallString I) I where
  getInitialCtx := .sites []
  getGlobalCtx := .globCtx
  contextEvolve prevCtx i := .sites ((prevCtx.toList ++ [i]).rtake K)

/-- `callback` says where an origin begins; other calls stay in the context of the caller -/
def kOrigin (K : Nat) (callback : CallString I → I → Bool) : CtxDomain (CallString I) I where
  getInitialCtx := .sites []
  getGlobalCtx := .globCtx
  contextEvolve prevCtx i :=
    if callback prevCtx i then (kCallSite K).contextEvolve prevCtx i else prevCtx

/-- a context of two policies; the first two are not in the set, whatever the set has -/
inductive HybridCtx (X Y : Type) where
  | initCtx
  | globCtx
  | ctxSet (a : X) (b : Y)
  deriving DecidableEq

section
variable {X Y : Type} (A : CtxDomain X I) (B : CtxDomain Y I)

def HybridCtx.getContext : HybridCtx X Y → X × Y
  | .initCtx => (A.getInitialCtx, B.getInitialCtx)
  | .globCtx => (A.getGlobalCtx, B.getGlobalCtx)
  | .ctxSet a b => (a, b)

/-- basically just delegate it to the two policies -/
def hybridCtx : CtxDomain (HybridCtx X Y) I where
  getInitialCtx := .initCtx
  getGlobalCtx := .globCtx
  contextEvolve prevCtx i := .ctxSet (A.contextEvolve (prevCtx.getContext A B).1 i)
    (B.contextEvolve (prevCtx.getContext A B).2 i)

end

/-! ## call strings -/

theorem rtake_rtake_of_le {m n : Nat} (h : m ≤ n) (l : List I) : (l.rtake n).rtake m = l.rtake m := by
  simp only [List.rtake_eq_reverse_take_reverse, List.reverse_reverse, List.take_take,
    Nat.min_eq_left h]

theorem rtake_concat_rtake (m : Nat) (l : List I) (i : I) :
    (l.rtake m ++ [i]).rtake m = (l ++ [i]).rtake m := by
  cases m with
  | zero => simp
  | succ m => rw [List.rtake_concat_succ, List.rtake_concat_succ, rtake_rtake_of_le m.le_succ]

/-- the context after the calls `sites` -/
theorem kCallSite_evolve (K : Nat) (sites : List I) :
    sites.foldl (kCallSite K).contextEvolve (kCallSite K).getInitialCtx = .sites (sites.rtake K) := by
  induction sites using List.reverseRecOn with
  | nil =>
    show CallString.sites [] = .sites (([] : List I).rtake K)
    rw [List.rtake_nil]
  | append_singleton sites i ih =>
    rw [List.foldl_append, ih]
    show CallString.sites ((sites.rtake K ++ [i]).rtake K) = _
    rw [rtake_concat_rtake]

/-- the pointers of an evolution are equal iff the contexts are -/
theorem Evolution.exact_iff {K : Nat} (s : Evolution I K) : s.Exact ↔
    ∀ a ∈ s.evolved, ∀ b ∈ s.evolved, a.1 = b.1 ↔
      a.2.foldl (kCallSite K).contextEvolve (kCallSite K).getInitialCtx =
        b.2.foldl (kCallSite K).contextEvolve (kCallSite K).getInitialCtx := by
  unfold Evolution.Exact
  simp only [kCallSite_evolve, CallString.sites.injEq]

/-! ## the contexts of a program -/

/-- the contexts that the calls `E` make of the initial one are among `D` -/
structure CtxDomain.Within {Ctx : Type} (T : CtxDomain Ctx I) (E : Finset I) (D : Finset Ctx) : Prop where
  initial : T.getInitialCtx ∈ D
  evolve : ∀ C ∈ D, ∀ i ∈ E, T.contextEvolve C i ∈ D

section
variable [DecidableEq I] (E : Finset I) {K : Nat}

/-- the lists of at most `K` calls -/
def strings : Nat → Finset (List I)
  | 0 => {[]}
  | K + 1 => insert [] ((E ×ˢ strings K).image fun p => p.1 :: p.2)

theorem mem_strings (l : List I) : l ∈ strings E K ↔ l.length ≤ K ∧ ∀ i ∈ l, i ∈ E := by
  induction K generalizing l with
  | zero =>
    cases l with
    | nil => simp [strings]
    | cons i l => simp [strings]
  | succ K ih =>
    cases l with
    | nil => simp [strings]
    | cons i l => simp [strings, ih, and_left_comm]

theorem rtake_mem_strings {l : List I} (h : ∀ i ∈ l, i ∈ E) : l.rtake K ∈ strings E K := by
  rw [mem_strings, List.rtake_eq_reverse_take_reverse]
  refine ⟨by simp, fun i hi => ?_⟩
  exact h i (List.mem_reverse.mp (List.mem_of_mem_take (List.mem_reverse.mp hi)))

theorem kCallSite_within (K : Nat) : (kCallSite K).Within E ((strings E K).image .sites) where
  initial := Finset.mem_image_of_mem _ ((mem_strings E []).mpr ⟨Nat.zero_le K, by simp⟩)
  evolve C hC i hi := by
    obtain ⟨l, hl, rfl⟩ := Finset.mem_image.mp hC
    refine Finset.mem_image_of_mem _ (rtake_mem_strings E fun j hj => ?_)
    rcases List.mem_append.mp hj with hj | hj
    · exact ((mem_strings E l).mp hl).2 j hj
    · rw [List.mem_singleton.mp hj]
      exact hi

theorem kOrigin_within (K : Nat) (callback : CallString I → I → Bool) :
    (kOrigin K callback).Within E ((strings E K).image .sites) where
  initial := (kCallSite_within E K).initial
  evolve C hC i hi := by
    show (if callback C i then (kCallSite K).contextEvolve C i else C) ∈ _
    split
    · exact (kCallSite_within E K).evolve C hC i hi
    · exact hC

end

theorem hybridCtx_within {X Y : Type} [DecidableEq X] [DecidableEq Y] {A : CtxDomain X I}
    {B : CtxDomain Y I} {E : Finset I} {D : Finset X} {D' : Finset Y} (hA : A.Within E D)
    (hB : B.Within E D') : (hybridCtx A B).Within E
      (insert .initCtx ((D ×ˢ D').image fun p => .ctxSet p.1 p.2)) where
  initial := Finset.mem_insert_self _ _
  evolve C hC i hi := by
    have hprev : (C.getContext A B).1 ∈ D ∧ (C.getContext A B).2 ∈ D' := by
      rcases Finset.mem_insert.mp hC with rfl | hC
      · exact ⟨hA.initial, hB.initial⟩
      · obtain ⟨p, hp, rfl⟩ := Finset.mem_image.mp hC
        exact Finset.mem_product.mp hp
    refine Finset.mem_insert_of_mem (Finset.mem_image.mpr ⟨(_, _), Finset.mem_product.mpr
      ⟨hA.evolve _ hprev.1 i hi, hB.evolve _ hprev.2 i hi⟩, rfl⟩)

/-! ## maps between policies -/

/-- a map of contexts that keeps the initial one, the global one and the evolution -/
structure CtxDomain.Coarsens {Ctx Ctx' : Type} (T : CtxDomain Ctx I) (T' : CtxDomain Ctx' I) where
  map : Ctx → Ctx'
  initial : map T.getInitialCtx = T'.getInitialCtx
  global : map T.getGlobalCtx = T'.getGlobalCtx
  evolve : ∀ C i, map (T.contextEvolve C i) = T'.contextEvolve (map C) i

namespace CallString

/-- the last `K` of the call sites -/
def limit (K : Nat) : CallString I → CallString I
  | .globCtx => .globCtx
  | .sites l => .sites (l.rtake K)

@[simp] theorem limit_nil (K : Nat) : (CallString.sites ([] : List I)).limit K = .sites [] := by
  show CallString.sites (([] : List I).rtake K) = _
  rw [List.rtake_nil]

theorem limit_evolve {K K' : Nat} (h : K ≤ K') (C : CallString I) (i : I) :
    ((kCallSite K').contextEvolve C i).limit K = (kCallSite K).contextEvolve (C.limit K) i := by
  cases C with
  | globCtx =>
    show CallString.sites ((([] ++ [i] : List I).rtake K').rtake K) = .sites (([] ++ [i]).rtake K)
    rw [rtake_rtake_of_le h]
  | sites l =>
    show CallString.sites (((l ++ [i]).rtake K').rtake K) = .sites ((l.rtake K ++ [i]).rtake K)
    rw [rtake_rtake_of_le h, rtake_concat_rtake]

end CallString

namespace CtxDomain.Coarsens

variable {Ctx X Y : Type}

/-- every policy tells apart what no contexts do -/
def toNoCtx (T : CtxDomain Ctx I) : T.Coarsens noCtx := ⟨fun _ => (), rfl, rfl, fun _ _ => rfl⟩

/-- shorter call strings tell less apart -/
def limit {K K' : Nat} (h : K ≤ K') : (kCallSite (I := I) K').Coarsens (kCallSite K) where
  map := CallString.limit K
  initial := CallString.limit_nil K
  global := rfl
  evolve := CallString.limit_evolve h

/-- and so do fewer origins, if the last of them decide where an origin begins -/
def limitOrigins {K K' : Nat} (h : K ≤ K') {callback : CallString I → I → Bool}
    (hcallback : ∀ C i, callback (C.limit K) i = callback C i) :
    (kOrigin K' callback).Coarsens (kOrigin K callback) where
  map := CallString.limit K
  initial := CallString.limit_nil K
  global := rfl
  evolve C i := by
    show (if callback C i then (kCallSite K').contextEvolve C i else C).limit K =
      if callback (C.limit K) i then (kCallSite K).contextEvolve (C.limit K) i else C.limit K
    rw [hcallback]
    split
    · exact CallString.limit_evolve h C i
    · rfl

def fst (A : CtxDomain X I) (B : CtxDomain Y I) : (hybridCtx A B).Coarsens A where
  map C := (C.getContext A B).1
  initial := rfl
  global := rfl
  evolve _ _ := rfl

def snd (A : CtxDomain X I) (B : CtxDomain Y I) : (hybridCtx A B).Coarsens B where
  map C := (C.getContext A B).2
  initial := rfl
  global := rfl
  evolve _ _ := rfl

end CtxDomain.Coarsens

end AserPTA
