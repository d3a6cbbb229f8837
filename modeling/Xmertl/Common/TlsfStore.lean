import Xmertl.Common.TlsfClasses
import Xmertl.Common.TlsfUse
import Xmertl.Lib.Refinement
import Xmertl.Lib.Stores

/-!
# A pool as a store

The calls of an allocator with what its callers do to their blocks, and the cells that they
see. Whatever copy of the allocator serves them: what a cell has is what its owner has put
there.
-/

namespace Xmertl.TlsfPool

open BoundaryTags Refinement Stores ThreadedLists TotalCorrectness

/-- A copy of the allocator, for pools that begin at one place. -/
structure Allocator (T : Type) where
  area : Area
  mem : T → Nat → Word
  withMem : T → (Nat → Word) → T
  mallocEx : T → Word → Option (Word × T)
  callocEx : T → Word → Word → Option (Word × T)
  freeEx : T → Word → Option T
  reallocEx : T → Word → Word → Option (Word × T)

abbrev Request := Stores.Request Word (BitVec 8)

/-- The pool, and the pointers that its callers hold with the sizes that they asked for. -/
structure Holdings (T : Type) where
  pool : T
  live : List (Word × Word)

def bytesOf (mem : Nat → Word) (p n : Word) : List (BitVec 8) :=
  (List.range n.toNat).map fun i => byteAt mem (p.toNat + i)

def cells (mem : Nat → Word) (live : List (Word × Word)) : Store Word (BitVec 8) := fun p =>
  (live.find? fun q => q.1 = p).map fun q => bytesOf mem p q.2

section
variable {T : Type}

/-- Sizes are up to the largest that a list is searched for; pointers are those that the
callers hold, and bytes are written within the size asked for. -/
def Holdings.Allows (x : Holdings T) : Request → Prop
  | .malloc size => size ≤ 2 ^ 30 - 2 ^ 24
  | .calloc nelem elemSize =>
    nelem < 2 ^ 32 ∧ elemSize < 2 ^ 32 ∧ nelem * elemSize ≤ 2 ^ 30 - 2 ^ 24
  | .free ptr => ptr ∈ x.live.map Prod.fst
  | .realloc ptr newSize =>
    (ptr = 0#32 ∨ ptr ∈ x.live.map Prod.fst) ∧ newSize ≤ 2 ^ 30 - 2 ^ 24
  | .write ptr i _ => ∃ q ∈ x.live, q.1 = ptr ∧ i < q.2.toNat

instance (x : Holdings T) : DecidablePred x.Allows
  | .malloc _ => inferInstanceAs (Decidable (_ ≤ _))
  | .calloc _ _ => inferInstanceAs (Decidable (_ ∧ _ ∧ _))
  | .free _ => inferInstanceAs (Decidable (_ ∈ _))
  | .realloc _ _ => inferInstanceAs (Decidable ((_ ∨ _) ∧ _))
  | .write _ _ _ => inferInstanceAs (Decidable (∃ q ∈ x.live, _ ∧ _))

def Holdings.store (A : Allocator T) (x : Holdings T) : Store Word (BitVec 8) :=
  cells (A.mem x.pool) x.live

def Holdings.serve (A : Allocator T) (x : Holdings T) : Request → Option (Word × Holdings T)
  | .malloc size => do
    let (p, pool) ← A.mallocEx x.pool (BitVec.ofNat 32 size)
    return (p, ⟨pool, renew x.live 0#32 p (BitVec.ofNat 32 size)⟩)
  | .calloc nelem elemSize => do
    let (p, pool) ← A.callocEx x.pool (BitVec.ofNat 32 nelem) (BitVec.ofNat 32 elemSize)
    return (p, ⟨pool, renew x.live 0#32 p (BitVec.ofNat 32 (nelem * elemSize))⟩)
  | .free ptr => do
    return (0#32, ⟨← A.freeEx x.pool ptr, renew x.live ptr 0#32 0#32⟩)
  | .realloc ptr newSize => do
    let (p, pool) ← A.reallocEx x.pool ptr (BitVec.ofNat 32 newSize)
    return (p, ⟨pool, renew x.live ptr p (BitVec.ofNat 32 newSize)⟩)
  | .write ptr i value => do
    let mem ← A.area.storeByte (A.mem x.pool) (ptr + BitVec.ofNat 32 i) value
    return (0#32, { x with pool := A.withMem x.pool mem })

def Holdings.step (A : Allocator T) (x : Holdings T) (r : Request) : Option (Word × Holdings T) :=
  if x.Allows r then x.serve A r else none

/-- `calloc_ex` by the copy's `malloc_ex`. -/
def Allocator.callocBy (A : Allocator T) (t : T) (nelem elemSize : Word) : Option (Word × T) := do
  if nelem = 0#32 ∨ elemSize = 0#32 then return (0#32, t)
  let (ptr, t) ← A.mallocEx t (nelem * elemSize)
  if ptr = 0#32 then return (0#32, t)
  let mem ← memset A.area 0#8 (nelem * elemSize).toNat (A.mem t) ptr
  return (ptr, A.withMem t mem)

/-- `realloc_ex` by the copy's other calls, but where it has a block and a size. -/
def Allocator.reallocBy (A : Allocator T) (moves : T → Word → Word → Option (Word × T)) (t : T)
    (ptr newSize : Word) : Option (Word × T) := do
  if ptr = 0#32 then
    if newSize ≠ 0#32 then A.mallocEx t newSize else return (0#32, t)
  else if newSize = 0#32 then return (0#32, ← A.freeEx t ptr)
  else moves t ptr newSize

/-- What the calls of a copy do to the blocks, where `Rep t bs` says that `bs` are those of `t`. -/
structure Allocator.Lawful {ι : Type} (A : Allocator T) (G : Geometry) (cellOf : Nat → Option ι)
    (Rep : T → List Block → Prop) : Prop where
  area : G.area = A.area
  blocks : ∀ t bs, Rep t bs → ∃ w L, Blocks G cellOf w bs L
  rewrite : ∀ t bs z k mem, Rep t bs → Used G bs z k →
    (∀ a, a < z + 8 ∨ z + k < a → mem a = A.mem t a) →
      Rep (A.withMem t mem) bs ∧ A.mem (A.withMem t mem) = mem
  malloc : ∀ t bs v, Rep t bs → v.toNat ≤ 2 ^ 30 - 2 ^ 24 → Returns (A.mallocEx t v) fun q =>
    q = (0#32, t) ∨ ∃ bs' x k, q.1 = pointerTo (some x) ∧ v.toNat + G.overhead ≤ k ∧ Rep q.2 bs' ∧
      Changed G (A.mem t) (A.mem q.2) bs bs' none (some (x, k))
  calloc : A.callocEx = A.callocBy
  free : ∀ t bs x n, Rep t bs → Used G bs x n → Returns (A.freeEx t (pointerTo (some x))) fun t' =>
    ∃ bs', Rep t' bs' ∧ Changed G (A.mem t) (A.mem t') bs bs' (some x) none
  reallocs : ∃ moves, A.reallocEx = A.reallocBy moves
  realloc : ∀ t bs x n v q, Rep t bs → Used G bs x n → v.toNat ≤ 2 ^ 30 - 2 ^ 24 → v ≠ 0#32 →
    A.reallocEx t (pointerTo (some x)) v = some q →
      ∃ bs' y k, q.1 = pointerTo (some y) ∧ v.toNat + G.overhead ≤ k ∧ Rep q.2 bs' ∧
        Changed G (A.mem t) (A.mem q.2) bs bs' (some x) (some (y, k)) ∧
        Carried (A.mem t) (A.mem q.2) x y (min (n - G.overhead) v.toNat)

/-- A copy is lawful whose calls do to the state, and so to the blocks, what `Turns` says. -/
theorem Allocator.Lawful.of_turns {ι : Type} {A : Allocator T} {G : Geometry}
    {cellOf : Nat → Option ι} {Rep : T → List Block → Prop}
    (Turns : T → T → List Block → List Block → Option Nat → Option (Nat × Nat) → Prop)
    (harea : G.area = A.area) (hblocks : ∀ t bs, Rep t bs → ∃ w L, Blocks G cellOf w bs L)
    (hrewrite : ∀ t bs z k mem, Rep t bs → Used G bs z k →
      (∀ a, a < z + 8 ∨ z + k < a → mem a = A.mem t a) →
        Rep (A.withMem t mem) bs ∧ A.mem (A.withMem t mem) = mem)
    (hturns : ∀ t t' bs bs' gone come, Turns t t' bs bs' gone come →
      Rep t' bs' ∧ Changed G (A.mem t) (A.mem t') bs bs' gone come)
    (hmalloc : ∀ t bs v, Rep t bs → v.toNat ≤ 2 ^ 30 - 2 ^ 24 → Returns (A.mallocEx t v) fun q =>
      q = (0#32, t) ∨ ∃ bs' x k, q.1 = pointerTo (some x) ∧ v.toNat + G.overhead ≤ k ∧
        Turns t q.2 bs bs' none (some (x, k)))
    (hcalloc : A.callocEx = A.callocBy)
    (hfree : ∀ t bs x n, Rep t bs → Used G bs x n →
      Returns (A.freeEx t (pointerTo (some x))) fun t' => ∃ bs', Turns t t' bs bs' (some x) none)
    (hreallocs : ∃ moves, A.reallocEx = A.reallocBy moves)
    (hrealloc : ∀ t bs x n v, Rep t bs → Used G bs x n → v.toNat ≤ 2 ^ 30 - 2 ^ 24 → v ≠ 0#32 →
      (Returns (A.reallocEx t (pointerTo (some x)) v) fun q => ∃ bs' y k,
        q.1 = pointerTo (some y) ∧ v.toNat + G.overhead ≤ k ∧
        Turns t q.2 bs bs' (some x) (some (y, k)) ∧
        Carried (A.mem t) (A.mem q.2) x y (min (n - G.overhead) v.toNat)) ∨
      A.reallocEx t (pointerTo (some x)) v = none) :
    A.Lawful G cellOf Rep where
  area := harea
  blocks := hblocks
  rewrite := hrewrite
  malloc t bs v h hv := by
    refine (hmalloc t bs v h hv).mono fun q hq => hq.imp_right ?_
    rintro ⟨bs', x, k, hp, hk, hq⟩
    obtain ⟨hrep, hchanged⟩ := hturns _ _ _ _ _ _ hq
    exact ⟨bs', x, k, hp, hk, hrep, hchanged⟩
  calloc := hcalloc
  free t bs x n h hx := by
    refine (hfree t bs x n h hx).mono ?_
    rintro t' ⟨bs', ht⟩
    exact ⟨bs', hturns _ _ _ _ _ _ ht⟩
  reallocs := hreallocs
  realloc t bs x n v q h hx hv hv₀ hq := by
    rcases hrealloc t bs x n v h hx hv hv₀ with hret | hnone
    · obtain ⟨bs', y, k, hp, hk, ht, hcarried⟩ := hret.of_eq hq
      obtain ⟨hrep, hchanged⟩ := hturns _ _ _ _ _ _ ht
      exact ⟨bs', y, k, hp, hk, hrep, hchanged, hcarried⟩
    · exact absurd (hnone.symm.trans hq) (Option.some_ne_none _).symm

-- ---------------------------------------------------------------------------
-- Cells
-- ---------------------------------------------------------------------------

section
variable {G : Geometry} {mem mem' : Nat → Word} {live : List (Word × Word)} {p n old new v : Word}
  {bs bs' : List Block} {i z k : Nat} {b : BitVec 8}

@[simp] theorem bytesOf_length : (bytesOf mem p n).length = n.toNat := by simp [bytesOf]

theorem bytesOf_congr (h : ∀ i < n.toNat, byteAt mem' (p.toNat + i) = byteAt mem (p.toNat + i)) :
    bytesOf mem' p n = bytesOf mem p n :=
  List.map_congr_left fun i hi => h i (List.mem_range.mp hi)

theorem cells_some (h : (live.map Prod.fst).Nodup) (hp : (p, n) ∈ live) :
    cells mem live p = some (bytesOf mem p n) := by
  have hfind : (live.find? fun q => q.1 = p) = some (p, n) := by
    induction live with
    | nil => cases hp
    | cons q live ih =>
      rw [List.map_cons, List.nodup_cons] at h
      rcases List.mem_cons.mp hp with rfl | hp
      · simp
      · have hne : q.1 ≠ p := by
          rintro rfl
          exact h.1 (List.mem_map.mpr ⟨_, hp, rfl⟩)
        rw [List.find?_cons_of_neg (by simpa using hne)]
        exact ih h.2 hp
  rw [cells, hfind]
  rfl

theorem cells_none (hp : p ∉ live.map Prod.fst) : cells mem live p = none := by
  have hfind : (live.find? fun q => q.1 = p) = none := by
    refine List.find?_eq_none.mpr fun q hq he => hp (List.mem_map.mpr ⟨q, hq, ?_⟩)
    simpa using he
  rw [cells, hfind]
  rfl

theorem cells_cases (mem : Nat → Word) (h : (live.map Prod.fst).Nodup) (p : Word) :
    (∃ n, (p, n) ∈ live ∧ cells mem live p = some (bytesOf mem p n)) ∨
      p ∉ live.map Prod.fst ∧ cells mem live p = none := by
  by_cases hp : p ∈ live.map Prod.fst
  · obtain ⟨⟨_, n⟩, hq, rfl⟩ := List.mem_map.mp hp
    exact .inl ⟨n, hq, cells_some h hq⟩
  · exact .inr ⟨hp, cells_none hp⟩

variable {ι : Type} {cellOf : Nat → Option ι} {w w' : FreeLists ι} {L L' : ι → List Nat}

theorem Owned.pointer (h : Owned G live bs) (hb : Blocks G cellOf w bs L) (hp : (p, n) ∈ live) :
    ∃ z k, Used G bs z k ∧ p = pointerTo (some z) ∧ p.toNat = z + 8 ∧ 4 ∣ z ∧
      n.toNat + G.overhead ≤ k := by
  obtain ⟨z, k, hz, rfl, hk⟩ := h.block p n hp
  exact ⟨z, k, hz, rfl, pointerTo_toNat (hb.used_lt hz).1, (hb.used_bounds hz).2, hk⟩

theorem Owned.null_not_mem (h : Owned G live bs) (hb : Blocks G cellOf w bs L) :
    0#32 ∉ live.map Prod.fst := by
  intro h0
  obtain ⟨⟨p, n⟩, hp, he⟩ := List.mem_map.mp h0
  obtain ⟨z, k, hz, hpz, -⟩ := h.pointer hb hp
  exact pointerTo_ne_zero hb hz (hpz.symm.trans he)

theorem Owned.bytes_kept (h : Owned G live bs) (hb : Blocks G cellOf w bs L)
    (hs : Swapped G mem mem' bs bs' old new v) (hp : (p, n) ∈ live) (hne : p ≠ old) :
    bytesOf mem' p n = bytesOf mem p n := by
  obtain ⟨z, k, -, -, hpz, h4, -⟩ := h.pointer hb hp
  refine bytesOf_congr fun i hi => byteAt_congr ?_ rfl
  exact h.kept hb hs hp hne (by omega) (by omega)

/-- The cell under `old` goes and one under `new` comes; the others are as they were. -/
theorem Owned.cells_renew (h : Owned G live bs) (hb : Blocks G cellOf w bs L)
    (ho : Owned G (renew live old new v) bs') (hs : Swapped G mem mem' bs bs' old new v) :
    cells mem' (renew live old new v) = if new = 0#32 then Function.update (cells mem live) old none
      else Function.update (Function.update (cells mem live) old none) new
        (some (bytesOf mem' new v)) := by
  have hrest : ∀ p, (new = 0#32 ∨ p ≠ new) →
      cells mem' (renew live old new v) p = Function.update (cells mem live) old none p := by
    intro p hp
    have hin : ∀ n, (p, n) ∈ renew live old new v ↔ (p, n) ∈ live ∧ p ≠ old := by
      intro n
      rw [mem_renew, or_iff_left]
      rintro ⟨hnew, rfl, -⟩
      exact hp.elim hnew fun hne => hne rfl
    by_cases hold : p = old
    · rw [hold, Function.update_self]
      refine cells_none fun hq => ?_
      obtain ⟨⟨q, n⟩, hq, he⟩ := List.mem_map.mp hq
      obtain rfl : q = p := he.trans hold.symm
      exact ((hin n).mp hq).2 hold
    · rw [Function.update_of_ne hold]
      rcases cells_cases _ h.once p with ⟨n, hq, he⟩ | ⟨hq, he⟩
      · rw [he, cells_some ho.once ((hin n).mpr ⟨hq, hold⟩), h.bytes_kept hb hs hq hold]
      · rw [he]
        refine cells_none fun hin' => hq ?_
        obtain ⟨⟨q, n⟩, hlive, he'⟩ := List.mem_map.mp hin'
        obtain rfl : q = p := he'
        exact List.mem_map.mpr ⟨_, ((hin n).mp hlive).1, rfl⟩
  split
  · rename_i hnull
    exact funext fun p => hrest p (.inl hnull)
  · rename_i hnew
    refine funext fun p => ?_
    by_cases hp : p = new
    · rw [hp, Function.update_self]
      exact cells_some ho.once (mem_renew.mpr (.inr ⟨hnew, rfl, rfl⟩))
    · rw [Function.update_of_ne hp]
      exact hrest p (.inr hp)

theorem Owned.come_fresh (h : Owned G live bs) (hb : Blocks G cellOf w bs L)
    (hb' : Blocks G cellOf w' bs' L') {gone : Option Nat}
    (hc : Changed G mem mem' bs bs' gone (some (z, k))) :
    pointerTo (some z) = pointerTo gone ∨ cells mem live (pointerTo (some z)) = none := by
  rcases cells_cases mem h.once (pointerTo (some z)) with ⟨n, hq, -⟩ | ⟨-, he⟩
  · obtain ⟨y, m, hy, hpy, -, -, -⟩ := h.pointer hb hq
    have hz : Used G bs' z k := (hc.used z k).mpr (.inr rfl)
    obtain rfl := (pointerTo_inj (hb'.used_lt hz).1 (hb.used_lt hy).1).mp hpy
    exact .inl (by rw [hc.fresh z k m rfl hy])
  · exact .inr he

theorem Owned.cells_write (h : Owned G live bs) (hb : Blocks G cellOf w bs L) (hp : (p, n) ∈ live)
    (hi : i < n.toNat) : cells (setByteAt mem (p.toNat + i) b) live =
      Function.update (cells mem live) p (some ((bytesOf mem p n).set i b)) := by
  refine funext fun q => ?_
  by_cases hq : q = p
  · rw [hq, Function.update_self, cells_some h.once hp]
    refine congrArg some (List.ext_getElem (by simp) fun j hj _ => ?_)
    rw [List.getElem_set]
    simp only [bytesOf, List.getElem_map, List.getElem_range, byteAt_setByteAt]
    by_cases hij : i = j
    · rw [if_pos hij, if_pos (by rw [hij])]
    · rw [if_neg hij, if_neg (by omega)]
  · rw [Function.update_of_ne hq]
    rcases cells_cases mem h.once q with ⟨m, hm, he⟩ | ⟨hm, he⟩
    · rw [he, cells_some h.once hm]
      refine congrArg some (bytesOf_congr fun j hj => ?_)
      obtain ⟨z, k, hz, rfl, hpz, h4, hk⟩ := h.pointer hb hp
      obtain ⟨y, l, hy, rfl, hqy, -, hl⟩ := h.pointer hb hm
      have hne : y ≠ z := by
        rintro rfl
        exact hq rfl
      have hap := hy.apart hz hne
      have ho := G.four_le
      rw [byteAt_setByteAt, if_neg (by omega)]
    · rw [he, cells_none hm]

end

-- ---------------------------------------------------------------------------
-- The calls
-- ---------------------------------------------------------------------------

structure Holdings.Sound (G : Geometry) (Rep : T → List Block → Prop) (x : Holdings T)
    (bs : List Block) : Prop where
  rep : Rep x.pool bs
  owned : Owned G x.live bs

section
variable {ι : Type} {cellOf : Nat → Option ι} {A : Allocator T} {G : Geometry}
  {Rep : T → List Block → Prop} {x y : Holdings T}
  {bs bs' : List Block} {t t' : T} {old new v e p : Word} {r : Request}

theorem Changed.rewrite {w : FreeLists ι} {L : ι → List Nat} {mem mem₁ mem₂ : Nat → Word} {z k : Nat}
    (h : Changed G mem mem₁ bs bs' none (some (z, k))) (hb : Blocks G cellOf w bs' L)
    (hm : ∀ a, a < z + 8 ∨ z + k < a → mem₂ a = mem₁ a) :
    Changed G mem mem₂ bs bs' none (some (z, k)) := by
  refine ⟨h.used, h.fresh, fun y j a hy hg hlo hhi => ?_⟩
  have hz : Used G bs' z k := (h.used z k).mpr (.inr rfl)
  have hy' : Used G bs' y j := (h.used y j).mpr (.inl ⟨hy, hg⟩)
  have hne : y ≠ z := by
    rintro rfl
    cases h.fresh y k j rfl hy
  have hfit : Fits ⟨k, false⟩ := hb.fits _ (mem_of_placed hz)
  have hap := hy'.apart hz hne
  rw [hm a (by omega)]
  exact h.kept y j a hy hg hlo hhi

theorem Allocator.Lawful.callocEx (hA : A.Lawful G cellOf Rep) (h : Rep t bs)
    (hv : v.toNat * e.toNat ≤ 2 ^ 30 - 2 ^ 24) : Returns (A.callocEx t v e) fun q => q = (0#32, t) ∨
      ∃ bs' x k, q.1 = pointerTo (some x) ∧ v.toNat * e.toNat + G.overhead ≤ k ∧ Rep q.2 bs' ∧
        Changed G (A.mem t) (A.mem q.2) bs bs' none (some (x, k)) ∧
        ∀ i < v.toNat * e.toNat, byteAt (A.mem q.2) (x + 8 + i) = 0#8 := by
  rw [hA.calloc, Allocator.callocBy]
  split
  · exact .pure (.inl rfl)
  have hmul : (v * e).toNat = v.toNat * e.toNat := by
    rw [BitVec.toNat_mul, Nat.mod_eq_of_lt (by omega)]
  have hm := hA.malloc t bs (v * e) h (by omega)
  rw [hmul] at hm
  refine Returns.bind hm ?_
  rintro ⟨p, t₁⟩ (hq | ⟨bs₁, x, k, hp, hk, hrep, hch⟩)
  · obtain ⟨rfl, rfl⟩ := Prod.mk.inj hq
    exact .pure (.inl rfl)
  dsimp only at hp hrep hch ⊢
  obtain ⟨w, L, hb⟩ := hA.blocks _ _ hrep
  have hx : Used G bs₁ x k := (hch.used x k).mpr (.inr rfl)
  have hlast := (hb.used_lt hx).2
  obtain ⟨hfirst, hx4⟩ := hb.used_bounds hx
  have hk4 : 4 ∣ k := (hb.fits _ (mem_of_placed hx)).2
  have ho := G.four_le
  rw [if_neg (hp ▸ pointerTo_ne_zero hb hx), hmul, hp, pointerTo]
  refine Returns.bind (memset_spec fun i hi =>
    hA.area ▸ G.has (by omega) (by omega) (by omega)) ?_
  rintro mem ⟨hset, -, hword⟩
  have hout : ∀ a, a < x + 8 ∨ x + k < a → mem a = A.mem t₁ a := fun a ha =>
    hword a fun i hi => by omega
  obtain ⟨hrep', hmem⟩ := hA.rewrite _ _ x k mem hrep hx hout
  refine .pure (.inr ⟨bs₁, x, k, rfl, hk, hrep', ?_⟩)
  dsimp only
  rw [hmem]
  exact ⟨hch.rewrite hb hout, hset⟩

theorem Allocator.Lawful.realloc_null (hA : A.Lawful G cellOf Rep) (t : T) (v : Word) :
    A.reallocEx t 0#32 v = if v ≠ 0#32 then A.mallocEx t v else some (0#32, t) := by
  obtain ⟨moves, hmoves⟩ := hA.reallocs
  rw [hmoves, Allocator.reallocBy, if_pos rfl]
  rfl

theorem Allocator.Lawful.realloc_zero (hA : A.Lawful G cellOf Rep) (t : T) (hp : p ≠ 0#32) :
    A.reallocEx t p 0#32 = (A.freeEx t p).map fun t => (0#32, t) := by
  obtain ⟨moves, hmoves⟩ := hA.reallocs
  rw [hmoves, Allocator.reallocBy, if_neg hp, if_pos rfl]
  exact Option.map_eq_bind.symm

theorem swapped_refl {mem : Nat → Word} : Swapped G mem mem bs bs 0#32 0#32 v := by
  refine ⟨none, none, ⟨fun z k => ?_, nofun, fun _ _ _ _ _ _ _ => rfl⟩, rfl, nofun, rfl, nofun⟩
  simp

theorem Holdings.Sound.swap (hA : A.Lawful G cellOf Rep) (h : x.Sound G Rep bs) (hrep : Rep t' bs')
    (hs : Swapped G (A.mem x.pool) (A.mem t') bs bs' old new v) :
    Holdings.Sound G Rep ⟨t', renew x.live old new v⟩ bs' ∧
      Holdings.store A ⟨t', renew x.live old new v⟩ =
        if new = 0#32 then Function.update (x.store A) old none
        else Function.update (Function.update (x.store A) old none) new
          (some (bytesOf (A.mem t') new v)) := by
  obtain ⟨w, L, hb⟩ := hA.blocks _ _ h.rep
  obtain ⟨w', L', hb'⟩ := hA.blocks _ _ hrep
  have ho := h.owned.swap hb hb' hs
  exact ⟨⟨hrep, ho⟩, h.owned.cells_renew hb ho hs⟩

theorem Holdings.Sound.store_null (hA : A.Lawful G cellOf Rep) (h : x.Sound G Rep bs) :
    x.store A 0#32 = none := by
  obtain ⟨w, L, hb⟩ := hA.blocks _ _ h.rep
  exact cells_none (h.owned.null_not_mem hb)

theorem Holdings.Sound.gives (hA : A.Lawful G cellOf Rep) (h : x.Sound G Rep bs)
    (new : List (BitVec 8) → Prop) {q : Word × T}
    (hq : q = (0#32, x.pool) ∨ ∃ bs' z k, q.1 = pointerTo (some z) ∧ v.toNat + G.overhead ≤ k ∧
      Rep q.2 bs' ∧ Changed G (A.mem x.pool) (A.mem q.2) bs bs' none (some (z, k)) ∧
      new (bytesOf (A.mem q.2) q.1 v)) :
    (∃ bs', Holdings.Sound G Rep ⟨q.2, renew x.live 0#32 q.1 v⟩ bs') ∧
      Gives 0#32 (x.store A) new q.1 (Holdings.store A ⟨q.2, renew x.live 0#32 q.1 v⟩) := by
  have hnull : Function.update (x.store A) 0#32 none = x.store A :=
    Function.update_eq_self_iff.mpr (h.store_null hA).symm
  rcases hq with rfl | ⟨bs', z, k, hp, hk, hrep, hc, hnew⟩
  · obtain ⟨hsound, hstore⟩ := h.swap hA h.rep (swapped_refl (v := v))
    rw [if_pos rfl, hnull] at hstore
    exact ⟨⟨bs, hsound⟩, .inl ⟨rfl, hstore⟩⟩
  · have hs : Swapped G (A.mem x.pool) (A.mem q.2) bs bs' 0#32 q.1 v := by
      refine ⟨none, some (z, k), hc, rfl, nofun, hp, fun z' k' he => ?_⟩
      obtain ⟨-, rfl⟩ := Prod.mk.inj (Option.some.inj he)
      exact hk
    obtain ⟨w, L, hb⟩ := hA.blocks _ _ h.rep
    obtain ⟨w', L', hb'⟩ := hA.blocks _ _ hrep
    have hne : q.1 ≠ 0#32 := hp ▸ pointerTo_ne_zero hb' ((hc.used z k).mpr (.inr rfl))
    obtain ⟨hsound, hstore⟩ := h.swap hA hrep hs
    rw [if_neg hne, hnull] at hstore
    have hfresh : x.store A q.1 = none := by
      rcases h.owned.come_fresh hb hb' hc with hz | hz
      · exact absurd (hp.trans hz) hne
      · exact hp ▸ hz
    exact ⟨⟨bs', hsound⟩, .inr ⟨hne, hfresh, _, hnew, hstore⟩⟩

theorem Holdings.Sound.frees (hA : A.Lawful G cellOf Rep) (h : x.Sound G Rep bs)
    (hp : p ∈ x.live.map Prod.fst) : Returns (A.freeEx x.pool p) fun t' =>
      (∃ bs', Holdings.Sound G Rep ⟨t', renew x.live p 0#32 v⟩ bs') ∧
        Holdings.store A ⟨t', renew x.live p 0#32 v⟩ = Function.update (x.store A) p none := by
  obtain ⟨⟨_, n⟩, hlive, rfl⟩ := List.mem_map.mp hp
  obtain ⟨z, k, hz, rfl, -⟩ := h.owned.block _ n hlive
  refine (hA.free _ _ z k h.rep hz).mono fun t' ⟨bs', hrep, hc⟩ => ?_
  have hs : Swapped G (A.mem x.pool) (A.mem t') bs bs' (pointerTo (some z)) 0#32 v :=
    ⟨some z, none, hc, rfl, fun z' he => ⟨k, Option.some.inj he ▸ hz⟩, rfl, nofun⟩
  obtain ⟨hsound, hstore⟩ := h.swap hA hrep hs
  rw [if_pos rfl] at hstore
  exact ⟨⟨bs', hsound⟩, hstore⟩

theorem Holdings.Sound.moves (hA : A.Lawful G cellOf Rep) (h : x.Sound G Rep bs)
    (hp : p ∈ x.live.map Prod.fst) (hv : v.toNat ≤ 2 ^ 30 - 2 ^ 24) (hv₀ : v ≠ 0#32) {q : Word × T}
    (hq : A.reallocEx x.pool p v = some q) :
    (∃ bs', Holdings.Sound G Rep ⟨q.2, renew x.live p q.1 v⟩ bs') ∧
      Moves 0#32 (x.store A) p v.toNat q.1 (Holdings.store A ⟨q.2, renew x.live p q.1 v⟩) := by
  obtain ⟨⟨_, n⟩, hlive, rfl⟩ := List.mem_map.mp hp
  obtain ⟨w, L, hb⟩ := hA.blocks _ _ h.rep
  obtain ⟨z, k, hz, rfl, hpz, -, hk⟩ := h.owned.pointer hb hlive
  obtain ⟨bs', y, j, hqy, hj, hrep, hc, hcarried⟩ := hA.realloc _ _ z k v q h.rep hz hv hv₀ hq
  obtain ⟨w', L', hb'⟩ := hA.blocks _ _ hrep
  have hy : Used G bs' y j := (hc.used y j).mpr (.inr rfl)
  have hne : q.1 ≠ 0#32 := hqy ▸ pointerTo_ne_zero hb' hy
  have hs : Swapped G (A.mem x.pool) (A.mem q.2) bs bs' (pointerTo (some z)) q.1 v := by
    refine ⟨some z, some (y, j), hc, rfl, fun z' he => ⟨k, Option.some.inj he ▸ hz⟩, hqy,
      fun z' k' he => ?_⟩
    obtain ⟨-, rfl⟩ := Prod.mk.inj (Option.some.inj he)
    exact hj
  obtain ⟨hsound, hstore⟩ := h.swap hA hrep hs
  rw [if_neg hne] at hstore
  refine ⟨⟨bs', hsound⟩, hne, ?_, bytesOf (A.mem x.pool) _ n, _, cells_some h.owned.once hlive,
    bytesOf_length, ?_, hstore⟩
  · rw [hqy]
    exact h.owned.come_fresh hb hb' hc
  · have hqn : q.1.toNat = y + 8 := hqy ▸ pointerTo_toNat (hb'.used_lt hy).1
    refine List.ext_getElem (by simp) fun i hi _ => ?_
    simp only [List.length_take, bytesOf_length] at hi
    simp only [List.getElem_take, bytesOf, List.getElem_map, List.getElem_range, hqn, hpz]
    exact hcarried i (by omega)

theorem Holdings.Sound.step (hA : A.Lawful G cellOf Rep) (h : x.Sound G Rep bs)
    (hstep : x.step A r = some (p, y)) :
    (∃ bs', y.Sound G Rep bs') ∧ Stores.Step 0#32 0#8 (x.store A) r p (y.store A) := by
  have hr : x.Allows r := by
    by_contra hnot
    simp [Holdings.step, hnot] at hstep
  rw [Holdings.step, if_pos hr] at hstep
  cases r with
  | malloc size =>
    have hsize : (BitVec.ofNat 32 size).toNat = size :=
      toNat_ofNat (hr.trans_lt (by decide))
    obtain ⟨q, hq, hstep⟩ := Option.bind_eq_some_iff.mp hstep
    obtain ⟨rfl, rfl⟩ := Prod.mk.inj (Option.some.inj hstep)
    refine h.gives hA _ (((hA.malloc _ _ _ h.rep (hsize.symm ▸ hr)).of_eq hq).imp_right ?_)
    rintro ⟨bs', z, k, hp, hk, hrep, hc⟩
    exact ⟨bs', z, k, hp, hk, hrep, hc, bytesOf_length.trans hsize⟩
  | calloc nelem elemSize =>
    obtain ⟨hn, he, hne⟩ := hr
    have hsize : (BitVec.ofNat 32 (nelem * elemSize)).toNat = nelem * elemSize :=
      toNat_ofNat (hne.trans_lt (by decide))
    obtain ⟨q, hq, hstep⟩ := Option.bind_eq_some_iff.mp hstep
    obtain ⟨rfl, rfl⟩ := Prod.mk.inj (Option.some.inj hstep)
    have hcalloc := hA.callocEx (v := BitVec.ofNat 32 nelem) (e := BitVec.ofNat 32 elemSize) h.rep
    rw [toNat_ofNat hn, toNat_ofNat he] at hcalloc
    refine h.gives hA _ (((hcalloc hne).of_eq hq).imp_right ?_)
    rintro ⟨bs', z, k, hp, hk, hrep, hc, hzero⟩
    obtain ⟨w', L', hb'⟩ := hA.blocks _ _ hrep
    have hz : Used G bs' z k := (hc.used z k).mpr (.inr rfl)
    refine ⟨bs', z, k, hp, hsize.symm ▸ hk, hrep, hc, ?_⟩
    refine List.eq_replicate_iff.mpr ⟨bytesOf_length.trans hsize, fun b hb => ?_⟩
    obtain ⟨i, hi, rfl⟩ := List.mem_map.mp hb
    rw [hp, pointerTo_toNat (hb'.used_lt hz).1]
    exact hzero i (by simpa [hsize] using hi)
  | free ptr =>
    obtain ⟨t', ht', hstep⟩ := Option.bind_eq_some_iff.mp hstep
    obtain ⟨rfl, rfl⟩ := Prod.mk.inj (Option.some.inj hstep)
    obtain ⟨hsound, hstore⟩ := (h.frees hA hr).of_eq ht'
    exact ⟨hsound, rfl, hstore⟩
  | realloc ptr newSize =>
    obtain ⟨hptr, hle⟩ := hr
    have hsize : (BitVec.ofNat 32 newSize).toNat = newSize :=
      toNat_ofNat (hle.trans_lt (by decide))
    have hzero : BitVec.ofNat 32 newSize = 0#32 ↔ newSize = 0 := by
      rw [← BitVec.toNat_inj, hsize]
      rfl
    obtain ⟨q, hq, hstep⟩ := Option.bind_eq_some_iff.mp hstep
    obtain ⟨rfl, rfl⟩ := Prod.mk.inj (Option.some.inj hstep)
    by_cases hnull : ptr = 0#32
    · subst hnull
      rw [hA.realloc_null] at hq
      by_cases h0 : newSize = 0
      · subst h0
        obtain rfl := Option.some.inj hq
        obtain ⟨hsound, hstore⟩ := h.swap hA h.rep swapped_refl
        exact ⟨⟨bs, hsound⟩, rfl, hstore⟩
      · rw [if_pos (mt hzero.mp h0)] at hq
        obtain ⟨hsound, hgives⟩ := h.gives hA (·.length = newSize)
          (((hA.malloc _ _ _ h.rep (hsize.symm ▸ hle)).of_eq hq).imp_right fun
            ⟨bs', z, k, hp, hk, hrep, hc⟩ => ⟨bs', z, k, hp, hk, hrep, hc, bytesOf_length.trans hsize⟩)
        refine ⟨hsound, ?_⟩
        rw [Stores.Step, if_neg h0, if_pos rfl]
        exact hgives
    · have hlive := hptr.resolve_left hnull
      by_cases h0 : newSize = 0
      · subst h0
        rw [hA.realloc_zero _ hnull] at hq
        obtain ⟨t', ht', rfl⟩ := Option.map_eq_some_iff.mp hq
        obtain ⟨hsound, hstore⟩ := (h.frees hA hlive).of_eq ht'
        exact ⟨hsound, rfl, hstore⟩
      · obtain ⟨hsound, hmoves⟩ := h.moves hA hlive (hsize.symm ▸ hle) (mt hzero.mp h0) hq
        rw [hsize] at hmoves
        refine ⟨hsound, ?_⟩
        rw [Stores.Step, if_neg h0, if_neg hnull]
        exact hmoves
  | write ptr i value =>
    obtain ⟨⟨_, n⟩, hlive, rfl, hi⟩ := hr
    dsimp only at hi
    obtain ⟨w, L, hb⟩ := hA.blocks _ _ h.rep
    obtain ⟨z, k, hz, rfl, hpz, hz4, hk⟩ := h.owned.pointer hb hlive
    obtain ⟨mem, hmem, hstep⟩ := Option.bind_eq_some_iff.mp hstep
    obtain ⟨rfl, rfl⟩ := Prod.mk.inj (Option.some.inj hstep)
    have ho := G.four_le
    have hk4 : 4 ∣ k := (hb.fits _ (mem_of_placed hz)).2
    have haddr : (pointerTo (some z) + BitVec.ofNat 32 i).toNat = z + 8 + i := by
      have hlt := hb.used_lt hz
      have hhi := G.le_hi
      have htop := G.area.top
      rw [pointerTo, ← BitVec.ofNat_add, toNat_ofNat (by omega)]
    rw [Area.storeByte, haddr] at hmem
    obtain ⟨-, hmem⟩ := Option.ite_none_right_eq_some.mp hmem
    obtain rfl := Option.some.inj hmem
    obtain ⟨hrep, hkeep⟩ := hA.rewrite _ _ z k _ h.rep hz fun a ha =>
      setByteAt_of_ne (show a ≠ (z + 8 + i) / 4 * 4 by omega)
    refine ⟨⟨bs, hrep, h.owned⟩, rfl, _, cells_some h.owned.once hlive, ?_, ?_⟩
    · rw [bytesOf_length]
      exact hi
    · rw [Holdings.store, hkeep, ← hpz]
      exact h.owned.cells_write hb hlive hi

/-- What the callers are allowed is done, but for a `realloc_ex`, which may find no block. -/
theorem Holdings.Sound.served (hA : A.Lawful G cellOf Rep) (h : x.Sound G Rep bs) (hr : x.Allows r)
    (hne : ∀ p n, r ≠ .realloc p n) : (x.step A r).isSome := by
  rw [Holdings.step, if_pos hr]
  cases r with
  | malloc size =>
    have hsize : (BitVec.ofNat 32 size).toNat = size := toNat_ofNat (hr.trans_lt (by decide))
    obtain ⟨q, hq, -⟩ := hA.malloc _ _ _ h.rep (hsize.symm ▸ hr)
    simp [Holdings.serve, hq]
  | calloc nelem elemSize =>
    obtain ⟨hn, he, hle⟩ := hr
    have hcalloc := hA.callocEx (v := BitVec.ofNat 32 nelem) (e := BitVec.ofNat 32 elemSize) h.rep
    rw [toNat_ofNat hn, toNat_ofNat he] at hcalloc
    obtain ⟨q, hq, -⟩ := hcalloc hle
    simp [Holdings.serve, hq]
  | free ptr =>
    obtain ⟨t', ht', -⟩ := h.frees (v := 0#32) hA hr
    simp [Holdings.serve, ht']
  | realloc ptr newSize => exact absurd rfl (hne ptr newSize)
  | write ptr i value =>
    obtain ⟨⟨_, n⟩, hlive, rfl, hi⟩ := hr
    dsimp only at hi
    obtain ⟨w, L, hb⟩ := hA.blocks _ _ h.rep
    obtain ⟨z, k, hz, rfl, hpz, hz4, hk⟩ := h.owned.pointer hb hlive
    obtain ⟨hlt, hlast⟩ := hb.used_lt hz
    have hfirst := (hb.used_bounds hz).1
    have hk4 : 4 ∣ k := (hb.fits _ (mem_of_placed hz)).2
    have ho := G.four_le
    have hhi := G.le_hi
    have htop := G.area.top
    have hhas : A.area.Has ((z + 8 + i) / 4 * 4) :=
      hA.area ▸ G.has (Nat.dvd_mul_left ..) (by omega) (by omega)
    have hstore : A.area.storeByte (A.mem x.pool) (BitVec.ofNat 32 (z + 8 + i)) value = _ :=
      storeByte_ofNat hhas (by omega)
    rw [BitVec.ofNat_add, ← pointerTo] at hstore
    simp [Holdings.serve, hstore]

/-- Whatever the callers do, in any order: the pool is the store of cells that they see. -/
theorem Holdings.Sound.refines (hA : A.Lawful G cellOf Rep) (h : x.Sound G Rep bs)
    {rs : List Request} {history : List (Request × Word)}
    (hr : answers (Holdings.step A) x rs = some (history, y)) :
    Accepts (Stores.Step 0#32 0#8) (x.store A) history (y.store A) ∧
      ∀ r, y.Allows r → (∀ p n, r ≠ .realloc p n) → (y.step A r).isSome := by
  obtain ⟨⟨bs', hy⟩, haccepts⟩ := answers_accepted (fun x => ∃ bs, x.Sound G Rep bs)
    (Holdings.store A) (fun _ _ _ _ ⟨_, hs⟩ hstep => hs.step hA hstep) ⟨bs, h⟩ hr
  exact ⟨haccepts, fun r => hy.served hA⟩

end

end

end Xmertl.TlsfPool
