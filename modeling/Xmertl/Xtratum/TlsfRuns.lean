import Xmertl.Lib.Runs
import Xmertl.Xtratum.TlsfEffects
import Xmertl.Xtratum.TlsfInit

/-!
# Runs of the memory allocator

Calls of the allocator in any order, on a pool that `init_memory_pool` has set up, and what
the callers write to their blocks between them.
-/

namespace Xmertl.Xtratum

open BoundaryTags Runs ThreadedLists TlsfPool TotalCorrectness

-- ---------------------------------------------------------------------------
-- init_memory_pool
-- ---------------------------------------------------------------------------

section
variable {P : Pool} {t t' : Tlsf} {s : Word}

theorem initMemoryPool_spec (hsig : t.signature ≠ tlsfSignature) (hfits : P.size % 8 < 4) :
    Returns (initMemoryPool P t) fun q => q.1 = -1#32 ∨ ∃ (hP : P.Usable) (L : _),
      q.2.Rep (P.geometry hP) [⟨P.room + 8, true⟩] L ∧
      q.2.usedSize = BitVec.ofNat 32 (P.size - P.room) := by
  by_cases hacc : P.Accepted
  case neg =>
    rw [initMemoryPool_refused hacc]
    exact .pure (.inl rfl)
  by_cases hbig : 2 ^ 30 ≤ P.room
  · obtain ⟨t', ht', -⟩ := initMemoryPool_big hacc hsig hbig
    exact ⟨_, ht', .inl rfl⟩
  have hsize := hacc.2.2.2
  have hlarge := hacc.2.2.1
  have hroom : P.room % 8 = 0 ∧ 96 < P.room ∧ P.room + 3200 ≤ P.size := by
    rw [Pool.room]
    omega
  have hP : P.Usable := ⟨hacc.2.1, hfits, hlarge, by omega⟩
  have haligned := hP.aligned
  have hword : ¬word P.room true false > 1#32 <<< 30 := by
    have hmax : (1#32 <<< 30).toNat = 2 ^ 30 := by decide
    rw [gt_iff_lt, BitVec.lt_def, hmax, word_toNat (by omega)]
    omega
  rw [initMemoryPool_accepted hacc hsig]
  unfold Pool.firstBlock
  dsimp only
  have hhas : ∀ z, P.start + 3180 ≤ z → z + 4 ≤ P.start + P.size → 4 ∣ z → P.area.Has z :=
    fun z hlo hhi hd => ⟨hlo, hhi, by omega⟩
  generalize hx : P.start + 3184 = x at *
  have hheader := hhas (x + 4) (by omega) (by omega) (by omega)
  refine Returns.bind_eq (setSize_eq hheader) (Returns.bind_eq (clearFreePtr_eq
    (hhas _ (by omega) (by omega) (by omega)) (hhas _ (by omega) (by omega) (by omega))) ?_)
  have htag : writeNode (Function.update (fun _ => 0#32) (x + 4) (word P.room true false)) x
      0#32 0#32 (x + 4) = word P.room true false := by
    rw [writeNode, Function.update_of_ne (by omega), Function.update_of_ne (by omega),
      Function.update_self]
  refine Returns.bind_eq ((sizeOf_eq hheader).trans (congrArg some htag)) ?_
  rw [if_neg hword]
  -- the pool is a hole that one free block fills
  have hfirst : (P.geometry hP).first = x := hx
  have hlast : (P.geometry hP).last = x + (P.room + 8) := by
    change P.start + 3192 + P.room = _
    omega
  have hole₀ : Hole (P.geometry hP) cellOf _ [] [] _ _ false _ none _ :=
    Hole.cleared (by omega) (by omega)
  rw [hfirst, hlast] at hole₀
  have hole₁ := hole₀.set (a := x + 4) (v := word P.room true false) (by omega) (by omega)
  have hole₂ := hole₁.set (a := x + 8) (v := 0#32) (by omega) (by omega)
  have hole₃ := hole₂.set (a := x + 12) (v := 0#32) (by omega) (by omega)
  have hwork : Tlsf.Work ⟨tlsfSignature, 0#32, ⟨0#32, fun _ => 0#32⟩, _⟩ (P.geometry hP) [] [] x
      (x + (P.room + 8)) false (fun _ => []) none (fun _ => 0#32) :=
    ⟨hole₃, Levels.Exact.none.congr fun _ => iff_of_false (fun h => h rfl) id⟩
  refine Returns.bind_eq ((sizeOf_eq hheader).trans (congrArg some htag)) ?_
  rw [tlsfBlockSize, word_size (by omega)]
  obtain ⟨c, hc, hins⟩ := hwork.insert (z := x) (k := P.room + 8) (Nat.le_refl x) (Nat.le_refl _)
    (by omega) (by omega)
  have hk : P.room + 8 - 8 = P.room := Nat.add_sub_cancel ..
  rw [hk] at hins
  refine Returns.bind hins ?_
  rintro t₂ ⟨L₂, hwork₂, hmem, hused⟩
  have htag₂ : t₂.lists.mem (x + 4) = word P.room true false := by
    rw [hmem _ (by omega) (by omega) (by omega) (by omega)]
    exact htag
  have hend : x + 8 + P.room = x + (P.room + 8) := by omega
  have hlb := hhas (x + (P.room + 8)) (by omega) (by omega) (by omega)
  have hlbsize := hhas (x + (P.room + 8) + 4) (by omega) (by omega) (by omega)
  refine Returns.bind_eq ((sizeOf_eq hheader).trans (congrArg some htag₂)) ?_
  rw [word_size (by omega), next_eq, hend]
  refine Returns.bind_eq (setPrevHdr_eq hlb) (Returns.bind_eq (setSize_eq hlbsize) ?_)
  have hole₄ := hwork₂.hole.write (a := x + (P.room + 8)) (v := BitVec.ofNat 32 x) (by omega)
    (Nat.le_refl _) fun z c' he => by
      obtain ⟨rfl, -⟩ := Prod.mk.inj (Option.some.inj he)
      omega
  have hole₅ := hole₄.retag true (m := (P.geometry hP).sentinel) rfl
  have hword : word (8 - 8) false true = 0#32 ||| usedBlock ||| prevFree := by decide
  have hsent : (P.geometry hP).tag true (P.geometry hP).sentinel =
      0#32 ||| usedBlock ||| prevFree := hword
  rw [hsent] at hole₅
  have htag₅ : Function.update (Function.update t₂.lists.mem (x + (P.room + 8))
      (BitVec.ofNat 32 x)) (x + (P.room + 8) + 4) (0#32 ||| usedBlock ||| prevFree) (x + 4) =
      word P.room true false := by
    rw [Function.update_of_ne (by omega), Function.update_of_ne (by omega), htag₂]
  dsimp only
  generalize hmem₅ : Function.update (Function.update t₂.lists.mem (x + (P.room + 8))
    (BitVec.ofNat 32 x)) (x + (P.room + 8) + 4) (0#32 ||| usedBlock ||| prevFree) = mem₅ at *
  refine Returns.bind_eq ((sizeOf_eq hheader).trans (congrArg some htag₅)) ?_
  rw [word_size (by omega)]
  refine .pure (.inr ⟨hP, L₂, ⟨?_, hwork₂.exact⟩, ?_⟩)
  · refine hole₅.close_free (fits_mk (by omega) (by omega)) hc coalesced_nil coalesced_nil rfl rfl
      ?_ ?_
    · exact htag₅.trans (congrArg (word · true false) hk.symm)
    · dsimp only
      rw [← hmem₅, Function.update_of_ne (by omega), Function.update_self]
  · dsimp only
    rw [ofNat_sub (by omega) (by omega)]

end

-- ---------------------------------------------------------------------------
-- The calls
-- ---------------------------------------------------------------------------

/-- The allocator, and the pointers that its callers hold with the sizes they asked for. -/
structure Arena where
  tlsf : Tlsf
  live : List (Word × Word)

inductive ArenaCall
  | malloc (size : Word)
  | free (ptr : Word)
  | realloc (ptr newSize : Word)
  /-- An owner writes a word of its block. -/
  | write (addr value : Word)

/-- Callers free and reallocate what they hold, or NULL, and write to what they hold. -/
def Arena.Allows (x : Arena) : ArenaCall → Prop
  | .malloc size => size.toNat < 2 ^ 29
  | .free ptr => ptr = 0#32 ∨ ptr ∈ x.live.map Prod.fst
  | .realloc ptr newSize => (ptr = 0#32 ∨ ptr ∈ x.live.map Prod.fst) ∧ newSize.toNat < 2 ^ 29
  | .write addr _ => Mine x.live addr

instance (x : Arena) : DecidablePred x.Allows
  | .malloc _ => inferInstanceAs (Decidable (_ < _))
  | .free _ => inferInstanceAs (Decidable (_ ∨ _))
  | .realloc _ _ => inferInstanceAs (Decidable ((_ ∨ _) ∧ _))
  | .write _ _ => inferInstanceAs (Decidable (Mine _ _))

def Arena.call (P : Pool) (x : Arena) : ArenaCall → Option Arena
  | .malloc size => do
    let (p, tlsf) ← mallocEx P x.tlsf size
    return { tlsf, live := renew x.live 0#32 p size }
  | .free ptr => do
    return { tlsf := ← freeEx P x.tlsf ptr, live := renew x.live ptr 0#32 0#32 }
  | .realloc ptr newSize => do
    let (p, tlsf) ← reallocEx P x.tlsf ptr newSize
    return { tlsf, live := renew x.live ptr p newSize }
  | .write addr value => do
    let mem ← P.area.store x.tlsf.lists.mem addr value
    return { x with tlsf := { x.tlsf with lists := { x.tlsf.lists with mem } } }

def Arena.step (P : Pool) (x : Arena) (c : ArenaCall) : Option Arena :=
  if x.Allows c then x.call P c else none

/-- What `malloc_ex` makes of a `realloc_ex` whose new block it does not find. -/
def Arena.Starved (P : Pool) (x : Arena) : ArenaCall → Prop
  | .realloc _ newSize => mallocEx P x.tlsf (blockSize newSize) = some (0#32, x.tlsf)
  | _ => False

structure Arena.Sound (P : Pool) (G : Geometry) (x : Arena) (bs : List BoundaryTags.Block)
    (L : Fin 24 × Fin 32 → List Nat) : Prop where
  rep : x.tlsf.Rep G bs L
  owned : Owned G x.live bs
  account : x.tlsf.usedSize + BitVec.ofNat 32 (freeSpan bs) = BitVec.ofNat 32 (P.size + 8)

section
variable {P : Pool} {hP : P.Usable} {x y : Arena} {bs bs' : List BoundaryTags.Block} {n : Nat}
  {t' : Tlsf} {L : Fin 24 × Fin 32 → List Nat} {c : ArenaCall} {old new v : Word} {gone : Option Nat}
  {come : Option (Nat × Nat)} {live : List (Word × Word)}

/-- The callers lose the block at `old` and get one at `new`, where these are not NULL. -/
def Tlsf.Swaps (t t' : Tlsf) (G : Geometry) (bs : List BoundaryTags.Block) (old new n : Word) : Prop :=
  ∃ bs' L', t'.Rep G bs' L' ∧ Swapped G t.lists.mem t'.lists.mem bs bs' old new n ∧
    t'.usedSize + BitVec.ofNat 32 (freeSpan bs') = t.usedSize + BitVec.ofNat 32 (freeSpan bs)

theorem Tlsf.Turns.swaps {t : Tlsf} (h : t.Turns t' (P.geometry hP) bs bs' gone come)
    (hgone : ∀ z, gone = some z → ∃ k, Used (P.geometry hP) bs z k)
    (hsize : ∀ z k, come = some (z, k) → v.toNat + 8 ≤ k) :
    t.Swaps t' (P.geometry hP) bs (pointerTo gone) (pointerTo (come.map Prod.fst)) v := by
  obtain ⟨⟨L, hrep⟩, hch, hacc⟩ := h
  exact ⟨bs', L, hrep, ⟨gone, come, hch, rfl, hgone, rfl, hsize⟩, hacc⟩

theorem Tlsf.Rep.swaps {t : Tlsf} (h : t.Rep (P.geometry hP) bs L) :
    t.Swaps t (P.geometry hP) bs 0#32 0#32 v := by
  refine ⟨bs, L, h, ⟨none, none, ⟨fun z k => ?_, nofun, fun _ _ _ _ _ _ _ => rfl⟩, rfl, nofun, rfl,
    nofun⟩, rfl⟩
  simp

theorem mallocEx_swaps {t : Tlsf} (h : t.Rep (P.geometry hP) bs L) (hv : v.toNat < 2 ^ 29) :
    Returns (mallocEx P t v) fun q => t.Swaps q.2 (P.geometry hP) bs 0#32 q.1 v := by
  refine (mallocEx_turns h (by omega)).mono fun q hq => ?_
  rcases hq with ⟨rfl, -⟩ | ⟨-, bs', x, k, hp, hk, hturns⟩
  · exact h.swaps
  · rw [hp]
    refine hturns.swaps nofun fun z j he => ?_
    obtain ⟨-, rfl⟩ := Prod.mk.inj (Option.some.inj he)
    exact hk

theorem freeEx_swaps {t : Tlsf} (h : t.Rep (P.geometry hP) bs L) (ho : Owned (P.geometry hP) live bs)
    (hp : old = 0#32 ∨ old ∈ live.map Prod.fst) :
    Returns (freeEx P t old) fun t' => t.Swaps t' (P.geometry hP) bs old 0#32 v := by
  rcases hp with rfl | hp
  · exact .pure h.swaps
  · obtain ⟨⟨p, n⟩, hlive, rfl⟩ := List.mem_map.mp hp
    obtain ⟨z, k, hz, rfl, -⟩ := ho.block p n hlive
    refine (freeEx_turns h hz).mono fun t' ⟨bs', hturns⟩ => ?_
    refine hturns.swaps (fun z' he => ?_) nofun
    obtain rfl := Option.some.inj he
    exact ⟨k, hz⟩

theorem reallocEx_swaps {t : Tlsf} (h : t.Rep (P.geometry hP) bs L)
    (ho : Owned (P.geometry hP) live bs) (hp : old = 0#32 ∨ old ∈ live.map Prod.fst)
    (hv : v.toNat < 2 ^ 29) :
    Returns (reallocEx P t old v) (fun q => t.Swaps q.2 (P.geometry hP) bs old q.1 v) ∨
      reallocEx P t old v = none ∧ mallocEx P t (blockSize v) = some (0#32, t) := by
  by_cases hnull : old = 0#32
  · subst hnull
    refine .inl ?_
    rw [reallocEx, if_pos rfl]
    split
    · exact mallocEx_swaps h hv
    · exact .pure h.swaps
  · by_cases hv₀ : v = 0#32
    · refine .inl ?_
      rw [reallocEx, if_neg hnull, if_pos hv₀]
      exact (freeEx_swaps h ho hp).bind fun t' ht => .pure ht
    · obtain ⟨⟨p, n⟩, hlive, rfl⟩ := List.mem_map.mp (hp.resolve_left hnull)
      obtain ⟨z, k, hz, rfl, -⟩ := ho.block p n hlive
      refine (reallocEx_turns h hz (by omega) hv₀).imp (fun hr => hr.mono fun q hq => ?_) And.right
      obtain ⟨bs', y, j, hptr, hj, hturns, -⟩ := hq
      rw [hptr]
      refine hturns.swaps (fun z' he => ?_) fun z' j' he => ?_
      · obtain rfl := Option.some.inj he
        exact ⟨k, hz⟩
      · obtain ⟨-, rfl⟩ := Prod.mk.inj (Option.some.inj he)
        exact hj

theorem Arena.Sound.swaps (h : x.Sound P (P.geometry hP) bs L)
    (ht : x.tlsf.Swaps t' (P.geometry hP) bs old new v) :
    ∃ bs' L', Arena.Sound P (P.geometry hP) ⟨t', renew x.live old new v⟩ bs' L' := by
  obtain ⟨bs', L', hrep, hsw, hacc⟩ := ht
  exact ⟨bs', L', hrep, h.owned.swap h.rep.blocks hrep.blocks hsw, hacc.trans h.account⟩

/-- A call that is allowed returns and leaves the pool sound, but for a `realloc_ex` whose
new block is not found. -/
theorem Arena.Sound.step (h : x.Sound P (P.geometry hP) bs L) (hc : x.Allows c) :
    Returns (x.step P c) (fun y => ∃ bs' L', y.Sound P (P.geometry hP) bs' L') ∨
      x.step P c = none ∧ x.Starved P c := by
  rw [Arena.step, if_pos hc]
  cases c with
  | malloc size =>
    exact .inl ((mallocEx_swaps h.rep hc).bind fun q hq => .pure (h.swaps hq))
  | free ptr =>
    exact .inl ((freeEx_swaps h.rep h.owned hc).bind fun t' ht => .pure (h.swaps ht))
  | realloc ptr newSize =>
    rcases reallocEx_swaps h.rep h.owned hc.1 hc.2 with hr | ⟨hr, hm⟩
    · exact .inl (hr.bind fun q hq => .pure (h.swaps hq))
    · refine .inr ⟨?_, hm⟩
      simp only [Arena.call, hr, Option.bind_eq_bind, Option.bind_none]
  | write addr value =>
    obtain ⟨h4, ⟨p, n⟩, hp, hlo, hhi⟩ := hc
    obtain ⟨z, k, hz, rfl, hk⟩ := h.owned.block p n hp
    have hk' : n.toNat + 8 ≤ k := hk
    obtain ⟨hlt, hlast⟩ := h.rep.blocks.used_lt hz
    obtain ⟨hfirst, hz4⟩ := h.rep.blocks.used_bounds hz
    simp only [pointerTo_toNat hlt] at hlo hhi
    have hhas : P.area.Has addr.toNat := (P.geometry hP).has (by omega) (by omega) (by omega)
    have hstore : P.area.store x.tlsf.lists.mem addr value = some _ := if_pos hhas
    refine .inl (Returns.bind_eq hstore (.pure ⟨bs, L, ⟨?_, h.rep.exact⟩, h.owned, h.account⟩))
    exact h.rep.blocks.write hz hlo (by omega)

theorem Arena.Sound.usedSize (h : x.Sound P (P.geometry hP) bs L) :
    x.tlsf.usedSize.toNat + freeSpan bs = P.size + 8 := by
  have hle : P.start + 3184 + freeSpan bs ≤ BoundaryTags.stop (P.start + 3184) bs := freeSpan_le
  have hfin : BoundaryTags.stop (P.start + 3184) bs = P.start + 3192 + P.room := h.rep.blocks.fin
  have hsmall := hP.small
  have hlarge := hP.large
  have hroom : P.room ≤ P.size - 3196 ∧ P.size - 3196 < P.room + 8 := by
    rw [Pool.room]
    omega
  have hsum := congrArg BitVec.toNat h.account
  rw [BitVec.toNat_add, toNat_ofNat (show freeSpan bs < 2 ^ 32 by omega),
    toNat_ofNat (show P.size + 8 < 2 ^ 32 by omega)] at hsum
  omega

/-- Whatever the callers do: the blocks tile the pool, no two free ones stand side by side,
each free one is on the list of its size and on no other, the bitmaps are set where a list
is not empty, what the callers hold does not overlap, and the count of the bytes in use is
right. Every call returns, but for a `realloc_ex` whose new block is not found. -/
theorem tlsf_sound {t₀ t : Tlsf} {size : Word} {tr : List (Arena × ArenaCall)}
    (hsig : t₀.signature ≠ tlsfSignature) (hfits : P.size % 8 < 4)
    (hinit : initMemoryPool P t₀ = some (size, t)) (hok : size ≠ -1#32)
    (hr : Run (Arena.step P) ⟨t, []⟩ tr x) :
    ∃ (hP : P.Usable) (bs : List BoundaryTags.Block) (L : Fin 24 × Fin 32 → List Nat),
      Blocks (P.geometry hP) cellOf x.tlsf.lists bs L ∧
      x.tlsf.levels.Exact (fun c => L c ≠ []) ∧ Owned (P.geometry hP) x.live bs ∧
      x.live.Pairwise (fun p q =>
        p.1.toNat + p.2.toNat ≤ q.1.toNat ∨ q.1.toNat + q.2.toNat ≤ p.1.toNat) ∧
      x.tlsf.usedSize.toNat + freeSpan bs = P.size + 8 ∧
      ∀ c, x.Allows c → (x.step P c).isSome ∨ x.Starved P c := by
  rcases (initMemoryPool_spec hsig hfits).of_eq hinit with hbad | ⟨hP, L₀, hrep, hused⟩
  · exact absurd hbad hok
  have hstart : Arena.Sound P (P.geometry hP) ⟨t, []⟩ [⟨P.room + 8, true⟩] L₀ := by
    refine ⟨hrep, ⟨nofun, fun z k hz => ?_, List.nodup_nil⟩, ?_⟩
    · simp [Used, placed] at hz
    · have hlarge := hP.large
      have hroom : P.room ≤ P.size - 3196 := Nat.div_mul_le_self _ _
      have hsum : P.size - P.room + (P.room + 8) = P.size + 8 := by omega
      rw [hused, freeSpan_cons, if_pos rfl, freeSpan_nil, Nat.add_zero, ← BitVec.ofNat_add, hsum]
  obtain ⟨bs, L, h⟩ : ∃ bs L, x.Sound P (P.geometry hP) bs L := by
    refine hr.invariant (I := fun x => ∃ bs L, x.Sound P (P.geometry hP) bs L)
      (C := fun _ _ => True) ⟨_, L₀, hstart⟩ ?_ fun _ _ => trivial
    rintro y c y' ⟨bs, L, hy⟩ - hstep
    have hc : y.Allows c := by
      by_contra hnot
      simp [Arena.step, hnot] at hstep
    rcases hy.step hc with hret | ⟨hnone, -⟩
    · exact hret.of_eq hstep
    · rw [hnone] at hstep
      cases hstep
  refine ⟨hP, bs, L, h.rep.blocks, h.rep.exact, h.owned, h.owned.apart h.rep.blocks, h.usedSize,
    fun c hc => ?_⟩
  rcases h.step hc with ⟨y, hy, -⟩ | ⟨-, hstarved⟩
  · exact .inl (Option.isSome_of_eq_some hy)
  · exact .inr hstarved

end

theorem examplePool_top : 0x10000 + 8192 ≤ 2 ^ 32 := by decide

/-- A pool of 8 KB, whose memory is 0. -/
def examplePool : Pool := ⟨0x10000, 8192, examplePool_top⟩

def exampleTlsf : Tlsf := ⟨0#32, 0#32, ⟨0#32, fun _ => 0#32⟩, ⟨fun _ => 0#32, fun _ => 0#32⟩⟩

/-- Two blocks are given out, the first grows into a new place and the second is freed. -/
def exampleCalls : List ArenaCall :=
  [.malloc 24#32, .malloc 100#32, .write 0x10c78#32 7#32, .realloc 0x10c78#32 300#32,
    .free 0x10c98#32]

theorem tlsf_sound_run : ∃ size t tr x, initMemoryPool examplePool exampleTlsf = some (size, t) ∧
    Run (Arena.step examplePool) ⟨t, []⟩ tr x ∧ x.live.length = 1 ∧
    ∃ (hP : examplePool.Usable) (bs : List BoundaryTags.Block) (L : Fin 24 × Fin 32 → List Nat),
      Blocks (examplePool.geometry hP) cellOf x.tlsf.lists bs L ∧
      x.tlsf.levels.Exact (fun c => L c ≠ []) ∧ Owned (examplePool.geometry hP) x.live bs ∧
      x.live.Pairwise (fun p q =>
        p.1.toNat + p.2.toNat ≤ q.1.toNat ∨ q.1.toNat + q.2.toNat ≤ p.1.toNat) ∧
      x.tlsf.usedSize.toNat + freeSpan bs = examplePool.size + 8 ∧
      ∀ c, x.Allows c → (x.step examplePool c).isSome ∨ x.Starved examplePool c := by
  have hrun : (initMemoryPool examplePool exampleTlsf).any fun r => decide (r.1 ≠ -1#32) &&
      (exec (Arena.step examplePool) ⟨r.2, []⟩ exampleCalls).any fun q =>
        decide (q.2.live.length = 1) := by
    decide +kernel
  cases hinit : initMemoryPool examplePool exampleTlsf with
  | none => rw [hinit] at hrun; cases hrun
  | some r =>
    rw [hinit, Option.any_some, Bool.and_eq_true] at hrun
    obtain ⟨tr, x, hr, hlen⟩ := exec_any hrun.2
    exact ⟨r.1, r.2, tr, x, rfl, hr, of_decide_eq_true hlen,
      tlsf_sound (by decide) (by decide) hinit (of_decide_eq_true hrun.1) hr⟩

end Xmertl.Xtratum
