import Xmertl.Lib.Runs
import Xmertl.Partikle.TlsfEffects
import Xmertl.Partikle.TlsfInit

/-!
# Runs of the memory allocator

Calls of `malloc_ex` and `free_ex` in any order, on a pool that `init_memory_pool` has set
up, and what the callers write to their blocks between them.
-/

namespace Xmertl.Partikle.MemoryPool

open BoundaryTags Runs ThreadedLists TlsfPool TotalCorrectness

-- ---------------------------------------------------------------------------
-- init_memory_pool
-- ---------------------------------------------------------------------------

section
variable {P : Pool} {t t' : Tlsf}

theorem initMemoryPool_rep (h : P.Accepted) (hP : P.Usable) :
    Returns (initMemoryPool P t) fun q => q.1 = BitVec.ofNat 32 P.room ∧
      ∃ L, q.2.Rep (P.geometry hP) [⟨P.room + 4, true⟩] L := by
  obtain ⟨hmin, hin⟩ := h.room_le
  have hdvd := P.room_dvd
  have haligned := hP.aligned
  have hsmall := hP.small
  have hlarge := hP.large
  have hword : ¬word P.room true false > 1#32 <<< 30 :=
    mt (too_large_iff (by omega) hdvd).mp (Nat.not_le.mpr hsmall)
  have hfirst : (P.geometry hP).first = P.start + 3172 := rfl
  have hlast : (P.geometry hP).last = P.start + 3172 + (P.room + 4) := by
    change P.start + 3176 + P.room = _
    omega
  have hole₀ : Hole (P.geometry hP) cellOf _ [] [] _ _ false _ none _ :=
    Hole.cleared (by omega) (by omega)
  rw [hfirst, hlast] at hole₀
  have hhas : ∀ z, 4 ≤ z → 3176 + z ≤ P.size → 4 ∣ z → P.area.Has (P.start + 3172 + z) := h.has
  rw [initMemoryPool_accepted h]
  unfold Pool.firstBlock
  generalize hx : P.start + 3172 = x at *
  have hx4 : 4 ∣ x := hx ▸ Nat.dvd_add haligned (by decide)
  have hheader := hhas 4 (by omega) (by omega) (by decide)
  refine Returns.bind_eq (setSize_eq hheader) (Returns.bind_eq (clearFreePtr_eq
    (hhas 8 (by omega) (by omega) (by decide)) (hhas 12 (by omega) (by omega) (by decide))) ?_)
  have htag : writeNode (Function.update (fun _ => 0#32) (x + 4) (word P.room true false)) x 0#32
      0#32 (x + 4) = word P.room true false := by
    rw [writeNode, Function.update_of_ne (by omega), Function.update_of_ne (by omega),
      Function.update_self]
  refine Returns.bind_eq ((sizeOf_eq hheader).trans (congrArg some htag)) ?_
  rw [if_neg hword]
  -- the pool is a hole that one free block fills
  have hole₁ := hole₀.set (a := x + 4) (v := word P.room true false) (by omega) (by omega)
  have hole₂ := hole₁.set (a := x + 8) (v := 0#32) (by omega) (by omega)
  have hole₃ := hole₂.set (a := x + 12) (v := 0#32) (by omega) (by omega)
  have hwork : Tlsf.Work ⟨tlsfSignature, 0#32, ⟨0#32, fun _ => 0#32⟩, _⟩ (P.geometry hP) [] [] x
      (x + (P.room + 4)) false (fun _ => []) none (fun _ => 0#32) :=
    ⟨hole₃, ⟨fun i => by simp, Levels.Exact.none.congr fun _ => iff_of_false (fun h => h rfl) id⟩⟩
  refine Returns.bind_eq ((sizeOf_eq hheader).trans (congrArg some htag)) ?_
  rw [mappingInsert_flag hlarge hsmall hdvd]
  obtain ⟨j, hj, hins⟩ := hwork.enter (z := x) (k := P.room + 4) (Nat.le_refl x) (Nat.le_refl _)
    (by omega) (by omega) fun {j} Q hj hins => by
      have hroom : P.room + 4 - 4 = P.room := by omega
      rw [cellOf, hroom] at hj
      rcases listOf_cases hj with ⟨hlt, -⟩ | ⟨-, c, hc, rfl⟩
      · have hlt' := (lt_smallBlock (by omega)).mp hlt
        omega
      · exact insertBlock_returns hc hwork.exact hins
  refine Returns.bind hins ?_
  rintro t₂ ⟨L₂, hwork₂, hmem⟩
  have htag₂ : t₂.lists.mem (x + 4) = word P.room true false := by
    rw [hmem _ (by omega) (by omega) (by omega) (by omega)]
    exact htag
  have hend : x + 4 + P.room = x + (P.room + 4) := by omega
  have hlb := hhas (P.room + 4) (by omega) (by omega) (by omega)
  have hlbsize := hhas (P.room + 4 + 4) (by omega) (by omega) (by omega)
  refine Returns.bind_eq ((sizeOf_eq hheader).trans (congrArg some htag₂)) ?_
  rw [blockSize, word_size hdvd, next_eq, hend]
  refine Returns.bind_eq (setPrevHdr_eq hlb) (Returns.bind_eq (setSize_eq hlbsize) ?_)
  have hole₄ := hwork₂.hole.write (a := x + (P.room + 4)) (v := BitVec.ofNat 32 x) (by omega)
    (Nat.le_refl _) fun z c' he => by
      obtain ⟨rfl, -⟩ := Prod.mk.inj (Option.some.inj he)
      omega
  have hole₅ := hole₄.retag true (m := (P.geometry hP).sentinel) rfl
  have hsent : (P.geometry hP).tag true (P.geometry hP).sentinel =
      0#32 ||| usedBlock ||| prevFree := by
    have hword : word (4 - 4) false true = 0#32 ||| usedBlock ||| prevFree := by decide
    exact hword
  rw [hsent] at hole₅
  have htag₅ : Function.update (Function.update t₂.lists.mem (x + (P.room + 4))
      (BitVec.ofNat 32 x)) (x + (P.room + 4) + 4) (0#32 ||| usedBlock ||| prevFree) (x + 4) =
      word P.room true false := by
    rw [Function.update_of_ne (by omega), Function.update_of_ne (by omega), htag₂]
  dsimp only
  generalize hmem₅ : Function.update (Function.update t₂.lists.mem (x + (P.room + 4))
    (BitVec.ofNat 32 x)) (x + (P.room + 4) + 4) (0#32 ||| usedBlock ||| prevFree) = mem₅ at *
  refine Returns.bind_eq ((sizeOf_eq hheader).trans (congrArg some htag₅)) ?_
  rw [word_size hdvd]
  refine .pure ⟨rfl, L₂, ?_, hwork₂.exact.of_lists⟩
  refine hole₅.close_free (fits_mk (by omega) (by omega)) hj coalesced_nil coalesced_nil rfl rfl ?_ ?_
  · exact htag₅
  · dsimp only
    rw [← hmem₅, Function.update_of_ne (by omega), Function.update_self]

theorem initMemoryPool_usable {size : Word} (h : initMemoryPool P t = some (size, t'))
    (hok : size ≠ -1#32) : P.Accepted ∧ P.Usable := by
  by_cases hacc : P.Accepted
  case neg =>
    rw [initMemoryPool_refused hacc] at h
    exact absurd (Prod.mk.inj (Option.some.inj h)).1.symm hok
  by_cases hbig : 2 ^ 30 ≤ P.room
  · obtain ⟨u, hu, -⟩ := initMemoryPool_big (t := t) hacc hbig
    rw [hu] at h
    exact absurd (Prod.mk.inj (Option.some.inj h)).1.symm hok
  · have hsmall := initMemoryPool_small (t := t) hacc (Nat.lt_of_not_le hbig)
    split at hsmall
    · rename_i hlarge
      exact ⟨hacc, hacc.2.1, hacc.room_small.mpr hlarge, Nat.lt_of_not_le hbig⟩
    · cases hsmall.symm.trans h

end

-- ---------------------------------------------------------------------------
-- The calls
-- ---------------------------------------------------------------------------

/-- The allocator, and the pointers that its callers hold with the sizes they asked for. -/
structure Arena where
  tlsf : Tlsf
  live : List (Word × Word)

inductive ArenaCall
  | malloc (size : Word)
  | free (ptr : Word)
  /-- An owner writes a word of its block. -/
  | write (addr value : Word)

/-- Callers free what they hold, and write to it. -/
def Arena.Allows (x : Arena) : ArenaCall → Prop
  | .malloc size => size.toNat < 2 ^ 29
  | .free ptr => ptr ∈ x.live.map Prod.fst
  | .write addr _ => Mine x.live addr

instance (x : Arena) : DecidablePred x.Allows
  | .malloc _ => inferInstanceAs (Decidable (_ < _))
  | .free _ => inferInstanceAs (Decidable (_ ∈ _))
  | .write _ _ => inferInstanceAs (Decidable (Mine _ _))

def Arena.call (P : Pool) (x : Arena) : ArenaCall → Option Arena
  | .malloc size => do
    let (p, tlsf) ← mallocEx P x.tlsf size
    return { tlsf, live := renew x.live 0#32 p size }
  | .free ptr => do
    return { tlsf := ← freeEx P x.tlsf ptr, live := renew x.live ptr 0#32 0#32 }
  | .write addr value => do
    let mem ← P.area.store x.tlsf.lists.mem addr value
    return { x with tlsf := { x.tlsf with lists := { x.tlsf.lists with mem } } }

def Arena.step (P : Pool) (x : Arena) (c : ArenaCall) : Option Arena :=
  if x.Allows c then x.call P c else none

structure Arena.Sound (G : Geometry) (x : Arena) (bs : List BoundaryTags.Block)
    (L : ListId → List Nat) : Prop where
  rep : x.tlsf.Rep G bs L
  owned : Owned G x.live bs

section
variable {P : Pool} {hP : P.Usable} {x y : Arena} {bs bs' : List BoundaryTags.Block} {z n : Nat}
  {t' : Tlsf} {L : ListId → List Nat} {c : ArenaCall} {old new v : Word} {gone : Option Nat}
  {come : Option (Nat × Nat)}

theorem Arena.Sound.turns (h : x.Sound (P.geometry hP) bs L)
    (ht : x.tlsf.Turns t' (P.geometry hP) bs bs' gone come)
    (hgone : ∀ z, gone = some z → ∃ k, Used (P.geometry hP) bs z k)
    (hsize : ∀ z k, come = some (z, k) → v.toNat + 4 ≤ k) :
    ∃ bs' L', Arena.Sound (P.geometry hP)
      ⟨t', renew x.live (pointerTo gone) (pointerTo (come.map Prod.fst)) v⟩ bs' L' := by
  obtain ⟨⟨L', hrep⟩, hch⟩ := ht
  exact ⟨bs', L', hrep, h.owned.swap h.rep.blocks hrep.blocks ⟨gone, come, hch, rfl, hgone, rfl, hsize⟩⟩

theorem Arena.Sound.renew_null (h : x.Sound (P.geometry hP) bs L) : renew x.live 0#32 0#32 v = x.live := by
  refine List.filter_eq_self.mpr fun q hq => decide_eq_true ?_
  obtain ⟨z, k, hz, hp, -⟩ := h.owned.block q.1 q.2 hq
  rw [hp]
  exact pointerTo_ne_zero h.rep.blocks hz

theorem Arena.Sound.step (h : x.Sound (P.geometry hP) bs L) (hc : x.Allows c) :
    Returns (x.step P c) fun y => ∃ bs' L', y.Sound (P.geometry hP) bs' L' := by
  rw [Arena.step, if_pos hc]
  cases c with
  | malloc size =>
    have hsize : size.toNat < 2 ^ 29 := hc
    refine (mallocEx_turns h.rep (by omega)).bind ?_
    rintro ⟨p, t'⟩ (⟨hnull, -⟩ | ⟨-, bs', z, k, rfl, hk, hturns⟩)
    · obtain ⟨rfl, rfl⟩ := Prod.mk.inj hnull
      refine .pure ⟨bs, L, h.rep, ?_⟩
      dsimp only
      rw [h.renew_null]
      exact h.owned
    · refine .pure (h.turns hturns nofun fun y j he => ?_)
      obtain ⟨-, rfl⟩ := Prod.mk.inj (Option.some.inj he)
      exact hk
  | free ptr =>
    obtain ⟨⟨p, n⟩, hlive, rfl⟩ := List.mem_map.mp hc
    obtain ⟨z, k, hz, rfl, -⟩ := h.owned.block p n hlive
    refine (freeEx_turns h.rep hz).bind fun t' ⟨bs', hturns⟩ => .pure (h.turns hturns ?_ nofun)
    intro y he
    obtain rfl := Option.some.inj he
    exact ⟨k, hz⟩
  | write addr value =>
    obtain ⟨h4, ⟨p, n⟩, hp, hlo, hhi⟩ := hc
    obtain ⟨z, k, hz, rfl, hk⟩ := h.owned.block p n hp
    have hk' : n.toNat + 4 ≤ k := hk
    obtain ⟨hlt, hlast⟩ := h.rep.blocks.used_lt hz
    obtain ⟨hfirst, hz4⟩ := h.rep.blocks.used_bounds hz
    simp only [pointerTo_toNat hlt] at hlo hhi
    have hk4 : 4 ∣ k := (h.rep.blocks.fits _ (mem_of_placed hz)).2
    have hhas : P.area.Has addr.toNat := (P.geometry hP).has (by omega) (by omega) (by omega)
    have hstore : P.area.store x.tlsf.lists.mem addr value = some _ := if_pos hhas
    refine Returns.bind_eq hstore (.pure ⟨bs, L, ⟨?_, h.rep.exact.of_lists⟩, h.owned⟩)
    exact h.rep.blocks.write hz hlo (by omega)

theorem Arena.Sound.link (h : x.Sound (P.geometry hP) bs L)
    (hz : (z, ⟨n, true⟩) ∈ placed (P.geometry hP).first bs) :
    x.tlsf.lists.mem (z + n) = BitVec.ofNat 32 z ∧
      ∀ q ∈ x.live, z + n + 4 ≤ q.1.toNat ∨ q.1.toNat + q.2.toNat ≤ z + n := by
  obtain ⟨hlink, hapart⟩ := h.rep.blocks.link hz
  refine ⟨hlink, ?_⟩
  rintro ⟨p, m⟩ hq
  obtain ⟨y, k, hy, rfl, hk⟩ := h.owned.block p m hq
  have hk' : m.toNat + 4 ≤ k := hk
  have hn16 : 16 ≤ n := (h.rep.blocks.fits _ (mem_of_placed hz)).1
  have hap := hapart y k hy
  rw [pointerTo_toNat (h.rep.blocks.used_lt hy).1]
  dsimp only
  omega

/-- Whatever the callers do: the blocks tile the pool, no two free ones stand side by side,
each free one is on the list of its size and on no other, the bitmaps are set where a list
is not empty, what stands behind a free block is its address and in no bytes of the callers,
and what these hold does not overlap. Every call returns. -/
theorem memoryPool_sound {t₀ t : Tlsf} {size : Word} {tr : List (Arena × ArenaCall)}
    (hinit : initMemoryPool P t₀ = some (size, t)) (hok : size ≠ -1#32)
    (hr : Run (Arena.step P) ⟨t, []⟩ tr x) :
    ∃ (hP : P.Usable) (bs : List BoundaryTags.Block) (L : ListId → List Nat),
      Blocks (P.geometry hP) cellOf x.tlsf.lists bs L ∧ x.tlsf.Exact (fun j => L j ≠ []) ∧
      (∀ z n, (z, ⟨n, true⟩) ∈ placed (P.geometry hP).first bs →
        x.tlsf.lists.mem (z + n) = BitVec.ofNat 32 z ∧
        ∀ q ∈ x.live, z + n + 4 ≤ q.1.toNat ∨ q.1.toNat + q.2.toNat ≤ z + n) ∧
      Owned (P.geometry hP) x.live bs ∧
      x.live.Pairwise (fun p q =>
        p.1.toNat + p.2.toNat ≤ q.1.toNat ∨ q.1.toNat + q.2.toNat ≤ p.1.toNat) ∧
      ∀ c, x.Allows c → (x.step P c).isSome := by
  obtain ⟨hacc, hP⟩ := initMemoryPool_usable hinit hok
  obtain ⟨-, L₀, hrep⟩ := (initMemoryPool_rep hacc hP).of_eq hinit
  have hstart : Arena.Sound (P.geometry hP) ⟨t, []⟩ [⟨P.room + 4, true⟩] L₀ := by
    refine ⟨hrep, nofun, fun z k hz => ?_, List.nodup_nil⟩
    simp [Used, placed] at hz
  obtain ⟨bs, L, h⟩ : ∃ bs L, x.Sound (P.geometry hP) bs L := by
    refine hr.invariant (I := fun x => ∃ bs L, x.Sound (P.geometry hP) bs L)
      (C := fun _ _ => True) ⟨_, L₀, hstart⟩ ?_ fun _ _ => trivial
    rintro y c y' ⟨bs, L, hy⟩ - hstep
    have hc : y.Allows c := by
      by_contra hnot
      simp [Arena.step, hnot] at hstep
    exact (hy.step hc).of_eq hstep
  refine ⟨hP, bs, L, h.rep.blocks, h.rep.exact, fun z n hz => h.link hz, h.owned,
    h.owned.apart h.rep.blocks, fun c hc => ?_⟩
  obtain ⟨y, hy, -⟩ := h.step hc
  exact Option.isSome_of_eq_some hy

end

/-- A pool of 8 KB, whose memory is 0. -/
def examplePool : Pool := ⟨0x10000, 8192, by decide⟩

def exampleTlsf : Tlsf :=
  ⟨0#32, 0#32, ⟨0#32, fun _ => 0#32⟩, ⟨fun _ => 0#32, fun _ => 0#32⟩⟩

/-- Two blocks are given out, their owner writes to the first one and frees it. -/
def exampleCalls : List ArenaCall :=
  [.malloc 24#32, .malloc 200#32, .write 0x10c6c#32 7#32, .free 0x10c6c#32]

theorem memoryPool_sound_run : ∃ size t tr x,
    initMemoryPool examplePool exampleTlsf = some (size, t) ∧
    Run (Arena.step examplePool) ⟨t, []⟩ tr x ∧ x.live.length = 1 ∧
    ∃ (hP : examplePool.Usable) (bs : List BoundaryTags.Block) (L : ListId → List Nat),
      Blocks (examplePool.geometry hP) cellOf x.tlsf.lists bs L ∧ x.tlsf.Exact (fun j => L j ≠ []) ∧
      (∀ z n, (z, ⟨n, true⟩) ∈ placed (examplePool.geometry hP).first bs →
        x.tlsf.lists.mem (z + n) = BitVec.ofNat 32 z ∧
        ∀ q ∈ x.live, z + n + 4 ≤ q.1.toNat ∨ q.1.toNat + q.2.toNat ≤ z + n) ∧
      Owned (examplePool.geometry hP) x.live bs ∧
      x.live.Pairwise (fun p q =>
        p.1.toNat + p.2.toNat ≤ q.1.toNat ∨ q.1.toNat + q.2.toNat ≤ p.1.toNat) ∧
      ∀ c, x.Allows c → (x.step examplePool c).isSome := by
  have hrun : (initMemoryPool examplePool exampleTlsf).any fun r => decide (r.1 ≠ -1#32) &&
      (exec (Arena.step examplePool) ⟨r.2, []⟩ exampleCalls).any fun q =>
        decide (q.2.live.length = 1) := by
    decide +kernel
  cases hinit : initMemoryPool examplePool exampleTlsf with
  | none => rw [hinit] at hrun; cases hrun
  | some r =>
    rw [hinit, Option.any_some, Bool.and_eq_true] at hrun
    obtain ⟨tr, x, hr, hlen⟩ := exec_any hrun.2
    exact ⟨r.1, r.2, tr, x, rfl, hr, of_decide_eq_true hlen,
      memoryPool_sound hinit (of_decide_eq_true hrun.1) hr⟩

end Xmertl.Partikle.MemoryPool
