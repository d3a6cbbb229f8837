import Xmertl.Common.TlsfBytes

/-!
# The blocks in use

What a call of an allocator means to its callers: at most one block in use is gone, at
most one has come, and the words of all the others are as they were.
-/

namespace Xmertl.TlsfPool

open BoundaryTags ThreadedLists TotalCorrectness

def Used (G : Geometry) (bs : List Block) (z k : Nat) : Prop := (z, ⟨k, false⟩) ∈ placed G.first bs

/-- A free block has `n` bytes behind its header. -/
def Offers (G : Geometry) (bs : List Block) (n : Nat) : Prop := ∃ m, ⟨m, true⟩ ∈ bs ∧ n + G.overhead ≤ m

/-- From `bs` to `bs'` the block in use at `gone` has gone and that at `come` has come. -/
structure Changed (G : Geometry) (mem mem' : Nat → Word) (bs bs' : List Block) (gone : Option Nat)
    (come : Option (Nat × Nat)) : Prop where
  used : ∀ z k, Used G bs' z k ↔ (Used G bs z k ∧ gone ≠ some z) ∨ come = some (z, k)
  fresh : ∀ z k n, come = some (z, k) → Used G bs z n → gone = some z
  kept : ∀ z k a, Used G bs z k → gone ≠ some z → z + 8 ≤ a → a < z + 4 + k → mem' a = mem a

/-- The first `m` bytes of the block at `x` are those of the block at `y` then. -/
def Carried (mem mem' : Nat → Word) (x y m : Nat) : Prop :=
  ∀ i < m, byteAt mem' (y + 8 + i) = byteAt mem (x + 8 + i)

/-- What becomes of a hole of `n` bytes: a block in use of `k` bytes, and the rest free. -/
def Cut (n k : Nat) (mid : List Block) : Prop :=
  k = n ∧ mid = [⟨n, false⟩] ∨ k < n ∧ mid = [⟨k, false⟩, ⟨n - k, true⟩]

/-- The blocks in use around a hole are those around another one. -/
def SameUsed (G : Geometry) (us vs : List Block) (y : Nat) (us' vs' : List Block) (y' : Nat) : Prop :=
  ∀ z k, Around G us' vs' y' z ⟨k, false⟩ ↔ Around G us vs y z ⟨k, false⟩

section
variable {ι : Type} {G : Geometry} {cellOf : Nat → Option ι} {w w' : FreeLists ι}
  {us us' vs vs' bs bs' bs₁ mid : List Block} {x y y' z a j n k : Nat} {f q : Bool}
  {L L' : ι → List Nat} {d mem mem' mem₁ mem₂ : Nat → Word} {v : Word} {gone : Option Nat}
  {come : Option (Nat × Nat)}

theorem Cut.head_mem (h : Cut n k mid) : ⟨k, false⟩ ∈ mid := by
  rcases h with ⟨rfl, rfl⟩ | ⟨-, rfl⟩
  · exact List.mem_cons_self
  · exact List.mem_cons_self

theorem Cut.four_dvd (h : Cut n k mid) (hb : Blocks G cellOf w (us ++ (mid ++ vs)) L) :
    4 ∣ k - G.overhead := by
  have hfits : Fits ⟨k, false⟩ := hb.fits _ (by
    simp only [List.mem_append]
    exact .inr (.inl h.head_mem))
  exact Nat.dvd_sub hfits.2 G.dvd_overhead

theorem Cut.stop (h : Cut n k mid) : stop x mid = x + n := by
  rcases h with ⟨-, rfl⟩ | ⟨hlt, rfl⟩
  · rfl
  · simp only [BoundaryTags.stop]
    omega

theorem Cut.used (h : Cut n k mid) : (z, ⟨j, false⟩) ∈ placed x mid ↔ some (x, k) = some (z, j) := by
  rcases h with ⟨rfl, rfl⟩ | ⟨-, rfl⟩
  · simp [placed, eq_comm]
  · simp [placed, eq_comm]

theorem Cut.freeSpan (h : Cut n k mid) : freeSpan mid + k = n := by
  rcases h with ⟨rfl, rfl⟩ | ⟨hlt, rfl⟩
  · simp
  · simp
    omega

theorem SameUsed.payload (h : SameUsed G us vs y us' vs' y') (hz : Payload G us vs y z) :
    Payload G us' vs' y' z := by
  obtain ⟨u, k, hu, hz⟩ := hz
  exact ⟨u, k, (h u k).mpr hu, hz⟩

variable (vs mid) in
theorem used_fill (hx : stop G.first us = x) (hy : stop x mid = y) :
    Used G (us ++ (mid ++ vs)) z k ↔
      Around G us vs y z ⟨k, false⟩ ∨ (z, ⟨k, false⟩) ∈ placed x mid := by
  simp only [Used, Around, placed_append, List.mem_append, hx, hy]
  rw [or_assoc, or_comm (a := (z, ⟨k, false⟩) ∈ placed x mid)]

theorem Changed.of_payload (h : Blocks G cellOf w (us ++ ⟨n, f⟩ :: vs) L)
    (hx : stop G.first us = x)
    (hused : ∀ z k, Used G bs' z k ↔ Around G us vs (x + n) z ⟨k, false⟩ ∨ come = some (z, k))
    (hcome : ∀ z k, come = some (z, k) → x ≤ z ∧ z < x + n)
    (hkept : ∀ z, Payload G us vs (x + n) z → mem' z = mem z) :
    Changed G mem mem' (us ++ ⟨n, f⟩ :: vs) bs' (if f then none else some x) come := by
  have hold : ∀ z k, Used G (us ++ ⟨n, f⟩ :: vs) z k ↔
      Around G us vs (x + n) z ⟨k, false⟩ ∨ (z = x ∧ k = n ∧ f = false) := by
    intro z k
    have hfill := used_fill vs [⟨n, f⟩] (z := z) (k := k) hx rfl
    simpa [placed, stop, eq_comm] using hfill
  have hole := h.open
  rw [hx] at hole
  have hout : ∀ z k, Around G us vs (x + n) z ⟨k, false⟩ → z + k ≤ x ∨ x + n ≤ z := by
    intro z k hz
    rcases hz with hz | hz
    · have hb := (placed_bounds hz).2
      rw [hx] at hb
      exact .inl hb
    · exact .inr (placed_bounds hz).1
  have hn16 : 16 ≤ n := (h.fits ⟨n, f⟩ (by simp)).1
  have hk16 : ∀ z k, Around G us vs (x + n) z ⟨k, false⟩ → 16 ≤ k := by
    intro z k hz
    have hin : (⟨k, false⟩ : Block) ∈ us ++ ⟨n, f⟩ :: vs := by
      rcases hz with hz | hz
      · exact List.mem_append_left _ (mem_of_placed hz)
      · exact List.mem_append_right _ (List.mem_cons_of_mem _ (mem_of_placed hz))
    exact (h.fits _ hin).1
  have hne : ∀ z k, Around G us vs (x + n) z ⟨k, false⟩ → z ≠ x := by
    intro z k hz
    have h₁ := hout z k hz
    have h₂ := hk16 z k hz
    omega
  refine ⟨fun z k => ?_, fun z k m hc hz => ?_, fun z k a hz hg hlo hhi => hkept a ?_⟩
  · rw [hused, hold]
    cases f with
    | true => simp
    | false =>
      simp only [Bool.false_eq_true, if_false, ne_eq, Option.some.injEq, and_true]
      refine or_congr_left ⟨fun hz => ⟨.inl hz, (hne z k hz).symm⟩, ?_⟩
      rintro ⟨hz, hx⟩
      exact hz.resolve_right fun he => hx he.1.symm
  · obtain ⟨hlo, hhi⟩ := hcome z k hc
    rcases (hold z m).mp hz with hz | ⟨rfl, rfl, rfl⟩
    · have h₁ := hout z m hz
      have h₂ := hk16 z m hz
      omega
    · rfl
  · rcases (hold z k).mp hz with hz | ⟨rfl, rfl, rfl⟩
    · exact ⟨z, k, hz, hlo, hhi⟩
    · exact absurd rfl hg

theorem Blocks.rewrite (h : Blocks G cellOf w bs L) (hu : Used G bs z n)
    (hm : ∀ a, a < z + 8 ∨ z + n < a → mem a = w.mem a) : Blocks G cellOf { w with mem } bs L := by
  obtain ⟨us, vs, rfl, rfl⟩ := placed_split hu
  obtain ⟨hus, hvs', -⟩ := coalesced_append.mp h.coalesced
  obtain ⟨-, hvs⟩ := coalesced_cons.mp hvs'
  obtain ⟨m, ws, hmws, -, -, htag⟩ := h.open.take.next
  have htag' : mem (stop G.first us + n + 4) = G.tag false m := by
    rw [hm _ (by omega)]
    exact htag
  refine (h.open.take.change hmws htag' (fun a ha => hm a (by omega)) nofun).close_used
    (h.fits _ (by simp)) hus hvs ?_
  dsimp only
  rw [hm _ (by omega)]
  exact h.open.right.1

theorem Blocks.write (h : Blocks G cellOf w bs L) (hu : Used G bs z n) (hlo : z + 8 ≤ a)
    (hhi : a ≤ z + n) : Blocks G cellOf { w with mem := Function.update w.mem a v } bs L :=
  h.rewrite hu fun b hb => Function.update_of_ne (by omega) ..

/-- A free block leaves its address behind its last word, where no block in use has one. -/
theorem Blocks.link (h : Blocks G cellOf w bs L) (hz : (z, ⟨n, true⟩) ∈ placed G.first bs) :
    w.mem (z + n) = BitVec.ofNat 32 z ∧
      ∀ y k, Used G bs y k → z + n ≤ y ∨ y + k ≤ z := by
  constructor
  · obtain ⟨us, vs, rfl, rfl⟩ := placed_split hz
    have hlaid := h.laid
    rw [List.append_assoc, List.cons_append] at hlaid
    exact hlaid.link_at rfl
  · intro y k hy
    rcases placed_apart hz hy with ⟨-, he⟩ | hap
    · cases he
    · exact hap

theorem Used.apart (hz : Used G bs z n) (hy : Used G bs y k) (hzy : z ≠ y) : z + n ≤ y ∨ y + k ≤ z := by
  rcases placed_apart hz hy with ⟨he, -⟩ | hap
  · exact absurd he hzy
  · exact hap

theorem Changed.replace (h : Changed G mem mem₁ bs bs₁ none (some (y, k)))
    (hb : Blocks G cellOf w bs₁ L) (hm : ∀ a, a < y + 8 ∨ y + k < a → mem₂ a = mem₁ a)
    (h' : Changed G mem₂ mem' bs₁ bs' (some x) none) (hx : Used G bs x n) :
    Changed G mem mem' bs bs' (some x) (some (y, k)) := by
  have hnew : ∀ m, ¬Used G bs y m := fun m hm => by
    cases h.fresh y k m rfl hm
  have hxy : x ≠ y := by
    rintro rfl
    exact hnew n hx
  have hy : Used G bs₁ y k := (h.used y k).mpr (.inr rfl)
  refine ⟨fun z j => ?_, fun z j m hc hz => ?_, fun z j a hz hg hlo hhi => ?_⟩
  · rw [h'.used, h.used]
    simp only [Option.some.injEq, Prod.mk.injEq, ne_eq, reduceCtorEq, not_false_eq_true, and_true,
      or_false]
    constructor
    · rintro ⟨hz | hz, hne⟩
      · exact .inl ⟨hz, hne⟩
      · exact .inr hz
    · rintro (⟨hz, hne⟩ | ⟨rfl, rfl⟩)
      · exact ⟨.inl hz, hne⟩
      · exact ⟨.inr ⟨rfl, rfl⟩, hxy⟩
  · obtain ⟨rfl, rfl⟩ := Prod.mk.inj (Option.some.inj hc)
    exact absurd hz (hnew m)
  · have hz₁ : Used G bs₁ z j := (h.used z j).mpr (.inl ⟨hz, nofun⟩)
    have hzy : z ≠ y := by
      rintro rfl
      exact hnew j hz
    have hfit : Fits ⟨k, false⟩ := hb.fits _ (mem_of_placed hy)
    have hap := hz₁.apart hy hzy
    calc mem' a = mem₂ a := h'.kept z j a hz₁ hg hlo hhi
      _ = mem₁ a := hm a (by omega)
      _ = mem a := h.kept z j a hz nofun hlo hhi

-- ---------------------------------------------------------------------------
-- Contents
-- ---------------------------------------------------------------------------

theorem Carried.of_words (hx : 4 ∣ x) (hy : 4 ∣ y)
    (h : ∀ i, 4 ∣ i → i < n → mem' (y + 8 + i) = mem (x + 8 + i)) : Carried mem mem' x y n := by
  intro i hi
  have hword := h (i / 4 * 4) (Nat.dvd_mul_left ..) (by omega)
  refine byteAt_congr ?_ (by omega)
  have hya : (y + 8 + i) / 4 * 4 = y + 8 + i / 4 * 4 := by omega
  have hxa : (x + 8 + i) / 4 * 4 = x + 8 + i / 4 * 4 := by omega
  rw [hya, hxa, hword]

theorem Carried.trans (h : Carried mem mem₁ x y n) (h' : Carried mem₁ mem₂ y z n) :
    Carried mem mem₂ x z n := fun i hi => (h' i hi).trans (h i hi)

theorem Carried.mono (h : Carried mem mem' x y n) (hk : k ≤ n) : Carried mem mem' x y k :=
  fun i hi => h i (by omega)

theorem Changed.carried (h : Changed G mem mem' bs bs' gone come) (hz : Used G bs z k)
    (hg : gone ≠ some z) (h4 : 4 ∣ z) : Carried mem mem' z z (k - 4) :=
  .of_words h4 h4 fun i _ hi => h.kept z k _ hz hg (by omega) (by omega)

-- ---------------------------------------------------------------------------
-- Pointers
-- ---------------------------------------------------------------------------

/-- The `ptr.buffer` of a block, NULL for none. -/
def pointerTo : Option Nat → Word
  | none => 0#32
  | some z => BitVec.ofNat 32 (z + 8)

/-- What a call answers for which free blocks of `s` bytes and more are looked for: NULL, with
all as it was, just where there are none. It fails where nothing can be looked for. -/
def Answers {T : Type} (G : Geometry) (bs : List Block) (t : T) :
    Option Nat → Option (Word × T) → Prop
  | none, x => x = none
  | some s, x => ¬Offers G bs s ∧ x = some (0#32, t) ∨ Offers G bs s ∧ ∀ q, x = some q → q.1 ≠ 0#32

/-- The pointers that the callers hold, with the sizes that they asked for. -/
structure Owned (G : Geometry) (live : List (Word × Word)) (bs : List Block) : Prop where
  block : ∀ p n, (p, n) ∈ live → ∃ z k, Used G bs z k ∧ p = pointerTo (some z) ∧
    n.toNat + G.overhead ≤ k
  owner : ∀ z k, Used G bs z k → ∃ n, (pointerTo (some z), n) ∈ live
  once : (live.map Prod.fst).Nodup

/-- The callers lose `old` and get `new` for `n` bytes, where these are not NULL. -/
def renew (live : List (Word × Word)) (old new n : Word) : List (Word × Word) :=
  let rest := live.filter fun q => q.1 ≠ old
  if new = 0#32 then rest else (new, n) :: rest

def Mine (live : List (Word × Word)) (addr : Word) : Prop :=
  addr.toNat % 4 = 0 ∧ ∃ q ∈ live, q.1.toNat ≤ addr.toNat ∧ addr.toNat < q.1.toNat + q.2.toNat

instance (live : List (Word × Word)) (addr : Word) : Decidable (Mine live addr) :=
  inferInstanceAs (Decidable (_ ∧ ∃ q ∈ live, _ ∧ _))

def Swapped (G : Geometry) (mem mem' : Nat → Word) (bs bs' : List Block) (old new n : Word) : Prop :=
  ∃ gone come, Changed G mem mem' bs bs' gone come ∧ old = pointerTo gone ∧
    (∀ z, gone = some z → ∃ k, Used G bs z k) ∧ new = pointerTo (come.map Prod.fst) ∧
    ∀ z k, come = some (z, k) → n.toNat + G.overhead ≤ k

theorem Blocks.used_bounds (h : Blocks G cellOf w bs L) (hu : Used G bs z k) :
    G.first ≤ z ∧ 4 ∣ z :=
  ⟨(placed_bounds hu).1, placed_dvd G.dvd_first h.fits hu⟩

theorem Blocks.used_lt (h : Blocks G cellOf w bs L) (hu : Used G bs z k) :
    z + 8 < 2 ^ 32 ∧ z + k ≤ G.last := by
  have hfit : Fits ⟨k, false⟩ := h.fits _ (mem_of_placed hu)
  have hk : 16 ≤ k := hfit.1
  have hb := (placed_bounds hu).2
  rw [h.fin] at hb
  have hhi := G.le_hi
  have htop := G.area.top
  simp only at hb
  omega

theorem Blocks.head_ne {c : ι} (h : Blocks G cellOf w bs L) (hc : L c ≠ []) :
    w.head c ≠ 0#32 ∧ w.head c + 8#32 ≠ 0#32 := by
  obtain ⟨us, vs, n, xs, rfl, -, hhead, hne, -⟩ := h.head_block hc
  have hlast := h.fin
  have hn16 : 16 ≤ n := (h.fits ⟨n, true⟩ (by simp)).1
  rw [stop_append] at hlast
  have hend : stop G.first us + n ≤ G.last := by
    rw [← hlast]
    exact le_stop (a := stop G.first us + n)
  have hhi := G.le_hi
  have htop := G.area.top
  refine ⟨hne, ?_⟩
  rw [hhead, ← BitVec.ofNat_add]
  intro h0
  have hn := congrArg BitVec.toNat h0
  rw [BitVec.toNat_ofNat, Nat.mod_eq_of_lt (by omega)] at hn
  simp at hn

theorem pointerTo_toNat (hz : z + 8 < 2 ^ 32) : (pointerTo (some z)).toNat = z + 8 := by
  rw [pointerTo, BitVec.toNat_ofNat, Nat.mod_eq_of_lt hz]

theorem pointerTo_inj (hz : z + 8 < 2 ^ 32) (hy : y + 8 < 2 ^ 32) :
    pointerTo (some z) = pointerTo (some y) ↔ z = y := by
  refine ⟨fun he => ?_, fun he => he ▸ rfl⟩
  have hn := congrArg BitVec.toNat he
  rw [pointerTo_toNat hz, pointerTo_toNat hy] at hn
  omega

theorem pointerTo_ne_zero (h : Blocks G cellOf w bs L) (hz : Used G bs z k) :
    pointerTo (some z) ≠ 0#32 := by
  intro he
  have hn := pointerTo_toNat (h.used_lt hz).1
  rw [he, BitVec.toNat_ofNat] at hn
  omega

theorem pointerTo_gone {gone : Option Nat} (h : Blocks G cellOf w bs L)
    (hgone : ∀ z, gone = some z → ∃ k, Used G bs z k) (hz : Used G bs z k) :
    pointerTo (some z) = pointerTo gone ↔ gone = some z := by
  cases gone with
  | none =>
    exact ⟨fun he => absurd he (pointerTo_ne_zero h hz), nofun⟩
  | some y =>
    obtain ⟨n, hy⟩ := hgone y rfl
    rw [pointerTo_inj (h.used_lt hz).1 (h.used_lt hy).1, Option.some.injEq, eq_comm]

-- ---------------------------------------------------------------------------
-- Answers
-- ---------------------------------------------------------------------------

section
variable {T : Type} {t : T} {o : Option Nat} {r : Option (Word × T)}

/-- Where no block is large enough, the calls that find nothing are the ones that serve. -/
theorem Answers.serves_iff {S : Word × T → Prop} (h : Answers G bs t o r) (hnull : S (0#32, t))
    (hsome : ∀ q s, o = some s → q.1 ≠ 0#32 → ¬S q) :
    Returns r S ↔ ∃ s, o = some s ∧ ¬Offers G bs s := by
  cases o with
  | none =>
    have hr : r = none := h
    rw [hr]
    exact iff_of_false returns_none nofun
  | some s =>
    rcases h with ⟨hnone, rfl⟩ | ⟨hoffers, hne⟩
    · exact iff_of_true (.pure hnull) ⟨s, rfl, hnone⟩
    · refine iff_of_false ?_ ?_
      · rintro ⟨q, hq, hs⟩
        exact hsome q s rfl (hne q hq) hs
      · rintro ⟨s', hs', hnone⟩
        cases hs'
        exact hnone hoffers

theorem Answers.bind {f : Word × T → Option (Word × T)} (h : Answers G bs t o r)
    (hnull : f (0#32, t) = some (0#32, t))
    (hptr : ∀ q q', q.1 ≠ 0#32 → f q = some q' → q'.1 = q.1) : Answers G bs t o (r >>= f) := by
  cases o with
  | none =>
    have hr : r = none := h
    rw [hr]
    rfl
  | some s =>
    rcases h with ⟨hnone, rfl⟩ | ⟨hoffers, hne⟩
    · exact .inl ⟨hnone, hnull⟩
    · refine .inr ⟨hoffers, fun q' hq' => ?_⟩
      obtain ⟨q, hq, hf⟩ := Option.bind_eq_some_iff.mp hq'
      rw [hptr q q' (hne q hq) hf]
      exact hne q hq

end

-- ---------------------------------------------------------------------------
-- Owners
-- ---------------------------------------------------------------------------

theorem mem_renew {live : List (Word × Word)} {old new p m : Word} :
    (p, m) ∈ renew live old new v ↔
      (p, m) ∈ live ∧ p ≠ old ∨ new ≠ 0#32 ∧ p = new ∧ m = v := by
  by_cases hnew : new = 0#32
  · simp [renew, hnew]
  · simp [renew, hnew, or_comm]

theorem Owned.swap {live : List (Word × Word)} {old new : Word} (h : Owned G live bs)
    (hb : Blocks G cellOf w bs L) (hb' : Blocks G cellOf w' bs' L')
    (hs : Swapped G mem mem' bs bs' old new v) : Owned G (renew live old new v) bs' := by
  obtain ⟨gone, come, hc, rfl, hgone, rfl, hsize⟩ := hs
  have hcome : ∀ z k, come = some (z, k) → Used G bs' z k := fun z k he =>
    (hc.used z k).mpr (.inr he)
  refine ⟨fun p m hp => ?_, fun z k hz => ?_, ?_⟩
  · rcases mem_renew.mp hp with ⟨hp, hne⟩ | ⟨hne, rfl, rfl⟩
    · obtain ⟨z, k, hz, rfl, hk⟩ := h.block p m hp
      exact ⟨z, k, (hc.used z k).mpr (.inl ⟨hz, mt (pointerTo_gone hb hgone hz).mpr hne⟩), rfl, hk⟩
    · cases come with
      | none => exact absurd rfl hne
      | some q => exact ⟨q.1, q.2, hcome _ _ rfl, rfl, hsize _ _ rfl⟩
  · rcases (hc.used z k).mp hz with ⟨hold, hne⟩ | rfl
    · obtain ⟨m, hm⟩ := h.owner z k hold
      exact ⟨m, mem_renew.mpr (.inl ⟨hm, mt (pointerTo_gone hb hgone hold).mp hne⟩)⟩
    · exact ⟨v, mem_renew.mpr (.inr ⟨pointerTo_ne_zero hb' hz, rfl, rfl⟩)⟩
  · have hrest := (List.filter_sublist (p := fun q => decide (q.1 ≠ pointerTo gone))
      (l := live)).map Prod.fst
    rw [renew]
    split
    · exact hrest.nodup h.once
    · rw [List.map_cons, List.nodup_cons]
      refine ⟨fun hin => ?_, hrest.nodup h.once⟩
      -- the new pointer was that of no block that stays
      obtain ⟨⟨p, m⟩, hp, hpq⟩ := List.mem_map.mp hin
      obtain ⟨hp, hne⟩ := List.mem_filter.mp hp
      cases come with
      | none => contradiction
      | some q =>
        obtain ⟨z, k, hz, rfl, -⟩ := h.block p m hp
        have hlt := (hb'.used_lt (hcome q.1 q.2 rfl)).1
        have hzq : z = q.1 := (pointerTo_inj (hb.used_lt hz).1 hlt).mp hpq
        have hg : gone = some z := hc.fresh z q.2 k (by rw [hzq]) hz
        simp [hg] at hne

theorem Owned.kept {live : List (Word × Word)} {old new p m : Word} (h : Owned G live bs)
    (hb : Blocks G cellOf w bs L) (hs : Swapped G mem mem' bs bs' old new v) (hp : (p, m) ∈ live)
    (hne : p ≠ old) (hlo : p.toNat ≤ a) (hhi : a < p.toNat + m.toNat) :
    mem' a = mem a := by
  obtain ⟨gone, come, hc, rfl, hgone, -, -⟩ := hs
  obtain ⟨z, k, hz, rfl, hk⟩ := h.block p m hp
  have ho := G.four_le
  rw [pointerTo_toNat (hb.used_lt hz).1] at hlo hhi
  exact hc.kept z k a hz (mt (pointerTo_gone hb hgone hz).mpr hne) hlo (by omega)

theorem Owned.apart {live : List (Word × Word)} (h : Owned G live bs)
    (hb : Blocks G cellOf w bs L) :
    live.Pairwise fun p q => p.1.toNat + p.2.toNat ≤ q.1.toNat ∨ q.1.toNat + q.2.toNat ≤ p.1.toNat := by
  have hne : live.Pairwise fun p q => p.1 ≠ q.1 := List.pairwise_map.mp h.once
  refine hne.imp_of_mem fun {p q} hp hq hpq => ?_
  obtain ⟨z, k, hz, hpz, hk⟩ := h.block p.1 p.2 hp
  obtain ⟨y, j, hy, hqy, hj⟩ := h.block q.1 q.2 hq
  have ho := G.four_le
  have hzy : z ≠ y := by
    rintro rfl
    exact hpq (hpz.trans hqy.symm)
  have hap := hz.apart hy hzy
  rw [hpz, hqy, pointerTo_toNat (hb.used_lt hz).1, pointerTo_toNat (hb.used_lt hy).1]
  omega

end

end Xmertl.TlsfPool
