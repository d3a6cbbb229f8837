import Xmertl.Common.TlsfPool
import Xmertl.Lib.BoundaryTags

/-!
# The blocks of a TLSF pool

The words that the allocators keep of a pool's blocks, and its blocks with a hole between
them: the allocators take blocks out of the pool, work on the space that they had, and put
other blocks there. `Hole` says what holds meanwhile, and has a rule for each of these
moves. `Blocks` says what holds before a call and after it.
-/

namespace Xmertl.TlsfPool

open BoundaryTags ThreadedLists TotalCorrectness

-- ---------------------------------------------------------------------------
-- Sizes and their two low bits
-- ---------------------------------------------------------------------------

def flags (f p : Bool) : Word := BitVec.ofNat 32 (f.toNat + 2 * p.toNat)

def word (s : Nat) (f p : Bool) : Word := BitVec.ofNat 32 (s + (f.toNat + 2 * p.toNat))

section
variable {s k : Nat} {f p : Bool}

theorem word_eq (h : 4 ∣ s) : word s f p = BitVec.ofNat 32 s ||| flags f p := by
  obtain ⟨m, rfl⟩ := h
  have hlt : f.toNat + 2 * p.toNat < 2 ^ 2 := by cases f <;> cases p <;> decide
  have hor := Nat.two_pow_add_eq_or_of_lt hlt m
  rw [word, flags, ← BitVec.ofNat_or, ← hor]

theorem ofNat_and_mask (h : 4 ∣ s) : BitVec.ofNat 32 s &&& 0xFFFFFFFC#32 = BitVec.ofNat 32 s := by
  obtain ⟨m, rfl⟩ := h
  have hz : BitVec.ofNat 32 (4 * m) &&& 3#32 = 0#32 := by
    refine BitVec.eq_of_toNat_eq ?_
    have hmod : (4 * m) % 2 ^ 32 &&& 3 = (4 * m) % 2 ^ 32 % 4 := Nat.and_two_pow_sub_one_eq_mod _ 2
    calc ((4 * m) % 2 ^ 32 &&& 3) = (4 * m) % 2 ^ 32 % 4 := hmod
      _ = 0 := by omega
  calc BitVec.ofNat 32 (4 * m) &&& 0xFFFFFFFC#32
      = (BitVec.ofNat 32 (4 * m) &&& 0xFFFFFFFC#32) ||| (BitVec.ofNat 32 (4 * m) &&& 3#32) := by
        rw [hz, BitVec.or_zero]
    _ = BitVec.ofNat 32 (4 * m) &&& (0xFFFFFFFC#32 ||| 3#32) := BitVec.and_or_distrib_left.symm
    _ = BitVec.ofNat 32 (4 * m) := by rw [show 0xFFFFFFFC#32 ||| 3#32 = BitVec.allOnes 32 from rfl,
        BitVec.and_allOnes]

theorem word_and (h : 4 ∣ s) (c : Word) :
    word s f p &&& c = (BitVec.ofNat 32 s &&& (0xFFFFFFFC#32 &&& c)) ||| (flags f p &&& c) := by
  rw [word_eq h, BitVec.and_or_distrib_right, ← BitVec.and_assoc, ofNat_and_mask h]

theorem word_size (h : 4 ∣ s) : word s f p &&& 0xFFFFFFFC#32 = BitVec.ofNat 32 s := by
  rw [word_and h]
  cases f <;> cases p <;> simp [flags, ofNat_and_mask h]

theorem word_free (h : 4 ∣ s) : word s f p &&& 1#32 ≠ 0#32 ↔ f = true := by
  rw [word_and h]
  cases f <;> cases p <;> simp [flags]

theorem word_prev (h : 4 ∣ s) : word s f p &&& 2#32 ≠ 0#32 ↔ p = true := by
  rw [word_and h]
  cases f <;> cases p <;> simp [flags]

theorem word_clear_free (h : 4 ∣ s) : word s f p &&& ~~~1#32 = word s false p := by
  rw [word_and h, word_eq h]
  cases f <;> cases p <;> simp [flags, ofNat_and_mask h]

theorem word_clear_prev (h : 4 ∣ s) : word s f p &&& ~~~2#32 = word s f false := by
  rw [word_and h, word_eq h]
  cases f <;> cases p <;> simp [flags, ofNat_and_mask h]

theorem word_set_free (h : 4 ∣ s) : word s f p ||| 1#32 = word s true p := by
  rw [word_eq h, word_eq h, BitVec.or_assoc]
  cases f <;> cases p <;> rfl

theorem word_set_prev (h : 4 ∣ s) : word s f p ||| 2#32 = word s f true := by
  rw [word_eq h, word_eq h, BitVec.or_assoc]
  cases f <;> cases p <;> rfl

theorem word_new (h : 4 ∣ s) : BitVec.ofNat 32 s ||| 1#32 ||| 0#32 = word s true false := by
  rw [word_eq h, BitVec.or_assoc]
  rfl

theorem word_resize (h : 4 ∣ s) (hk : 4 ∣ k) :
    BitVec.ofNat 32 k ||| (word s f p &&& 2#32) = word k false p := by
  rw [word_and h, word_eq hk]
  cases f <;> cases p <;> simp [flags]

theorem word_add : word s f p + BitVec.ofNat 32 k = word (s + k) f p := by
  rw [word, word, ← BitVec.ofNat_add]
  congr 1
  omega

end

-- ---------------------------------------------------------------------------
-- Where the blocks lie
-- ---------------------------------------------------------------------------

/-- A pool whose blocks begin at `first` and end at the sentinel block, at `last`. -/
structure Geometry where
  area : Area
  overhead : Nat
  first : Nat
  last : Nat
  four_le : 4 ≤ overhead
  dvd_overhead : 4 ∣ overhead
  dvd_first : 4 ∣ first
  lo_le : area.lo ≤ first + 4
  le_hi : last + 8 ≤ area.hi

def Geometry.tag (G : Geometry) (p : Bool) (b : Block) : Word := word (b.span - G.overhead) b.free p

/-- Its size is 0. -/
def Geometry.sentinel (G : Geometry) : Block := ⟨G.overhead, false⟩

abbrev Geometry.Laid (G : Geometry) (mem : Nat → Word) : Bool → Nat → List Block → Prop :=
  BoundaryTags.Laid G.tag (BitVec.ofNat 32) mem

/-- The smallest block holds its header and two pointers. -/
def Fits (b : Block) : Prop := 16 ≤ b.span ∧ 4 ∣ b.span

theorem fits_mk {n : Nat} {f : Bool} (h16 : 16 ≤ n) (h4 : 4 ∣ n) : Fits ⟨n, f⟩ := ⟨h16, h4⟩

section
variable {ι : Type} (G : Geometry) (cellOf : Nat → Option ι)

/-- What the pool's words say: the blocks `bs` from the first to the sentinel, and each free
block on the list that its size maps to. -/
structure Blocks (w : FreeLists ι) (bs : List Block) (L : ι → List Nat) : Prop where
  fin : stop G.first bs = G.last
  fits : ∀ b ∈ bs, Fits b
  coalesced : Coalesced bs
  laid : G.Laid w.mem false G.first (bs ++ [G.sentinel])
  threaded : Threaded w.head w.mem L
  listed : ∀ c z, z ∈ L c ↔ ∃ n, (z, ⟨n, true⟩) ∈ placed G.first bs ∧ cellOf n = some c

def Around (us vs : List Block) (y z : Nat) (b : Block) : Prop :=
  (z, b) ∈ placed G.first us ∨ (z, b) ∈ placed y vs

def Payload (us vs : List Block) (y z : Nat) : Prop :=
  ∃ u n, Around G us vs y u ⟨n, false⟩ ∧ u + 8 ≤ z ∧ z < u + 4 + n

/-- Blocks `us` up to `x` and blocks `vs` from `y`, the first of which takes the block before
it for free when `q` says so. `e` has been listed already, and `d` is what the owners have. -/
structure Hole (w : FreeLists ι) (us vs : List Block) (x y : Nat) (q : Bool) (L : ι → List Nat)
    (e : Option (Nat × ι)) (d : Nat → Word) : Prop where
  start : stop G.first us = x
  fin : stop y vs = G.last
  fits : ∀ b ∈ us ++ vs, Fits b
  le : x ≤ y
  dvd : 4 ∣ y
  left : G.Laid w.mem false G.first us
  right : G.Laid w.mem q y (vs ++ [G.sentinel])
  threaded : Threaded w.head w.mem L
  listed : ∀ c z, z ∈ L c ↔
    (∃ n, Around G us vs y z ⟨n, true⟩ ∧ cellOf n = some c) ∨ e = some (z, c)
  inside : ∀ z c, e = some (z, c) → x ≤ z ∧ z + 16 ≤ y ∧ 4 ∣ z
  data : ∀ z, Payload G us vs y z → w.mem z = d z

end

section
variable {ι : Type} {G : Geometry} {cellOf : Nat → Option ι} {w w' : FreeLists ι}
  {us vs bs mid : List Block} {x y z a n : Nat} {q q' : Bool} {L L' : ι → List Nat}
  {e : Option (Nat × ι)} {d : Nat → Word} {b : Block} {c : ι} {v : Word}

theorem Hole.around_fits (h : Hole G cellOf w us vs x y q L e d) (hb : Around G us vs y z b) :
    Fits b := by
  rcases hb with hb | hb
  · exact h.fits b (List.mem_append_left _ (mem_of_placed hb))
  · exact h.fits b (List.mem_append_right _ (mem_of_placed hb))

theorem Hole.around_bounds (h : Hole G cellOf w us vs x y q L e d)
    (hb : Around G us vs y z b) :
    (G.first ≤ z ∧ z + b.span ≤ x) ∨ (y ≤ z ∧ z + b.span ≤ G.last) := by
  rcases hb with hb | hb
  · have hz := placed_bounds hb
    rw [h.start] at hz
    exact .inl hz
  · have hz := placed_bounds hb
    rw [h.fin] at hz
    exact .inr hz

theorem Hole.around_apart (h : Hole G cellOf w us vs x y q L e d) {z' : Nat} {b' : Block}
    (hb : Around G us vs y z b) (hb' : Around G us vs y z' b') :
    (z = z' ∧ b = b') ∨ z + b.span ≤ z' ∨ z' + b'.span ≤ z := by
  have hle := h.le
  rcases hb with hb | hb <;> rcases hb' with hb' | hb'
  · exact placed_apart hb hb'
  · have hz := (placed_bounds hb).2
    have hz' := (placed_bounds hb').1
    rw [h.start] at hz
    exact .inr (.inl (by omega))
  · have hz := (placed_bounds hb).1
    have hz' := (placed_bounds hb').2
    rw [h.start] at hz'
    exact .inr (.inr (by omega))
  · exact placed_apart hb hb'

theorem placed_dvd (ha : 4 ∣ a) (hf : ∀ b ∈ bs, Fits b) (hb : (z, b) ∈ placed a bs) : 4 ∣ z := by
  obtain ⟨us, vs, rfl, rfl⟩ := placed_split hb
  exact dvd_stop ha fun b hb => (hf b (List.mem_append_left _ hb)).2

theorem Hole.around_dvd (h : Hole G cellOf w us vs x y q L e d) (hb : Around G us vs y z b) :
    4 ∣ z := by
  rcases hb with hb | hb
  · exact placed_dvd G.dvd_first (fun b hb => h.fits b (List.mem_append_left _ hb)) hb
  · exact placed_dvd h.dvd (fun b hb => h.fits b (List.mem_append_right _ hb)) hb

theorem Hole.first_le (h : Hole G cellOf w us vs x y q L e d) : G.first ≤ x := by
  rw [← h.start]
  exact le_stop

theorem Hole.le_last (h : Hole G cellOf w us vs x y q L e d) : y ≤ G.last := by
  rw [← h.fin]
  exact le_stop

theorem Hole.member (h : Hole G cellOf w us vs x y q L e d) (hz : z ∈ Members L) :
    (∃ n, Around G us vs y z ⟨n, true⟩ ∧ 16 ≤ n) ∨ ∃ c, e = some (z, c) := by
  obtain ⟨c, hc⟩ := hz
  rcases (h.listed c z).mp hc with ⟨n, hn, -⟩ | he
  · exact .inl ⟨n, hn, (h.around_fits hn).1⟩
  · exact .inr ⟨c, he⟩

theorem Hole.member_bounds (h : Hole G cellOf w us vs x y q L e d) (hz : z ∈ Members L) :
    G.first ≤ z ∧ z + 16 ≤ G.last ∧ 4 ∣ z := by
  have hfirst := h.first_le
  have hle := h.le
  have hlast := h.le_last
  rcases h.member hz with ⟨n, hn, h16⟩ | ⟨c, he⟩
  · have hb := h.around_bounds hn
    exact ⟨by omega, by simp only at hb; omega, h.around_dvd hn⟩
  · have hin := h.inside z c he
    exact ⟨by omega, by omega, hin.2.2⟩

theorem Geometry.has (G : Geometry) (ha : 4 ∣ a) (hlo : G.first + 4 ≤ a) (hhi : a ≤ G.last + 4) :
    G.area.Has a := by
  have h₁ := G.lo_le
  have h₂ := G.le_hi
  exact ⟨by omega, by omega, by omega⟩

theorem Hole.spaced (h : Hole G cellOf w us vs x y q L e d) : Spaced G.area (Members L) where
  has z hz := by
    obtain ⟨hlo, hhi, hdvd⟩ := h.member_bounds hz
    exact ⟨G.has (by omega) (by omega) (by omega), G.has (by omega) (by omega) (by omega)⟩
  apart z hz z' hz' hne := by
    rcases h.member hz with ⟨n, hn, h16⟩ | ⟨c, he⟩ <;>
      rcases h.member hz' with ⟨n', hn', h16'⟩ | ⟨c', he'⟩
    · have hap := h.around_apart hn hn'
      simp only at hap
      omega
    · have hb := h.around_bounds hn
      have hin := h.inside z' c' he'
      simp only at hb
      omega
    · have hb := h.around_bounds hn'
      have hin := h.inside z c he
      simp only at hb
      omega
    · rw [he] at he'
      exact absurd (Prod.mk.inj (Option.some.inj he')).1 hne

theorem Hole.not_linkWord (h : Hole G cellOf w us vs x y q L e d) (hx : x ≤ a) (hy : a < y + 8)
    (he : ∀ z c, e = some (z, c) → a ≠ z + 8 ∧ a ≠ z + 12) : ¬LinkWord (Members L) a := by
  rintro ⟨z, hz, ha⟩
  rcases h.member hz with ⟨n, hn, h16⟩ | ⟨c, hc⟩
  · have hb := h.around_bounds hn
    simp only at hb
    omega
  · have hne := he z c hc
    omega

theorem Hole.around_not_link (h : Hole G cellOf w us vs x y q L e d) {u : Nat}
    (hu : Around G us vs y u b) (hz : z = u + 4 ∨ z = u + b.span) : ¬LinkWord (Members L) z := by
  have hle := h.le
  have hb := h.around_bounds hu
  have hfit := (h.around_fits hu).1
  rintro ⟨m, hm, hzm⟩
  rcases h.member hm with ⟨n, hn, h16⟩ | ⟨c, hc⟩
  · rcases h.around_apart hu hn with ⟨rfl, rfl⟩ | hap
    · simp only at hz hfit
      omega
    · simp only at hap
      omega
  · have hin := h.inside m c hc
    omega

theorem Hole.left_reads (h : Hole G cellOf w us vs x y q L e d) (hz : Reads G.first us z) :
    z < x + 4 ∧ ¬LinkWord (Members L) z := by
  obtain ⟨u, b, hu, hz⟩ := hz
  have hb := placed_bounds hu
  rw [h.start] at hb
  have hfit := (h.around_fits (.inl hu)).1
  exact ⟨by omega, h.around_not_link (.inl hu) (hz.imp_right And.right)⟩

theorem Hole.right_reads (h : Hole G cellOf w us vs x y q L e d) {n : Block} {ws : List Block}
    (hn : vs ++ [G.sentinel] = n :: ws) (hz : Reads (y + n.span) ws z) :
    y + 8 ≤ z ∧ ¬LinkWord (Members L) z := by
  obtain ⟨u, b, hu, hz⟩ := hz
  cases vs with
  | nil =>
    obtain ⟨rfl, rfl⟩ := List.cons.inj hn
    exact absurd hu List.not_mem_nil
  | cons m vs =>
    obtain ⟨rfl, rfl⟩ := List.cons.inj hn
    have hm := (h.fits m (by simp)).1
    have hle := (placed_bounds hu).1
    have hsplit : (u, b) ∈ placed (y + m.span) (vs ++ [G.sentinel]) := hu
    rw [placed_append, List.mem_append] at hsplit
    rcases hsplit with hu | hu
    · exact ⟨by omega, h.around_not_link (.inr (List.mem_cons_of_mem _ hu))
        (hz.imp_right And.right)⟩
    · have hfin : stop (y + m.span) vs = G.last := h.fin
      rw [hfin] at hu
      obtain ⟨rfl, rfl⟩ := Prod.mk.inj (List.mem_singleton.mp hu)
      simp only [Geometry.sentinel, Bool.false_eq_true, false_and, or_false] at hz
      refine ⟨by omega, ?_⟩
      rintro ⟨l, hl, hzl⟩
      have hb := h.member_bounds hl
      omega

theorem Hole.payload_away (h : Hole G cellOf w us vs x y q L e d) (hz : Payload G us vs y z) :
    (z < x + 4 ∨ y + 8 ≤ z) ∧ ¬LinkWord (Members L) z := by
  obtain ⟨u, n, hu, hlo, hhi⟩ := hz
  have hle := h.le
  have hb := h.around_bounds hu
  have hfit := (h.around_fits hu).1
  simp only at hb hfit
  refine ⟨by omega, ?_⟩
  rintro ⟨m, hm, hzm⟩
  rcases h.member hm with ⟨k, hk, h16⟩ | ⟨c, hc⟩
  · rcases h.around_apart hu hk with ⟨-, he⟩ | hap
    · cases he
    · simp only at hap
      omega
  · have hin := h.inside m c hc
    omega

-- ---------------------------------------------------------------------------
-- What the allocators do with a hole
-- ---------------------------------------------------------------------------

theorem Hole.next (h : Hole G cellOf w us vs x y q L e d) : ∃ m ws,
    vs ++ [G.sentinel] = m :: ws ∧ m.free = firstFree vs ∧ 4 ∣ m.span - G.overhead ∧
      w.mem (y + 4) = word (m.span - G.overhead) m.free q := by
  have hr := h.right
  cases vs with
  | nil => exact ⟨_, _, rfl, rfl, Nat.dvd_sub G.dvd_overhead G.dvd_overhead, hr.1⟩
  | cons m vs =>
    have hm : Fits m := h.fits m (by simp)
    exact ⟨_, _, rfl, rfl, Nat.dvd_sub hm.2 G.dvd_overhead, hr.1⟩

/-- Writes to the hole's words, to the one behind it and to the tag of the next block. -/
theorem Hole.change (h : Hole G cellOf w us vs x y q L e d) {mem : Nat → Word} {m : Block}
    {ws : List Block} (hm : vs ++ [G.sentinel] = m :: ws) (htag : mem (y + 4) = G.tag q' m)
    (hmem : ∀ z, z < x + 4 ∨ y + 8 ≤ z → mem z = w.mem z)
    (he : ∀ z c, e = some (z, c) → mem (z + 8) = w.mem (z + 8) ∧ mem (z + 12) = w.mem (z + 12)) :
    Hole G cellOf { w with mem } us vs x y q' L e d where
  start := h.start
  fin := h.fin
  fits := h.fits
  le := h.le
  dvd := h.dvd
  left := h.left.congr fun z hz => hmem z (.inl (h.left_reads hz).1)
  right := by
    have hr := h.right
    rw [hm] at hr ⊢
    refine hr.retag htag (fun hb => hmem _ (.inr ?_)) fun z hz => hmem z (.inr (h.right_reads hm hz).1)
    cases vs with
    | nil =>
      obtain ⟨rfl, rfl⟩ := List.cons.inj hm
      exact absurd hb (by simp [Geometry.sentinel])
    | cons m' vs =>
      obtain ⟨rfl, rfl⟩ := List.cons.inj hm
      have hfit := (h.fits m' (by simp)).1
      omega
  threaded := h.threaded.congr fun z ⟨l, hl, hz⟩ => by
    have hle := h.le
    rcases h.member hl with ⟨n, hn, h16⟩ | ⟨c, hc⟩
    · have hb := h.around_bounds hn
      simp only at hb
      exact hmem z (by omega)
    · rcases hz with rfl | rfl
      · exact (he l c hc).1
      · exact (he l c hc).2
  listed := h.listed
  inside := h.inside
  data z hz := (hmem z (h.payload_away hz).1).trans (h.data z hz)

theorem Hole.write (h : Hole G cellOf w us vs x y q L e d) (hx : x + 4 ≤ a) (hy : a ≤ y)
    (he : ∀ z c, e = some (z, c) → a ≠ z + 8 ∧ a ≠ z + 12) :
    Hole G cellOf { w with mem := Function.update w.mem a v } us vs x y q L e d := by
  obtain ⟨m, ws, hm, -, -, hr⟩ := h.next
  refine h.change hm ?_ (fun z hz => Function.update_of_ne (by omega) ..) fun z c hc => ?_
  · rw [Function.update_of_ne (by omega)]
    exact hr
  · obtain ⟨h8, h12⟩ := he z c hc
    exact ⟨Function.update_of_ne h8.symm .., Function.update_of_ne h12.symm ..⟩

theorem Hole.set (h : Hole G cellOf w us vs x y q L none d) (hx : x + 4 ≤ a) (hy : a ≤ y) :
    Hole G cellOf { w with mem := Function.update w.mem a v } us vs x y q L none d :=
  h.write hx hy fun _ _ he => absurd he (Option.some_ne_none _).symm

variable (q') in
theorem Hole.retag (h : Hole G cellOf w us vs x y q L e d) {m : Block} {ws : List Block}
    (hm : vs ++ [G.sentinel] = m :: ws) :
    Hole G cellOf { w with mem := Function.update w.mem (y + 4) (G.tag q' m) } us vs x y q' L e
      d := by
  have hle := h.le
  refine h.change hm (Function.update_self ..) (fun z hz => Function.update_of_ne (by omega) ..)
    fun z c hc => ?_
  have hin := h.inside z c hc
  exact ⟨Function.update_of_ne (by omega) .., Function.update_of_ne (by omega) ..⟩

theorem Hole.right_not_link (h : Hole G cellOf w us vs x y q L e d)
    (hz : Reads y (vs ++ [G.sentinel]) z) : ¬LinkWord (Members L) z := by
  cases vs with
  | nil =>
    obtain ⟨u, b, hu, hz⟩ := hz
    obtain ⟨rfl, rfl⟩ := Prod.mk.inj (List.mem_singleton.mp hu)
    simp only [Geometry.sentinel, Bool.false_eq_true, false_and, or_false] at hz
    have hlast : u = G.last := h.fin
    rintro ⟨l, hl, hzl⟩
    have hb := h.member_bounds hl
    omega
  | cons n vs =>
    obtain ⟨u, b, hu, hz⟩ := hz
    rcases List.mem_cons.mp hu with hu | hu
    · obtain ⟨rfl, rfl⟩ := Prod.mk.inj hu
      exact h.around_not_link (.inr List.mem_cons_self) (hz.imp_right And.right)
    · exact (h.right_reads rfl ⟨u, b, hu, hz⟩).2

theorem Blocks.open (h : Blocks G cellOf w (us ++ vs) L) :
    Hole G cellOf w us vs (stop G.first us) (stop G.first us) (lastFree false us) L none w.mem where
  start := rfl
  fin := by rw [← stop_append, h.fin]
  fits := h.fits
  le := Nat.le_refl _
  dvd := dvd_stop G.dvd_first fun b hb => (h.fits b (List.mem_append_left _ hb)).2
  left := by
    have hl := h.laid
    rw [List.append_assoc] at hl
    exact (laid_append.mp hl).1
  right := by
    have hl := h.laid
    rw [List.append_assoc] at hl
    exact (laid_append.mp hl).2
  threaded := h.threaded
  listed c z := by simp [h.listed, Around]
  inside := nofun
  data _ _ := rfl

theorem Blocks.head_block (h : Blocks G cellOf w bs L) (hc : L c ≠ []) : ∃ us vs n xs,
    bs = us ++ ⟨n, true⟩ :: vs ∧ L c = stop G.first us :: xs ∧
      w.head c = BitVec.ofNat 32 (stop G.first us) ∧ w.head c ≠ 0#32 ∧ cellOf n = some c ∧
      Coalesced us ∧ Coalesced vs ∧ firstFree vs = false := by
  obtain ⟨x, xs, hl⟩ := List.exists_cons_of_ne_nil hc
  have hmem : x ∈ L c := by rw [hl]; exact List.mem_cons_self
  obtain ⟨n, hn, hcell⟩ := (h.listed c x).mp hmem
  obtain ⟨us, vs, rfl, rfl⟩ := placed_split hn
  have hhead := h.threaded.head_eq (i := c)
  rw [hl] at hhead
  have hne : w.head c ≠ 0#32 := fun h0 => by simp [h0] at hhead
  obtain ⟨hus, hvs', -⟩ := coalesced_append.mp h.coalesced
  obtain ⟨hnext, hvs⟩ := coalesced_cons.mp hvs'
  exact ⟨us, vs, n, xs, rfl, hl, (ptr_eq_some.mp hhead).1, hne, hcell, hus, hvs, by simpa using hnext⟩

theorem Blocks.placed_of_mem (h : Blocks G cellOf w bs L) (hb : b ∈ bs) :
    ∃ z, (z, b) ∈ placed G.first bs ∧ z + b.span ≤ G.last := by
  obtain ⟨us, vs, rfl⟩ := List.append_of_mem hb
  have hz : (stop G.first us, b) ∈ placed G.first (us ++ b :: vs) := placed_middle
  have hbound := (placed_bounds hz).2
  rw [h.fin] at hbound
  exact ⟨_, hz, hbound⟩

theorem Blocks.ne_nil (h : Blocks G cellOf w bs L) (hb : ⟨n, true⟩ ∈ bs) (hc : cellOf n = some c) :
    L c ≠ [] := by
  obtain ⟨z, hz, -⟩ := h.placed_of_mem hb
  exact List.ne_nil_of_mem ((h.listed c z).mpr ⟨n, hz, hc⟩)

theorem Blocks.span_le (h : Blocks G cellOf w bs L) (hb : b ∈ bs) : G.first + b.span ≤ G.last := by
  obtain ⟨z, hz, hlast⟩ := h.placed_of_mem hb
  have hfirst := (placed_bounds hz).1
  omega

theorem Hole.cleared (hle : G.first ≤ G.last) (hlast : 4 ∣ G.last) :
    Hole G cellOf ⟨fun _ => 0#32, fun _ => 0#32⟩ [] [] G.first G.last false (fun _ => []) none
      fun _ => 0#32 where
  start := rfl
  fin := rfl
  fits := nofun
  le := hle
  dvd := hlast
  left := trivial
  right := ⟨by simp [Geometry.tag, Geometry.sentinel, word], nofun, trivial⟩
  threaded := .empty
  listed c z := by simp [Around, placed]
  inside := nofun
  data _ _ := rfl

variable (mid) in
theorem Hole.close (h : Hole G cellOf w us vs x y (lastFree (lastFree false us) mid) L e d)
    (hfin : stop x mid = y) (hfits : ∀ b ∈ mid, Fits b) (hco : Coalesced (us ++ (mid ++ vs)))
    (hlaid : G.Laid w.mem (lastFree false us) x mid)
    (he : ∀ z c, e = some (z, c) ↔ ∃ n, (z, ⟨n, true⟩) ∈ placed x mid ∧ cellOf n = some c) :
    Blocks G cellOf w (us ++ (mid ++ vs)) L where
  fin := by rw [stop_append, stop_append, h.start, hfin, h.fin]
  fits b hb := by
    simp only [List.mem_append] at hb
    rcases hb with hb | hb | hb
    · exact h.fits b (List.mem_append_left _ hb)
    · exact hfits b hb
    · exact h.fits b (List.mem_append_right _ hb)
  coalesced := hco
  laid := by
    rw [List.append_assoc, List.append_assoc]
    refine laid_append.mpr ⟨h.left, laid_append.mpr ⟨?_, ?_⟩⟩
    · rw [h.start]
      exact hlaid
    · rw [h.start, hfin]
      exact h.right
  threaded := h.threaded
  listed c z := by
    rw [h.listed, he]
    simp only [placed_append, List.mem_append, h.start, hfin, Around, or_and_right, exists_or]
    rw [or_assoc, or_comm (a := ∃ n, (z, ⟨n, true⟩) ∈ placed y vs ∧ _)]

theorem Hole.close_used (h : Hole G cellOf w us vs x (x + n) false L none d)
    (hn : Fits ⟨n, false⟩) (hus : Coalesced us) (hvs : Coalesced vs)
    (htag : w.mem (x + 4) = word (n - G.overhead) false (lastFree false us)) :
    Blocks G cellOf w (us ++ ([⟨n, false⟩] ++ vs)) L := by
  refine h.close [⟨n, false⟩] rfl (fun b hb => ?_) ?_ ⟨htag, nofun, trivial⟩ fun z c => ?_
  · rw [List.mem_singleton.mp hb]
    exact hn
  · simp [coalesced_append, coalesced_cons, hus, hvs]
  · simp [placed]

/-- A block in use at the start of the hole, and the rest of it free and on its list. -/
theorem Hole.close_split {k m : Nat}
    (h : Hole G cellOf w us vs x (x + k + m) true L (some (x + k, c)) d)
    (hk : Fits ⟨k, false⟩) (hm : Fits ⟨m, true⟩) (hc : cellOf m = some c)
    (hus : Coalesced us) (hvs : Coalesced vs) (hfirst : firstFree vs = false)
    (htag : w.mem (x + 4) = word (k - G.overhead) false (lastFree false us))
    (htag' : w.mem (x + k + 4) = word (m - G.overhead) true false)
    (hlink : w.mem (x + k + m) = BitVec.ofNat 32 (x + k)) :
    Blocks G cellOf w (us ++ ([⟨k, false⟩, ⟨m, true⟩] ++ vs)) L := by
  refine h.close [⟨k, false⟩, ⟨m, true⟩] rfl (fun b hb => ?_) ?_
    ⟨htag, nofun, htag', fun _ => hlink, trivial⟩ fun z c' => ?_
  · rcases List.mem_cons.mp hb with rfl | hb
    · exact hk
    · rw [List.mem_singleton.mp hb]
      exact hm
  · simp [coalesced_append, coalesced_cons, hus, hvs, hfirst]
  · simp only [placed, List.mem_cons, Prod.mk.injEq, Block.mk.injEq, Bool.true_eq_false, and_false,
      false_or, List.not_mem_nil, or_false, and_true, Option.some.injEq]
    constructor
    · rintro ⟨rfl, rfl⟩
      exact ⟨m, ⟨rfl, rfl⟩, hc⟩
    · rintro ⟨n, ⟨rfl, rfl⟩, hc'⟩
      exact ⟨rfl, Option.some.inj (hc.symm.trans hc')⟩

theorem Hole.close_free (h : Hole G cellOf w us vs x (x + n) true L (some (x, c)) d)
    (hn : Fits ⟨n, true⟩) (hc : cellOf n = some c) (hus : Coalesced us) (hvs : Coalesced vs)
    (hlast : lastFree false us = false) (hfirst : firstFree vs = false)
    (htag : w.mem (x + 4) = word (n - G.overhead) true false)
    (hlink : w.mem (x + n) = BitVec.ofNat 32 x) :
    Blocks G cellOf w (us ++ ([⟨n, true⟩] ++ vs)) L := by
  refine h.close [⟨n, true⟩] rfl (fun b hb => ?_) ?_
    ⟨by rw [hlast]; exact htag, fun _ => hlink, trivial⟩ fun z c' => ?_
  · rw [List.mem_singleton.mp hb]
    exact hn
  · simp [coalesced_append, coalesced_cons, hus, hvs, hlast, hfirst]
  · simp only [placed, List.mem_cons, Prod.mk.injEq, Block.mk.injEq, List.not_mem_nil, or_false,
      and_true, Option.some.injEq]
    constructor
    · rintro ⟨rfl, rfl⟩
      exact ⟨n, ⟨rfl, rfl⟩, hc⟩
    · rintro ⟨m, ⟨rfl, rfl⟩, hc'⟩
      exact ⟨rfl, Option.some.inj (hc.symm.trans hc')⟩

theorem Hole.take (h : Hole G cellOf w us (⟨n, false⟩ :: vs) x y q L none d) :
    Hole G cellOf w us vs x (y + n) false L none d := by
  have hle := h.le
  have hn : Fits ⟨n, false⟩ := h.fits _ (by simp)
  refine ⟨h.start, h.fin, fun b hb => h.fits b ?_, by omega, Nat.dvd_add h.dvd hn.2, h.left,
    h.right.2.2, h.threaded, fun c z => ?_, nofun, fun z hz => h.data z ?_⟩
  · simp only [List.mem_append, List.mem_cons] at hb ⊢
    exact hb.imp_right Or.inr
  · rw [h.listed]
    simp only [Around, placed, List.mem_cons, Prod.mk.injEq, Block.mk.injEq, Bool.true_eq_false,
      and_false, false_or]
  · obtain ⟨u, k, hu, hz⟩ := hz
    exact ⟨u, k, hu.imp_right (List.mem_cons_of_mem _), hz⟩

theorem Hole.spaced_insert (h : Hole G cellOf w us vs x y q L none d) (hlo : x ≤ z)
    (hhi : z + 16 ≤ y) (hdvd : 4 ∣ z) :
    (∀ c, z ∉ L c) ∧ Spaced G.area (insert z (Members L)) := by
  have hfirst := h.first_le
  have hlast := h.le_last
  have hout : ∀ m ∈ Members L, m + 16 ≤ z ∨ z + 16 ≤ m := by
    intro m hm
    rcases h.member hm with ⟨n, hn, h16⟩ | ⟨c, he⟩
    · have hb := h.around_bounds hn
      simp only at hb
      omega
    · cases he
  refine ⟨fun c hc => ?_, ⟨fun m hm => ?_, fun m hm m' hm' hne => ?_⟩⟩
  · have hz := hout z ⟨c, hc⟩
    omega
  · rcases hm with rfl | hm
    · exact ⟨G.has (by omega) (by omega) (by omega), G.has (by omega) (by omega) (by omega)⟩
    · exact h.spaced.has m hm
  · rcases hm with rfl | hm <;> rcases hm' with rfl | hm'
    · exact absurd rfl hne
    · exact (hout m' hm').symm
    · exact hout m hm
    · exact h.spaced.apart m hm m' hm' hne

variable [DecidableEq ι]

theorem Hole.listed_erase (h : Hole G cellOf w us vs x y q L none d) {t : Nat} {us' vs' : List Block}
    {y' : Nat} (ht : t ∈ L c)
    (ha : ∀ z n, Around G us' vs' y' z ⟨n, true⟩ ↔ Around G us vs y z ⟨n, true⟩ ∧ z ≠ t) (c' : ι)
    (z : Nat) : z ∈ Function.update L c ((L c).erase t) c' ↔
      (∃ n, Around G us' vs' y' z ⟨n, true⟩ ∧ cellOf n = some c') ∨
        (none : Option (Nat × ι)) = some (z, c') := by
  rw [h.threaded.mem_erase ht, h.listed]
  constructor
  · rintro ⟨⟨n, hn, hc⟩ | he, hne⟩
    · exact .inl ⟨n, (ha z n).mpr ⟨hn, hne⟩, hc⟩
    · cases he
  · rintro (⟨n, hn, hc⟩ | he)
    · obtain ⟨hn, hne⟩ := (ha z n).mp hn
      exact ⟨.inl ⟨n, hn, hc⟩, hne⟩
    · cases he

theorem Hole.absorbNext {k : Nat} (h : Hole G cellOf w us (⟨k, true⟩ :: vs) x y q L none d)
    (hy : y ∈ L c) (ht : Threaded w'.head w'.mem (Function.update L c ((L c).erase y)))
    (hf : ∀ z, ¬LinkWord (Members L) z → w'.mem z = w.mem z) :
    Hole G cellOf w' us vs x (y + k) true (Function.update L c ((L c).erase y)) none d := by
  have hle := h.le
  have hk : Fits ⟨k, true⟩ := h.fits _ (by simp)
  have h16 : 16 ≤ k := hk.1
  refine ⟨h.start, h.fin, fun b hb => h.fits b ?_, by omega, Nat.dvd_add h.dvd hk.2, ?_, ?_, ht, ?_,
    nofun, fun z hz => ?_⟩
  · simp only [List.mem_append, List.mem_cons] at hb ⊢
    exact hb.imp_right Or.inr
  · exact h.left.congr fun z hz => hf z (h.left_reads hz).2
  · exact h.right.2.2.congr fun z hz => hf z (h.right_reads rfl hz).2
  · refine h.listed_erase hy fun z n => ⟨fun hn => ?_, fun ⟨hn, hne⟩ => ?_⟩
    · rcases hn with hn | hn
      · have hb := (placed_bounds hn).2
        have hn16 : 16 ≤ n := (h.around_fits (.inl hn)).1
        rw [h.start] at hb
        simp only at hb
        exact ⟨.inl hn, by omega⟩
      · have hb := (placed_bounds hn).1
        exact ⟨.inr (List.mem_cons_of_mem _ hn), by omega⟩
    · rcases hn with hn | hn
      · exact .inl hn
      · rcases List.mem_cons.mp hn with hn | hn
        · exact absurd (Prod.mk.inj hn).1 hne
        · exact .inr hn
  · obtain ⟨u, n, hu, hlo, hhi⟩ := hz
    have hz : Payload G us (⟨k, true⟩ :: vs) y z :=
      ⟨u, n, hu.imp_right (List.mem_cons_of_mem _), hlo, hhi⟩
    exact (hf z (h.payload_away hz).2).trans (h.data z hz)

theorem Hole.absorbPrev {k : Nat} (h : Hole G cellOf w (us ++ [⟨k, true⟩]) vs x y q L none d)
    (hc : z ∈ L c) (hz : z = stop G.first us)
    (ht : Threaded w'.head w'.mem (Function.update L c ((L c).erase z)))
    (hf : ∀ z, ¬LinkWord (Members L) z → w'.mem z = w.mem z) :
    Hole G cellOf w' us vs z y q (Function.update L c ((L c).erase z)) none d := by
  have hle := h.le
  have hk : Fits ⟨k, true⟩ := h.fits _ (by simp)
  have h16 : 16 ≤ k := hk.1
  have hstart : z + k = x := by
    rw [hz, ← h.start, stop_append]
    rfl
  have hat : (z, ⟨k, true⟩) ∈ placed G.first (us ++ [⟨k, true⟩]) := by
    rw [hz]
    exact placed_middle
  refine ⟨hz.symm, h.fin, fun b hb => h.fits b ?_, by omega, h.dvd, ?_, ?_, ht, ?_, nofun,
    fun a ha => ?_⟩
  · simp only [List.mem_append] at hb ⊢
    exact hb.imp_left Or.inl
  · refine (laid_append.mp h.left).1.congr fun a ha => hf a (h.left_reads ?_).2
    obtain ⟨u, b, hu, ha⟩ := ha
    exact ⟨u, b, by rw [placed_append]; exact List.mem_append_left _ hu, ha⟩
  · exact h.right.congr fun a ha => hf a (h.right_not_link ha)
  · refine h.listed_erase hc fun a n => ⟨fun hn => ?_, fun ⟨hn, hne⟩ => ?_⟩
    · rcases hn with hn | hn
      · have hb := (placed_bounds hn).2
        have hn' : Around G (us ++ [⟨k, true⟩]) vs y a ⟨n, true⟩ :=
          .inl (by rw [placed_append]; exact List.mem_append_left _ hn)
        have hn16 : 16 ≤ n := (h.around_fits hn').1
        simp only at hb
        exact ⟨hn', by omega⟩
      · have hb := (placed_bounds hn).1
        exact ⟨.inr hn, by omega⟩
    · rcases hn with hn | hn
      · rw [placed_append, List.mem_append, ← hz] at hn
        rcases hn with hn | hn
        · exact .inl hn
        · exact absurd (Prod.mk.inj (List.mem_singleton.mp hn)).1 hne
      · exact .inr hn
  · obtain ⟨u, n, hu, hlo, hhi⟩ := ha
    have ha : Payload G (us ++ [⟨k, true⟩]) vs y a :=
      ⟨u, n, hu.imp_left fun hu => by rw [placed_append]; exact List.mem_append_left _ hu, hlo, hhi⟩
    exact (hf a (h.payload_away ha).2).trans (h.data a ha)

theorem Hole.enter (h : Hole G cellOf w us vs x y q L none d) (hlo : x ≤ z)
    (hhi : z + 16 ≤ y) (hdvd : 4 ∣ z)
    (ht : Threaded w'.head w'.mem (Function.update L c (z :: L c)))
    (hf : ∀ a, ¬LinkWord (insert z (Members L)) a → w'.mem a = w.mem a) :
    Hole G cellOf w' us vs x y q (Function.update L c (z :: L c)) (some (z, c)) d := by
  have hsame : ∀ a, ¬LinkWord (Members L) a → a < x + 4 ∨ y + 4 ≤ a → w'.mem a = w.mem a := by
    intro a ha hout
    refine hf a ?_
    rintro ⟨m, rfl | hm, ham⟩
    · omega
    · exact ha ⟨m, hm, ham⟩
  refine ⟨h.start, h.fin, h.fits, h.le, h.dvd, ?_, ?_, ht, fun c' m => ?_, fun m c' he => ?_,
    fun a ha => ?_⟩
  · exact h.left.congr fun a ha => hsame a (h.left_reads ha).2 (.inl (h.left_reads ha).1)
  · refine h.right.congr fun a ha => hsame a (h.right_not_link ha) (.inr ?_)
    obtain ⟨u, b, hu, ha⟩ := ha
    have hu' := (placed_bounds hu).1
    rcases ha with rfl | ⟨hb, rfl⟩
    · omega
    · rw [placed_append, List.mem_append] at hu
      rcases hu with hu | hu
      · have hfit := (h.around_fits (.inr hu)).1
        omega
      · obtain ⟨-, rfl⟩ := Prod.mk.inj (List.mem_singleton.mp hu)
        cases hb
  · by_cases hcc : c' = c
    · subst hcc
      rw [Function.update_self, List.mem_cons, h.listed, or_comm]
      simp [eq_comm]
    · rw [Function.update_of_ne hcc, h.listed]
      simp [Ne.symm hcc]
  · obtain ⟨rfl, rfl⟩ := Prod.mk.inj (Option.some.inj he)
    exact ⟨hlo, hhi, hdvd⟩
  · have hout := h.payload_away ha
    exact (hsame a hout.2 (by omega)).trans (h.data a ha)

theorem Hole.insert (h : Hole G cellOf w us vs x y q L none d) (c : ι) (hlo : x ≤ z)
    (hhi : z + 16 ≤ y) (hdvd : 4 ∣ z) :
    Returns (w.insert G.area c (BitVec.ofNat 32 z)) fun w' =>
      Hole G cellOf w' us vs x y q (Function.update L c (z :: L c)) (some (z, c)) d ∧
        ∀ a, x ≤ a → a < y + 8 → a ≠ z + 8 → a ≠ z + 12 → w'.mem a = w.mem a := by
  obtain ⟨hnew, hspaced⟩ := h.spaced_insert hlo hhi hdvd
  refine (insert_spec h.threaded hnew hspaced).mono fun w' ⟨ht, hf⟩ =>
    ⟨h.enter hlo hhi hdvd ht hf, fun a hx hy h8 h12 => hf a ?_⟩
  rintro ⟨m, rfl | hm, ha⟩
  · omega
  · exact h.not_linkWord hx hy nofun ⟨m, hm, ha⟩

theorem Hole.extractNext {k : Nat} (h : Hole G cellOf w us (⟨k, true⟩ :: vs) x y q L none d)
    (hc : cellOf k = some c) :
    Returns (w.extract G.area c (BitVec.ofNat 32 y)) fun w' =>
      Hole G cellOf w' us vs x (y + k) true (Function.update L c ((L c).erase y)) none d ∧
        ∀ a, x ≤ a → a < y + 8 → w'.mem a = w.mem a := by
  have hy : y ∈ L c := (h.listed c y).mpr (.inl ⟨k, .inr List.mem_cons_self, hc⟩)
  exact (extract_spec h.threaded hy h.spaced).mono fun w' ⟨ht, hf⟩ =>
    ⟨h.absorbNext hy ht hf, fun a hlo hhi => hf a (h.not_linkWord hlo hhi nofun)⟩

theorem Hole.extractHdr {k : Nat} {zs : List Nat}
    (h : Hole G cellOf w us (⟨k, true⟩ :: vs) x y q L none d) (hl : L c = y :: zs) :
    Returns (w.extractHdr G.area c (BitVec.ofNat 32 y)) fun w' =>
      Hole G cellOf w' us vs x (y + k) true (Function.update L c ((L c).erase y)) none d ∧
        ∀ a, x ≤ a → a < y + 8 → w'.mem a = w.mem a := by
  have hy : y ∈ L c := by rw [hl]; exact List.mem_cons_self
  exact (extractHdr_spec h.threaded hl h.spaced).mono fun w' ⟨ht, hf⟩ =>
    ⟨h.absorbNext hy ht hf, fun a hlo hhi => hf a (h.not_linkWord hlo hhi nofun)⟩

theorem Hole.extractPrev {k : Nat} (h : Hole G cellOf w (us ++ [⟨k, true⟩]) vs x y q L none d)
    (hz : z = stop G.first us) (hc : cellOf k = some c) :
    Returns (w.extract G.area c (BitVec.ofNat 32 z)) fun w' =>
      Hole G cellOf w' us vs z y q (Function.update L c ((L c).erase z)) none d ∧
        w'.mem (z + 4) = word (k - G.overhead) true (lastFree false us) ∧
        ∀ a, x ≤ a → a < y + 8 → w'.mem a = w.mem a := by
  have hat : Around G (us ++ [⟨k, true⟩]) vs y z ⟨k, true⟩ := by
    rw [hz]
    exact .inl placed_middle
  have hmem : z ∈ L c := (h.listed c z).mpr (.inl ⟨k, hat, hc⟩)
  refine (extract_spec h.threaded hmem h.spaced).mono fun w' ⟨ht, hf⟩ =>
    ⟨h.absorbPrev hmem hz ht hf, ?_, fun a hlo hhi => hf a (h.not_linkWord hlo hhi nofun)⟩
  rw [hf _ (h.around_not_link hat (.inl rfl)), hz]
  exact Laid.tag_at h.left

end

end Xmertl.TlsfPool
