import Xmertl.Common.FifoQueue

/-!
# The positions of a FIFO in the long run

The positions of a FIFO grow until a read leaves it empty, and a `long` ends at 2^31. The
counts of used and free bytes come out right on either side of it: they depend on the
distance of the positions alone. The indices do not: the remainder of a negative position
is negative.
-/

namespace Xmertl

open RingBuffer Runs

/-- The indices and the counts that a read or a write computes are in range. -/
structure FifoStruct.Indexed (ff : FifoStruct) : Prop where
  bom : 0 ≤ ff.ffBom.tmod ff.ffSize ∧ ff.ffBom.tmod ff.ffSize < ff.ffSize
  top : 0 ≤ ff.ffTop.tmod ff.ffSize ∧ ff.ffTop.tmod ff.ffSize < ff.ffSize
  used : 0 ≤ ff.usedSize ∧ ff.usedSize ≤ ff.ffSize
  free : 0 ≤ ff.freeSize ∧ ff.freeSize ≤ ff.ffSize

def Fifos.Indexed (x : Fifos) : Prop := ∀ index, (x.fifos index).Indexed

/-- The condition: a write ends at 2^31 bytes since the FIFO was empty, or before. -/
def FifoCall.Bounded (x : Fifos) (a : FifoCall) : Prop :=
  a.Accepted x → match a with
  | .write _ index _ size => ulong (x.fifos index).ffTop + (x.fifos index).room size ≤ 2147483648
  | .read _ _ _ _ | .flush _ _ => True

/-- Two `long`s at a distance of less than the page, whatever they are. -/
structure FifoStruct.Counted (ff : FifoStruct) : Prop where
  size : ff.ffSize = pageSize
  usable : ff.usable
  bom : -2147483648 ≤ ff.ffBom ∧ ff.ffBom < 2147483648
  top : -2147483648 ≤ ff.ffTop ∧ ff.ffTop < 2147483648
  used : (ff.ffTop - ff.ffBom) % 4294967296 < 4096
  empty : ff.ffTop = ff.ffBom → ff.ffBom = 0

def Fifos.Counted (x : Fifos) : Prop := ∀ index, (x.fifos index).Counted

section
variable {cast : Int → Int} {ff ff' : FifoStruct} {src : Int → UInt8} {n sz size : Int}
  {early : Bool}

-- ---------------------------------------------------------------------------
-- Counts and indices
-- ---------------------------------------------------------------------------

theorem long_range (x : Int) : -2147483648 ≤ long x ∧ long x < 2147483648 ∧
    (x - long x) % 4294967296 = 0 := by
  rw [long, Int.bmod_eq_emod]
  split <;> omega

/-- The remainder of a `long` is an index where the `long` is not negative or divides. -/
theorem tmod_index (x : Int) :
    (0 ≤ x.tmod pageSize ∧ x.tmod pageSize < pageSize) ↔ 0 ≤ x ∨ x % 4096 = 0 := by
  have hlt := Int.tmod_lt_of_pos x (by decide : 0 < pageSize)
  rw [and_iff_left hlt]
  rcases le_or_gt 0 x with hx | hx
  · exact iff_of_true (Int.tmod_nonneg _ hx) (.inl hx)
  · rw [show x = -(-x) by omega, Int.neg_tmod, Int.tmod_eq_emod_of_nonneg (by omega), pageSize]
    omega

namespace FifoStruct

theorem Counted.usedSize_eq (h : ff.Counted) :
    ff.usedSize = (ff.ffTop - ff.ffBom) % 4294967296 := by
  have hused := h.used
  have hlong : long (ff.ffTop + 4096 - ff.ffBom) = (ff.ffTop - ff.ffBom) % 4294967296 + 4096 := by
    have := long_range (ff.ffTop + 4096 - ff.ffBom)
    omega
  rw [usedSize, h.size, pageSize, hlong, Int.tmod_eq_emod_of_nonneg (by omega)]
  omega

theorem Counted.freeSize_eq (h : ff.Counted) :
    ff.freeSize = 4095 - (ff.ffTop - ff.ffBom) % 4294967296 := by
  have hused := h.used
  have hlong : long (ff.ffBom + 4096 - ff.ffTop - 1) =
      4095 - (ff.ffTop - ff.ffBom) % 4294967296 := by
    have := long_range (ff.ffBom + 4096 - ff.ffTop - 1)
    omega
  rw [freeSize, h.size, pageSize, hlong, Int.tmod_eq_emod_of_nonneg (by omega)]
  omega

theorem Counted.indexed_iff (h : ff.Counted) : ff.Indexed ↔
    (0 ≤ ff.ffBom ∨ ff.ffBom % 4096 = 0) ∧ (0 ≤ ff.ffTop ∨ ff.ffTop % 4096 = 0) := by
  rw [← tmod_index, ← tmod_index, ← h.size]
  refine ⟨fun hi => ⟨hi.bom, hi.top⟩, fun ⟨hbom, htop⟩ => ⟨hbom, htop, ?_, ?_⟩⟩
  · rw [h.usedSize_eq, h.size, pageSize]
    have hused := h.used
    omega
  · rw [h.freeSize_eq, h.size, pageSize]
    have hused := h.used
    omega

-- ---------------------------------------------------------------------------
-- What a read and a write move
-- ---------------------------------------------------------------------------

theorem copyTo_data (h : ff.copyTo n src sz = some ff') : ∃ data, ff' = { ff with ffData := data } := by
  obtain ⟨-, h⟩ := Option.ite_none_right_eq_some.mp h
  exact ⟨_, (Option.some.inj h).symm⟩

theorem copyIn_data (h : ff.copyIn cast src sz = some ff') :
    ∃ data, ff' = { ff with ffData := data } := by
  unfold copyIn at h
  dsimp only at h
  split at h
  · exact copyTo_data h
  · split at h
    · exact copyTo_data h
    · obtain ⟨ff₁, h₁, h₂⟩ := Option.bind_eq_some_iff.mp h
      obtain ⟨data, rfl⟩ := copyTo_data h₁
      obtain ⟨data', rfl⟩ := copyTo_data h₂
      exact ⟨data', rfl⟩

theorem Counted.room_eq (h : ff.Counted) (hsize : 0 ≤ size) :
    (ff.room size : Int) = if size > ff.freeSize then ff.freeSize else size := by
  have hfree := h.freeSize_eq
  have hused := h.used
  rw [room]
  split <;> omega

theorem Counted.write_moves (hc : ff.Counted) (hsize : 0 ≤ size)
    (h : ff.write cast early src size = some (ff', n)) :
    ff'.ffTop = long (ff.ffTop + ff.room size) ∧ ff'.ffBom = ff.ffBom ∧
      ff'.ffSize = ff.ffSize ∧ ff'.usable := by
  have hroom := hc.room_eq hsize
  have htop := hc.top
  rw [write] at h
  dsimp only at h
  change (if early ∧ size > ff.freeSize ∧ ff.freeSize = 0 then _ else _) = _ at h
  split at h
  next hfull =>
    obtain ⟨rfl, -⟩ := Prod.mk.inj (Option.some.inj h)
    rw [if_pos hfull.2.1, hfull.2.2] at hroom
    refine ⟨?_, rfl, rfl, usable_setFlags hc.usable fifoWr⟩
    rw [hroom, Int.add_zero, long_eq htop.1 htop.2]
    rfl
  next =>
    obtain ⟨ff₁, hcopy, h⟩ := Option.bind_eq_some_iff.mp h
    obtain ⟨data, rfl⟩ := copyIn_data hcopy
    obtain ⟨rfl, -⟩ := Prod.mk.inj (Option.some.inj h)
    refine ⟨?_, rfl, rfl, usable_unsetFlags (usable_setFlags hc.usable fifoWr) (by decide)⟩
    change long (ff.ffTop + if size > ff.freeSize then ff.freeSize else size) = _
    rw [hroom]

theorem resetEmpty_moves (hu : ff.usable) : ff.resetEmpty.usable ∧
    (ff.resetEmpty.ffTop = 0 ∧ ff.resetEmpty.ffBom = 0 ∨
      ff.resetEmpty.ffTop = ff.ffTop ∧ ff.resetEmpty.ffBom = ff.ffBom ∧
        ff.resetEmpty.ffTop ≠ ff.resetEmpty.ffBom) := by
  unfold resetEmpty
  split
  next => exact ⟨hu, .inl ⟨rfl, rfl⟩⟩
  next hne => exact ⟨hu, .inr ⟨rfl, rfl, hne⟩⟩

theorem resetEmpty_of_ne (hne : ff.ffTop ≠ ff.ffBom) : ff.resetEmpty = ff := if_neg hne

def available (ff : FifoStruct) (size : Int) : Int := if size > ff.usedSize then ff.usedSize else size

theorem Counted.read_moves (hc : ff.Counted) {ret : Int} {dest : List UInt8}
    (h : ff.read cast early size = some (ff', ret, dest)) :
    ff'.ffSize = ff.ffSize ∧ ff'.usable ∧
      (ff'.ffTop = 0 ∧ ff'.ffBom = 0 ∨ ff'.ffTop = ff.ffTop ∧
        ff'.ffBom = long (ff.ffBom + ff.available size) ∧
        (ff'.ffTop = ff'.ffBom → ff.available size = 0)) ∧
      (long (ff.ffBom + ff.available size) ≠ ff.ffTop →
        ff'.ffTop = ff.ffTop ∧ ff'.ffBom = long (ff.ffBom + ff.available size)) := by
  have hbom := hc.bom
  rw [read] at h
  dsimp only at h
  change (if early ∧ size > ff.usedSize ∧ ff.usedSize = 0 then _ else _) = _ at h
  split at h
  next hnone =>
    obtain ⟨rfl, -⟩ := Prod.mk.inj (Option.some.inj h)
    have hzero : ff.available size = 0 := by rw [available, if_pos hnone.2.1, hnone.2.2]
    have hstay : (ff.setFlags fifoRd).ffBom = long (ff.ffBom + ff.available size) := by
      rw [hzero, Int.add_zero, long_eq hbom.1 hbom.2]
      rfl
    exact ⟨rfl, usable_setFlags hc.usable fifoRd, .inr ⟨rfl, hstay, fun _ => hzero⟩,
      fun _ => ⟨rfl, hstay⟩⟩
  next =>
    obtain ⟨bytes, -, h⟩ := Option.bind_eq_some_iff.mp h
    obtain ⟨rfl, -⟩ := Prod.mk.inj (Option.some.inj h)
    have husable := usable_unsetFlags (usable_setFlags hc.usable fifoRd)
      (by decide : ~~~fifoRd &&& fifoUs = fifoUs)
    refine ⟨resetEmpty_ffSize _, (resetEmpty_moves ?_).1, ?_, fun hne => ?_⟩
    · exact husable
    · refine (resetEmpty_moves ?_).2.imp_right fun hsame => ?_
      · exact husable
      · exact ⟨hsame.1, hsame.2.1, fun heq => absurd heq hsame.2.2⟩
    · rw [resetEmpty_of_ne]
      · exact ⟨rfl, rfl⟩
      · exact Ne.symm hne

theorem Counted.available_range (hc : ff.Counted) (hsize : 0 ≤ size) :
    0 ≤ ff.available size ∧ ff.available size ≤ (ff.ffTop - ff.ffBom) % 4294967296 := by
  have hused := hc.usedSize_eq
  rw [available]
  split <;> omega

-- ---------------------------------------------------------------------------
-- One FIFO
-- ---------------------------------------------------------------------------

theorem Counted.written (hc : ff.Counted) (hsize : 0 ≤ size)
    (h : ff.write cast early src size = some (ff', n)) : ff'.Counted := by
  obtain ⟨htop, hbom, hsize', hu⟩ := hc.write_moves hsize h
  have hroom := hc.room_eq hsize
  have hfree := hc.freeSize_eq
  have hused := hc.used
  have hlong := long_range (ff.ffTop + ff.room size)
  have hle : (ff.room size : Int) ≤ 4095 - (ff.ffTop - ff.ffBom) % 4294967296 := by
    rw [hroom, ← hfree]
    split <;> omega
  refine ⟨hsize'.trans hc.size, hu, hbom ▸ hc.bom, htop ▸ ⟨hlong.1, hlong.2.1⟩, ?_, ?_⟩
  · rw [htop, hbom]
    omega
  · rw [htop, hbom]
    intro heq
    exact hc.empty (by have := hc.top; have := hc.bom; omega)

theorem Counted.taken (hc : ff.Counted) (hsize : 0 ≤ size) {ret : Int} {dest : List UInt8}
    (h : ff.read cast early size = some (ff', ret, dest)) : ff'.Counted := by
  obtain ⟨hsize', hu, hmoves, -⟩ := hc.read_moves h
  obtain ⟨h₀, hle⟩ := hc.available_range hsize
  have hused := hc.used
  rcases hmoves with ⟨htop, hbom⟩ | ⟨htop, hbom, hmeet⟩
  · refine ⟨hsize'.trans hc.size, hu, ?_, ?_, ?_, fun _ => hbom⟩ <;> omega
  · have hlong := long_range (ff.ffBom + ff.available size)
    refine ⟨hsize'.trans hc.size, hu, hbom ▸ ⟨hlong.1, hlong.2.1⟩, htop ▸ hc.top, ?_, fun heq => ?_⟩
    · rw [htop, hbom]
      omega
    · have hzero := hmeet heq
      have hstay : ff'.ffBom = ff.ffBom := by
        rw [hbom, hzero, Int.add_zero, long_eq hc.bom.1 hc.bom.2]
      rw [hstay]
      exact hc.empty (by omega)

theorem Counted.written_iff (hc : ff.Counted) (hi : ff.Indexed) (hsize : 0 ≤ size)
    (h : ff.write cast early src size = some (ff', n)) :
    ff'.Indexed ↔ ulong ff.ffTop + ff.room size ≤ 2147483648 := by
  obtain ⟨htop, hbom, -, -⟩ := hc.write_moves hsize h
  obtain ⟨hbom₀, htop₀⟩ := hc.indexed_iff.mp hi
  have hroom := hc.room_eq hsize
  have hfree := hc.freeSize_eq
  have hle : (ff.room size : Int) ≤ 4095 - (ff.ffTop - ff.ffBom) % 4294967296 := by
    rw [hroom, ← hfree]
    split <;> omega
  have hlong := long_range (ff.ffTop + ff.room size)
  have hrange := hc.top
  have hrange' := hc.bom
  have hused := hc.used
  have hempty := hc.empty
  rw [(hc.written hsize h).indexed_iff, htop, hbom, ulong]
  omega

theorem Counted.taken_indexed (hc : ff.Counted) (hi : ff.Indexed) (hsize : 0 ≤ size) {ret : Int}
    {dest : List UInt8} (h : ff.read cast early size = some (ff', ret, dest)) : ff'.Indexed := by
  obtain ⟨-, -, hmoves, -⟩ := hc.read_moves h
  obtain ⟨h₀, hle⟩ := hc.available_range hsize
  obtain ⟨hbom₀, htop₀⟩ := hc.indexed_iff.mp hi
  have hrange := hc.top
  have hrange' := hc.bom
  have hused := hc.used
  have hempty := hc.empty
  have hlong := long_range (ff.ffBom + ff.available size)
  rw [(hc.taken hsize h).indexed_iff]
  rcases hmoves with ⟨htop, hbom⟩ | ⟨htop, hbom, hmeet⟩
  · omega
  · rw [htop, hbom] at *
    omega

end FifoStruct

end

-- ---------------------------------------------------------------------------
-- The FIFOs
-- ---------------------------------------------------------------------------

def FifoCall.Does (ff ff' : FifoStruct) : FifoCall → Prop
  | .read _ _ _ size => 0 ≤ size ∧ ∃ cast early ret dest,
      ff.read cast early size = some (ff', ret, dest)
  | .write _ _ _ size => 0 ≤ size ∧ ∃ cast early src n, ff.write cast early src size = some (ff', n)
  | .flush _ _ => ff'.ffTop = 0 ∧ ff'.ffBom = 0 ∧ ff'.ffSize = ff.ffSize ∧ ff'.ffFlags = ff.ffFlags

namespace Fifos

variable {x y : Fifos} {a : FifoCall} {r : FifoResult}

theorem accepted_does (hu : ∀ index, (x.fifos index).usable) (ha : a.Accepted x)
    (h : x.call a = some (y, r)) :
    ∃ ff, y = x.set a.index ff ∧ a.Does (x.fifos a.index) ff := by
  obtain ⟨hlo, hhi, ha⟩ := ha
  have hindex : indexUnvalid a.index = false := indexUnvalid_eq_false.mpr ⟨hlo, hhi⟩
  cases a with
  | read driver index dest size =>
    obtain ⟨hdest, hsize, hsfifos⟩ := ha
    rw [FifoCall.index] at hindex
    cases driver with
    | rtfifo =>
      rw [Fifos.call, rtFifoUserRead, if_neg (by simp [hindex, hdest, hsize])] at h
      dsimp only at h
      rw [if_neg (by simp [hu])] at h
      obtain ⟨⟨ff, ret, bytes⟩, hread, h⟩ := Option.bind_eq_some_iff.mp h
      exact ⟨ff, (Prod.mk.inj (Option.some.inj h)).1.symm, hsize, _, _, _, _, hread⟩
    | devrtf =>
      rw [Fifos.call, rtFifoRead, if_neg (by simp [hindex, hdest, hsize])] at h
      dsimp only at h
      rw [if_neg (by simp [hu, hsfifos])] at h
      obtain ⟨⟨ff, ret, bytes⟩, hread, h⟩ := Option.bind_eq_some_iff.mp h
      exact ⟨ff, (Prod.mk.inj (Option.some.inj h)).1.symm, hsize, _, _, _, _, hread⟩
  | write driver index src size =>
    obtain ⟨hsrc, hsize, hsfifos⟩ := ha
    rw [FifoCall.index] at hindex
    obtain ⟨src, rfl⟩ := Option.isSome_iff_exists.mp hsrc
    cases driver with
    | rtfifo =>
      rw [Fifos.call, rtFifoUserWrite, if_neg (by simp [hindex, hsize])] at h
      dsimp only at h
      rw [if_neg (by simp [hu])] at h
      obtain ⟨⟨ff, n⟩, hwrite, h⟩ := Option.bind_eq_some_iff.mp h
      exact ⟨ff, (Prod.mk.inj (Option.some.inj h)).1.symm, hsize, _, _, _, _, hwrite⟩
    | devrtf =>
      rw [Fifos.call, rtFifoWrite, if_neg (by simp [hindex, hsize])] at h
      dsimp only at h
      rw [if_neg (by simp [hu, hsfifos])] at h
      obtain ⟨⟨ff, n⟩, hwrite, h⟩ := Option.bind_eq_some_iff.mp h
      exact ⟨ff, (Prod.mk.inj (Option.some.inj h)).1.symm, hsize, _, _, _, _, hwrite⟩
  | flush driver index =>
    rw [FifoCall.index] at hindex
    cases driver with
    | rtfifo =>
      rw [Fifos.call, rtFifoUserFlush, if_neg (by simp [hindex])] at h
      exact ⟨_, (Prod.mk.inj (Option.some.inj h)).1.symm, rfl, rfl, rfl, rfl⟩
    | devrtf =>
      rw [Fifos.call, rtFifoFlush, if_neg (by simp [hindex]), if_neg (by simp [ha rfl])] at h
      exact ⟨_, (Prod.mk.inj (Option.some.inj h)).1.symm, rfl, rfl, rfl, rfl⟩

theorem Counted.usable (hc : x.Counted) (index : Int) : (x.fifos index).usable := (hc index).usable

theorem Counted.does {ff ff' : FifoStruct} (hc : ff.Counted) (hd : a.Does ff ff') : ff'.Counted := by
  cases a with
  | read driver index dest size =>
    obtain ⟨hsize, cast, early, ret, bytes, hread⟩ := hd
    exact hc.taken hsize hread
  | write driver index src size =>
    obtain ⟨hsize, cast, early, src, n, hwrite⟩ := hd
    exact hc.written hsize hwrite
  | flush driver index =>
    obtain ⟨htop, hbom, hsize, hflags⟩ := hd
    refine ⟨hsize.trans hc.size, ?_, ?_, ?_, ?_, fun _ => hbom⟩
    · rw [FifoStruct.usable, hflags]
      exact hc.usable
    · omega
    · omega
    · omega

theorem set_self (x : Fifos) (index : Int) (ff : FifoStruct) :
    (x.set index ff).fifos index = ff := Function.update_self ..

theorem set_of_ne {i index : Int} (hi : i ≠ index) (ff : FifoStruct) :
    (x.set index ff).fifos i = x.fifos i := Function.update_of_ne hi ..

theorem set_counted {ff : FifoStruct} (hc : x.Counted) (hff : ff.Counted) (index : Int) :
    (x.set index ff).Counted := by
  intro i
  by_cases hi : i = index
  · subst hi
    rw [set_self]
    exact hff
  · rw [set_of_ne hi]
    exact hc i

theorem step_counted (hc : x.Counted) (h : x.step a = some y) : y.Counted := by
  obtain ⟨⟨z, r⟩, hcall, rfl⟩ := Option.map_eq_some_iff.mp h
  by_cases ha : a.Accepted x
  · obtain ⟨ff, rfl, hd⟩ := accepted_does hc.usable ha hcall
    exact set_counted hc (Counted.does (hc a.index) hd) a.index
  · obtain ⟨rfl, -⟩ := refused hc.usable ha hcall
    exact hc

theorem set_indexed_iff {ff : FifoStruct} (hi : x.Indexed) (index : Int) :
    (x.set index ff).Indexed ↔ ff.Indexed := by
  constructor
  · intro h
    have hff := h index
    rwa [set_self] at hff
  · intro h i
    by_cases hne : i = index
    · subst hne
      rw [set_self]
      exact h
    · rw [set_of_ne hne]
      exact hi i

theorem step_indexed_iff (hc : x.Counted) (hi : x.Indexed) (h : x.step a = some y) :
    y.Indexed ↔ a.Bounded x := by
  obtain ⟨⟨z, r⟩, hcall, rfl⟩ := Option.map_eq_some_iff.mp h
  by_cases ha : a.Accepted x
  · obtain ⟨ff, rfl, hd⟩ := accepted_does hc.usable ha hcall
    refine (set_indexed_iff hi a.index).trans (Iff.trans ?_ (forall_prop_of_true ha).symm)
    have hcount := hc a.index
    have hindex := hi a.index
    cases a with
    | read driver index dest size =>
      obtain ⟨hsize, cast, early, ret, bytes, hread⟩ := hd
      exact iff_of_true (hcount.taken_indexed hindex hsize hread) trivial
    | write driver index src size =>
      obtain ⟨hsize, cast, early, src, n, hwrite⟩ := hd
      exact hcount.written_iff hindex hsize hwrite
    | flush driver index =>
      obtain ⟨htop, hbom, -, -⟩ := id hd
      refine iff_of_true ((Counted.does hcount hd).indexed_iff.mpr ⟨?_, ?_⟩) trivial
      · omega
      · omega
  · obtain ⟨rfl, -⟩ := refused hc.usable ha hcall
    exact iff_of_true hi fun hacc => absurd hacc ha

theorem fifoControlInit_counted (x : Fifos) :
    x.fifoControlInit.Counted ∧ x.fifoControlInit.Indexed := by
  have hc : x.fifoControlInit.Counted := by
    intro index
    have hzero : (-2147483648 : Int) ≤ 0 ∧ (0 : Int) < 2147483648 := by decide
    have husable : fifoUs &&& fifoUs ≠ 0 := by decide
    have hused : ((0 : Int) - 0) % 4294967296 < 4096 := by decide
    exact ⟨rfl, decide_eq_true husable, hzero, hzero, hused, fun _ => rfl⟩
  exact ⟨hc, fun index => (hc index).indexed_iff.mpr ⟨.inl (le_refl 0), .inl (le_refl 0)⟩⟩

end Fifos

/-- As long as no write goes on past 2^31 bytes, and no longer, all indices are in range. -/
theorem fifo_indexed_iff {tr : List (Fifos × FifoCall)} {x₀ x : Fifos}
    (hr : Run Fifos.step x₀.fifoControlInit tr x) :
    (∀ y, Visited tr x y → y.Indexed) ↔ ∀ e ∈ tr, e.2.Bounded e.1 :=
  hr.visited_iff (J := Fifos.Counted) x₀.fifoControlInit_counted.1
    (fun _ _ _ hc h => Fifos.step_counted hc h) x₀.fifoControlInit_counted.2
    fun _ _ _ hc hi h => Fifos.step_indexed_iff hc hi h

-- ---------------------------------------------------------------------------
-- Past 2^31
-- ---------------------------------------------------------------------------

section
variable {ff : FifoStruct} {x : Fifos}

theorem FifoStruct.Ready.writes (h : ff.Ready) (src : Int → UInt8) {size : Int}
    (hsize : 0 ≤ size) : (ff.write ulong false src size).isSome = true := by
  have hfree := h.freeSize_eq
  have hroom := h.room_eq hsize
  have hsz : (if size > (ff.setFlags fifoWr).freeSize then (ff.setFlags fifoWr).freeSize
      else size) = ff.room size := by
    have horder := h.room
    change (if size > ff.freeSize then ff.freeSize else size) = _
    split <;> omega
  have hle : (ff.room size : Int) ≤ ff.ffSize - 1 - (ff.ffTop - ff.ffBom) := by omega
  obtain ⟨data, hcopy, -⟩ := FifoStruct.copyIn_spec src keeps_ulong (h.toInRange.setFlags fifoWr)
    (Int.natCast_nonneg (ff.room size)) hle (h.fits hsize)
  rw [FifoStruct.write]
  dsimp only
  rw [if_neg (by simp), hsz, hcopy]
  rfl

namespace Fifos

theorem Ready.linux_writes (hx : x.Ready) (hc : x.Counted) {size : Int} (hsize : 0 ≤ size) :
    ∃ y, x.step (.write .rtfifo 0 (some countingBytes) size) = some y ∧
      (y.fifos 0).ffTop = long ((x.fifos 0).ffTop + (x.fifos 0).room size) ∧
      (y.fifos 0).ffBom = (x.fifos 0).ffBom := by
  obtain ⟨⟨ff, n⟩, hwrite⟩ := Option.isSome_iff_exists.mp ((hx 0).1.writes countingBytes hsize)
  obtain ⟨htop, hbom, -, -⟩ := (hc 0).write_moves hsize hwrite
  refine ⟨x.set 0 ff, ?_, ?_, ?_⟩
  · have husable := hc.usable 0
    have hargs : ¬(indexUnvalid 0 = true ∨ size < 0) := by simp [indexUnvalid, xmFifoCount, hsize]
    rw [Fifos.step, Fifos.call, rtFifoUserWrite, if_neg hargs]
    dsimp only
    rw [if_neg (by simp [husable]), hwrite]
    rfl
  · rw [set_self, htop]
  · rw [set_self, hbom]

theorem Ready.linux_reads (hx : x.Ready) (hc : x.Counted) {size : Int} (hsize : 0 ≤ size)
    (hne : long ((x.fifos 0).ffBom + (x.fifos 0).available size) ≠ (x.fifos 0).ffTop) :
    ∃ y, x.step (.read .rtfifo 0 true size) = some y ∧ (y.fifos 0).ffTop = (x.fifos 0).ffTop ∧
      (y.fifos 0).ffBom = long ((x.fifos 0).ffBom + (x.fifos 0).available size) := by
  obtain ⟨ff, hread, -⟩ := FifoStruct.read_spec keeps_long (hx 0).1 hsize false
  obtain ⟨-, -, -, hmoves⟩ := (hc 0).read_moves hread
  obtain ⟨htop, hbom⟩ := hmoves hne
  refine ⟨x.set 0 ff, ?_, ?_, ?_⟩
  · have husable := hc.usable 0
    have hargs : ¬(indexUnvalid 0 = true ∨ (!true) = true ∨ size < 0) := by
      simp [indexUnvalid, xmFifoCount, hsize]
    rw [Fifos.step, Fifos.call, rtFifoUserRead, if_neg hargs]
    dsimp only
    rw [if_neg (by simp [husable]), hread]
    rfl
  · rw [set_self, htop]
  · rw [set_self, hbom]

def Busy (tr : List (Fifos × FifoCall)) : Prop :=
  ∀ e ∈ tr, ∀ y, Fifos.step e.1 e.2 = some y → (y.fifos 0).ffTop ≠ (y.fifos 0).ffBom

theorem Busy.next {tr : List (Fifos × FifoCall)} (h : Busy tr) {y : Fifos} {a : FifoCall}
    (hstep : x.step a = some y) (hne : (y.fifos 0).ffTop ≠ (y.fifos 0).ffBom) :
    Busy ((x, a) :: tr) := by
  intro e he z hz
  rcases List.mem_cons.mp he with rfl | he
  · obtain rfl := Option.some.inj (hstep.symm.trans hz)
    exact hne
  · exact h e he z hz

theorem run_ahead (k : Nat) (hk : 1024 * (k + 1) < 2147483648) : ∃ tr x,
    Run Fifos.step emptyFifos.fifoControlInit tr x ∧ Busy tr ∧ x.Ready ∧
      (x.fifos 0).ffTop = 1024 * (k + 1) ∧ (x.fifos 0).ffBom = 1024 * k := by
  induction k with
  | zero =>
    have hready := emptyFifos.fifoControlInit_ready
    obtain ⟨y, hstep, htop, hbom⟩ :=
      hready.linux_writes emptyFifos.fifoControlInit_counted.1 (by decide : (0 : Int) ≤ 1024)
    have hroom : long ((emptyFifos.fifoControlInit.fifos 0).ffTop +
      (emptyFifos.fifoControlInit.fifos 0).room 1024) = 1024 := by decide
    have hbom₀ : (emptyFifos.fifoControlInit.fifos 0).ffBom = 0 := rfl
    rw [hroom] at htop
    rw [hbom₀] at hbom
    refine ⟨_, y, .next .start hstep, ?_, hready.step ?_ hstep, htop, hbom⟩
    · have hnone : Busy [] := fun _ he => absurd he List.not_mem_nil
      exact hnone.next hstep (by rw [htop, hbom]; decide)
    · decide
  | succ k ih =>
    obtain ⟨tr, x, hr, hbusy, hready, htop, hbom⟩ := ih (by omega)
    have hcounted (z : Fifos) {tr} (hr : Run Fifos.step emptyFifos.fifoControlInit tr z) : z.Counted :=
      hr.invariant (C := fun _ _ => True) emptyFifos.fifoControlInit_counted.1
        (fun _ _ _ h _ hstep => step_counted h hstep) fun _ _ => trivial
    have hc := hcounted x hr
    have hroom := (hready 0).1.room_eq (by decide : (0 : Int) ≤ 1024)
    have hpage : (x.fifos 0).ffSize = 4096 := (hready 0).2
    have hbelow : FifoCall.StaysBelow x (.write .rtfifo 0 (some countingBytes) 1024) := by
      change (x.fifos 0).ffTop + (x.fifos 0).room 1024 < 2147483648
      omega
    obtain ⟨y, hwrite, htop₁, hbom₁⟩ := hready.linux_writes hc (by decide : (0 : Int) ≤ 1024)
    have hready₁ := hready.step hbelow hwrite
    have hr₁ := hr.next hwrite
    have hc₁ := hcounted y hr₁
    rw [long_eq (by omega) (by omega)] at htop₁
    have hused := (hready₁ 0).1.usedSize_eq
    have havail : (y.fifos 0).available 1024 = 1024 := if_neg (by omega)
    have hlong : long ((y.fifos 0).ffBom + (y.fifos 0).available 1024) = 1024 * (k + 1) := by
      rw [long_eq (by omega) (by omega)]
      omega
    obtain ⟨z, hread, htop₂, hbom₂⟩ :=
      hready₁.linux_reads hc₁ (by decide : (0 : Int) ≤ 1024) (by omega)
    refine ⟨_, z, hr₁.next hread, ?_, hready₁.step (a := .read .rtfifo 0 true 1024) trivial hread, ?_, ?_⟩
    · exact (hbusy.next hwrite (by omega)).next hread (by omega)
    · omega
    · omega

end Fifos

end

/-- Linux writes a few bytes. -/
theorem fifo_indexed_run : ∃ tr x, Run Fifos.step emptyFifos.fifoControlInit tr x ∧
    tr.length = 1 ∧ ∀ y, Visited tr x y → y.Indexed := by
  obtain ⟨y, hstep, -⟩ := emptyFifos.fifoControlInit_ready.linux_writes
    emptyFifos.fifoControlInit_counted.1 (by decide : (0 : Int) ≤ 3)
  refine ⟨_, y, .next .start hstep, rfl, (fifo_indexed_iff (.next .start hstep)).mpr fun e he => ?_⟩
  obtain rfl := List.mem_singleton.mp he
  exact fun _ => by decide

/-- The first FIFO is never empty, and a write goes on past 2^31. -/
theorem fifo_index_negative : ∃ tr x, Run Fifos.step emptyFifos.fifoControlInit tr x ∧
    Fifos.Busy tr ∧ ¬x.Indexed := by
  obtain ⟨tr, x, hr, hbusy, hready, htop, hbom⟩ := Fifos.run_ahead 2097150 (by decide)
  have hc : x.Counted := hr.invariant (C := fun _ _ => True)
    emptyFifos.fifoControlInit_counted.1 (fun _ _ _ h _ hstep => Fifos.step_counted h hstep)
    fun _ _ => trivial
  have hi : x.Indexed := fun index => (hc index).indexed_iff.mpr ⟨.inl (hready index).1.bom,
    .inl ((hready index).1.bom.trans (hready index).1.order)⟩
  have hroom := (hready 0).1.room_eq (by decide : (0 : Int) ≤ 2048)
  have hpage : (x.fifos 0).ffSize = 4096 := (hready 0).2
  obtain ⟨y, hwrite, htop₁, hbom₁⟩ := hready.linux_writes hc (by decide : (0 : Int) ≤ 2048)
  refine ⟨_, y, hr.next hwrite, hbusy.next hwrite ?_, fun hy => ?_⟩
  · have hlong := long_range ((x.fifos 0).ffTop + (x.fifos 0).room 2048)
    omega
  · have hbound := (Fifos.step_indexed_iff hc hi hwrite).mp hy ⟨by decide, by decide, rfl, by decide, nofun⟩
    change ulong (x.fifos 0).ffTop + (x.fifos 0).room 2048 ≤ 2147483648 at hbound
    rw [ulong] at hbound
    omega

end Xmertl
