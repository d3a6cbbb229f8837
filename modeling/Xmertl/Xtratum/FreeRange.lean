import Xmertl.Xtratum.PageAllocs

/-!
# The search for a free range

`alloc_free_user_range` looks at one page after the other. From a page in use it takes the
next page for the new start of the range and goes on with the one after that: whether it
looks at the first page of a range depends on how many pages in use come right before it.
-/

namespace Xmertl.Xtratum

/-- The page that `alloc_free_user_range` starts from. -/
def startPage (vaddr : Nat) : Nat := vaddr / 0x1000 * 0x1000

def pageAt (vaddr i : Nat) : Nat := startPage vaddr + i * 0x1000

/-- The end of the range that starts at the `i`th page. -/
def endFrom (vaddr vsize i : Nat) : Nat :=
  if i = 0 then pageEnd vaddr vsize else pageEnd (pageAt vaddr i) vsize

namespace Mm

def used (x : Mm) (v : Nat) : Bool := (x.mapping v).present

/-- How many pages in use come right before the `i`th. -/
def usedBefore (x : Mm) (vaddr : Nat) : Nat → Nat
  | 0 => 0
  | i + 1 => if x.used (pageAt vaddr i) then x.usedBefore vaddr i + 1 else 0

/-- The range may start at the `i`th page: at the first one, or after an odd number of pages
in use. -/
def Seat (x : Mm) (vaddr i : Nat) : Prop := i = 0 ∨ x.usedBefore vaddr i % 2 = 1

/-- No page of the range is in use, its first one apart unless that is where the search
starts. -/
def Clear (x : Mm) (vaddr vsize i : Nat) : Prop :=
  ∀ j, i ≤ j → (i = 0 ∨ i < j) → pageAt vaddr j < endFrom vaddr vsize i →
    x.used (pageAt vaddr j) = false

/-- The first such range, where it ends below PAGE_OFFSET. -/
structure Lands (x : Mm) (vaddr vsize i : Nat) : Prop where
  seat : x.Seat vaddr i
  clear : x.Clear vaddr vsize i
  first : ∀ j, j < i → x.Seat vaddr j → ¬x.Clear vaddr vsize j
  below : endFrom vaddr vsize i < pageOffset
  next : pageAt vaddr (if i = 0 then 0 else i + 1) < pageOffset

/-- No page of the range from `a` on is in use. -/
structure FreeRange (x : Mm) (first vsize a : Nat) : Prop where
  first : first ≤ a
  below : a + vsize ≤ pageOffset
  free : ∀ v, a ≤ v → v < a + vsize → x.used v = false

/-- There are frames for the pages, and the tables, of whichever free range. -/
def Suffices (x : Mm) (vaddr vsize : Nat) : Prop :=
  ∀ a, a % 0x1000 = 0 → x.FreeRange (startPage vaddr) vsize a →
    (pagesOf a vsize).length + x.missing ((pagesOf a vsize).map va2pd).toFinset ≤ x.supply

/-- What `alloc_free_user_range` is to do. -/
structure AllocsFree (x : Mm) (vaddr vsize : Nat) (y : Mm) (r : Nat) : Prop where
  mapped : r ≠ 0 → ∀ v, r ≤ v → v < r + vsize → x.used v = false ∧ y.used v = true
  others : r ≠ 0 → ∀ v, v < pageOffset →
    (∀ w, r ≤ w → w < r + vsize → w / 0x1000 ≠ v / 0x1000) → y.mapping v = x.mapping v
  kernel : r ≠ 0 → y.pd = x.pd ∧ ∀ i, userTables ≤ i → y.mem y.pd i = x.mem x.pd i
  found : x.Suffices vaddr vsize → (∃ a, x.FreeRange vaddr vsize a) → r ≠ 0

def AllocsRight (x : Mm) (vaddr vsize : Nat) : Prop :=
  ∃ y r, x.allocFreeUserRange vaddr vsize = some (y, r) ∧ AllocsFree x vaddr vsize y r

-- ---------------------------------------------------------------------------
-- The search
-- ---------------------------------------------------------------------------

section
variable {x : Mm} {vaddr vsize i j n : Nat}

theorem pageAt_succ (vaddr i : Nat) : pageAt vaddr (i + 1) = pageAt vaddr i + 0x1000 := by
  unfold pageAt
  omega

/-- The loop is at the `j`th page, with a range from the `i`th on. -/
structure Searching (x : Mm) (vaddr vsize i j : Nat) : Prop where
  seat : x.Seat vaddr i
  le : i ≤ j
  next : i = 0 ∨ i < j
  free : ∀ k, i ≤ k → (i = 0 ∨ i < k) → k < j → x.used (pageAt vaddr k) = false
  noSeat : ∀ k, i < k → k ≤ j → ¬x.Seat vaddr k
  first : ∀ k, k < i → x.Seat vaddr k → ¬x.Clear vaddr vsize k
  bound : pageAt vaddr j ≤ endFrom vaddr vsize i ∨ j = if i = 0 then 0 else i + 1

theorem searching_zero (x : Mm) (vaddr vsize : Nat) : Searching x vaddr vsize 0 0 where
  seat := .inl rfl
  le := Nat.le_refl 0
  next := .inl rfl
  free k _ _ hk := absurd hk (Nat.not_lt_zero k)
  noSeat k hk hk' := by omega
  first k hk := absurd hk (Nat.not_lt_zero k)
  bound := .inr rfl

theorem Searching.even (h : Searching x vaddr vsize i j) : x.usedBefore vaddr j % 2 = 0 := by
  rcases Nat.eq_or_lt_of_le h.le with rfl | hlt
  · rcases h.next with rfl | hlt
    · rfl
    · exact absurd hlt (Nat.lt_irrefl i)
  · have hno := h.noSeat j hlt (Nat.le_refl j)
    unfold Seat at hno
    omega

theorem pageAt_le (vaddr : Nat) (h : i ≤ j) : pageAt vaddr i ≤ pageAt vaddr j := by
  unfold pageAt
  omega

theorem endFrom_aligned (vaddr vsize i : Nat) : endFrom vaddr vsize i % 0x1000 = 0 := by
  unfold endFrom pageEnd
  split <;> omega

theorem pageAt_aligned (vaddr i : Nat) : pageAt vaddr i % 0x1000 = 0 := by
  unfold pageAt startPage
  omega

theorem Searching.free_step (h : Searching x vaddr vsize i j)
    (hlt : pageAt vaddr j < endFrom vaddr vsize i) (hfree : x.used (pageAt vaddr j) = false) :
    Searching x vaddr vsize i (j + 1) where
  seat := h.seat
  le := Nat.le_succ_of_le h.le
  next := h.next.imp_right Nat.lt_succ_of_lt
  free k hik hi hkj := by
    rcases Nat.lt_succ_iff_lt_or_eq.mp hkj with hkj | rfl
    · exact h.free k hik hi hkj
    · exact hfree
  noSeat k hik hkj := by
    rcases Nat.le_or_eq_of_le_succ hkj with hkj | rfl
    · exact h.noSeat k hik hkj
    · have hnone : x.usedBefore vaddr (j + 1) = 0 := if_neg (by rw [hfree]; decide)
      rintro (hzero | hodd)
      · exact absurd hzero (Nat.succ_ne_zero j)
      · rw [hnone] at hodd
        cases hodd
  first := h.first
  bound := by
    have haligned := endFrom_aligned vaddr vsize i
    have hpage := pageAt_aligned vaddr j
    rw [pageAt_succ]
    omega

theorem Searching.used_step (h : Searching x vaddr vsize i j)
    (hlt : pageAt vaddr j < endFrom vaddr vsize i) (hused : x.used (pageAt vaddr j) = true) :
    Searching x vaddr vsize (j + 1) (j + 2) where
  seat := by
    have hmore : x.usedBefore vaddr (j + 1) = x.usedBefore vaddr j + 1 := if_pos hused
    have heven := h.even
    exact .inr (by omega)
  le := Nat.le_succ _
  next := .inr (Nat.lt_succ_self _)
  free k hik hi hkj := by omega
  noSeat k hik hkj := by
    obtain rfl : k = j + 2 := by omega
    have hmore : x.usedBefore vaddr (j + 1) = x.usedBefore vaddr j + 1 := if_pos hused
    have heven := h.even
    rintro (hzero | hodd)
    · omega
    · rw [usedBefore] at hodd
      split at hodd
      · omega
      · cases hodd
  first k hk hseat hclear := by
    rcases Nat.lt_trichotomy k i with hki | rfl | hik
    · exact h.first k hki hseat hclear
    · have hfree := hclear j h.le h.next hlt
      rw [hused] at hfree
      cases hfree
    · exact h.noSeat k hik (Nat.lt_succ_iff.mp hk) hseat
  bound := .inr rfl

theorem Searching.lands (h : Searching x vaddr vsize i j) (hj : pageAt vaddr j < pageOffset)
    (hend : endFrom vaddr vsize i ≤ pageAt vaddr j) : x.Lands vaddr vsize i where
  seat := h.seat
  clear k hik hi hk := by
    refine h.free k hik hi (Nat.lt_of_not_le fun hjk => ?_)
    have hle := pageAt_le vaddr hjk
    omega
  first := h.first
  below := Nat.lt_of_le_of_lt hend hj
  next := by
    refine Nat.lt_of_le_of_lt (pageAt_le vaddr ?_) hj
    split
    · exact Nat.zero_le j
    · rename_i hi
      exact h.next.resolve_left hi

theorem Searching.lands_none (h : Searching x vaddr vsize i j) (hj : pageOffset ≤ pageAt vaddr j)
    (l : Nat) : ¬x.Lands vaddr vsize l := by
  intro hl
  rcases Nat.lt_trichotomy l i with hli | rfl | hil
  · exact h.first l hli hl.seat hl.clear
  · have hbelow := hl.below
    have hnext := hl.next
    rcases h.bound with hb | rfl
    · omega
    · omega
  · rcases Nat.lt_or_ge j l with hjl | hlj
    · have hnext := hl.next
      rw [if_neg (by omega)] at hnext
      have hle : pageAt vaddr j ≤ pageAt vaddr (l + 1) := pageAt_le vaddr (by omega)
      omega
    · exact h.noSeat l hil hlj hl.seat

theorem freeRangeLoop_lands (h : Searching x vaddr vsize i j)
    (hn : pageOffset ≤ pageAt vaddr j + n * 0x1000) :
    let found := x.freeRangeLoop vsize n (pageAt vaddr j) (endFrom vaddr vsize i) (pageAt vaddr i)
    (found.1 < pageOffset → ∃ l, found.2 = pageAt vaddr l ∧ x.Lands vaddr vsize l) ∧
      (pageOffset ≤ found.1 → ∀ l, ¬x.Lands vaddr vsize l) := by
  induction n generalizing i j with
  | zero =>
    rw [freeRangeLoop]
    exact ⟨fun hlt => absurd hlt (by omega), h.lands_none⟩
  | succ n ih =>
    rw [freeRangeLoop]
    split
    · rename_i hgo
      split
      · rename_i hused
        have hstep := h.used_step hgo.1 hused
        have hseat : endFrom vaddr vsize (j + 1) = pageEnd (pageAt vaddr j + 0x1000) vsize := by
          rw [endFrom, if_neg (Nat.succ_ne_zero j), pageAt_succ]
        have hmove : pageAt vaddr (j + 2) = pageAt vaddr j + 0x2000 := by
          rw [pageAt_succ, pageAt_succ]
        rw [← hseat, ← hmove, ← pageAt_succ]
        exact ih hstep (by omega)
      · rename_i hfree
        have hstep := h.free_step hgo.1 (Bool.not_eq_true _ ▸ hfree)
        have hmove := pageAt_succ vaddr j
        rw [← hmove]
        exact ih hstep (by omega)
    · rename_i hstop
      dsimp only
      refine ⟨fun hlt => ⟨i, rfl, h.lands hlt (by omega)⟩, h.lands_none⟩

theorem freeRangeLoop_start (x : Mm) (vaddr vsize : Nat) :
    let found := x.freeRangeLoop vsize (pageOffset / 0x1000) (startPage vaddr)
      (pageEnd vaddr vsize) (startPage vaddr)
    (found.1 < pageOffset → ∃ l, found.2 = pageAt vaddr l ∧ x.Lands vaddr vsize l) ∧
      (pageOffset ≤ found.1 → ∀ l, ¬x.Lands vaddr vsize l) := by
  have hbound : pageOffset ≤ pageAt vaddr 0 + pageOffset / 0x1000 * 0x1000 := by
    unfold pageOffset
    omega
  have h := freeRangeLoop_lands (searching_zero x vaddr vsize) hbound
  have hzero : pageAt vaddr 0 = startPage vaddr := by simp [pageAt]
  have hend : endFrom vaddr vsize 0 = pageEnd vaddr vsize := if_pos rfl
  rwa [hzero, hend] at h

end

-- ---------------------------------------------------------------------------
-- The allocation
-- ---------------------------------------------------------------------------

section
variable {x y z : Mm} {v vaddr vsize i n r : Nat} {o : Option Nat} {ret : Int}

theorem getTable_kernel (hx : Built x) {flags : BitVec 12} (hi : i < userTables)
    (h : x.getTable i flags = some (y, o)) (hn : userTables ≤ n) :
    y.mem y.pd n = x.mem x.pd n := by
  rw [getTable] at h
  split at h
  · obtain ⟨rfl, -⟩ := Prod.mk.inj (Option.some.inj h)
    rfl
  obtain ⟨⟨z, pt⟩, halloc, h⟩ := Option.bind_eq_some_iff.mp h
  rcases allocPage_cases halloc with ⟨answers, rfl, rfl⟩ | ⟨f, answers, hf, -, rfl, rfl⟩
  · obtain ⟨rfl, -⟩ := Prod.mk.inj (Option.some.inj h)
    rfl
  obtain ⟨rfl, -⟩ := Prod.mk.inj (Option.some.inj h)
  rw [fill_pd, fillDir_dir, if_neg (by omega)]
  exact taken_dir hx hf n

theorem allocateUserPage_kernel (hx : Built x) (h : x.allocateUserPage v = some (y, o))
    (hn : userTables ≤ n) : y.mem y.pd n = x.mem x.pd n := by
  rw [allocateUserPage] at h
  split at h
  · obtain ⟨rfl, -⟩ := Prod.mk.inj (Option.some.inj h)
    rfl
  rename_i hv
  have hi : va2pd v < userTables := va2pd_lt (Nat.not_le.mp hv)
  obtain ⟨⟨z, pt⟩, htable, h⟩ := Option.bind_eq_some_iff.mp h
  obtain ⟨hz, -, hpt⟩ := hx.getTable hi present_user htable
  have hkernel := getTable_kernel hx hi htable hn
  cases pt with
  | none =>
    obtain ⟨rfl, -⟩ := Prod.mk.inj (Option.some.inj h)
    exact hkernel
  | some pt =>
    obtain ⟨ht, rfl⟩ := hpt pt rfl
    dsimp only at h
    split at h
    · obtain ⟨rfl, -⟩ := Prod.mk.inj (Option.some.inj h)
      exact hkernel
    obtain ⟨⟨z', page⟩, halloc, h⟩ := Option.bind_eq_some_iff.mp h
    rcases allocPage_cases halloc with ⟨answers, rfl, rfl⟩ | ⟨f, answers, hf, -, rfl, rfl⟩
    · obtain ⟨rfl, -⟩ := Prod.mk.inj (Option.some.inj h)
      exact hkernel
    obtain ⟨rfl, -⟩ := Prod.mk.inj (Option.some.inj h)
    have hdir : ∀ j, (z.taken f answers).mem (z.taken f answers).pd j = z.mem z.pd j :=
      fun j => taken_dir hz hf j
    have ht' : ((z.taken f answers).mem (z.taken f answers).pd (va2pd v)).present = true := by
      rw [hdir, ht]
    rw [← hdir (va2pd v), fill_pd, fillPage_dir (taken_apart hz hf) hi ht', hdir]
    exact hkernel

/-- What an allocation of the pages has done when it has succeeded. -/
structure Maps (x y : Mm) (pages : List Nat) : Prop where
  below : ∀ v ∈ pages, v < pageOffset
  mapped : ∀ v ∈ pages, x.used v = false ∧ y.used v = true
  others : ∀ v, v < pageOffset → (∀ w ∈ pages, w / 0x1000 ≠ v / 0x1000) →
    y.mapping v = x.mapping v
  kernel : y.pd = x.pd ∧ ∀ i, userTables ≤ i → y.mem y.pd i = x.mem x.pd i

theorem allocUserRangeLoop_maps (hx : Built x) {start k : Nat} (haligned : start % 0x1000 = 0)
    (h : x.allocUserRangeLoop (pagesFrom start k) = some (y, 0)) :
    Maps x y (pagesFrom start k) := by
  induction k generalizing start x with
  | zero =>
    obtain ⟨rfl, -⟩ := Prod.mk.inj (Option.some.inj h)
    exact ⟨fun _ hv => absurd hv List.not_mem_nil, fun _ hv => absurd hv List.not_mem_nil,
      fun _ _ _ => rfl, rfl, fun _ _ => rfl⟩
  | succ k ih =>
    rw [pagesFrom_succ] at h ⊢
    obtain ⟨⟨z, page⟩, hpage, h⟩ := Option.bind_eq_some_iff.mp h
    obtain ⟨hgrows, hnew⟩ := allocateUserPage_grows hx hpage
    cases page with
    | none => exact absurd (Prod.mk.inj (Option.some.inj h)).2 (by decide)
    | some f =>
      obtain ⟨hlt, -, -, habsent, hmapped⟩ := hnew f rfl
      have hmaps := ih hgrows.built (by omega) h
      have hrest : ∀ w ∈ pagesFrom (start + 0x1000) k, w / 0x1000 ≠ start / 0x1000 := by
        intro w hw
        obtain ⟨i, -, rfl⟩ := mem_pagesFrom.mp hw
        omega
      refine ⟨List.forall_mem_cons.mpr ⟨hlt, hmaps.below⟩, fun v hv => ?_, fun v hv hother => ?_, ?_,
        fun i hi => ?_⟩
      · rcases List.mem_cons.mp hv with rfl | hv
        · refine ⟨habsent, ?_⟩
          rw [used, hmaps.others v hlt hrest, hmapped]
          exact present_user f
        · obtain ⟨hfree, hused⟩ := hmaps.mapped v hv
          refine ⟨?_, hused⟩
          by_contra hpresent
          have hpresent : x.used v = true := Bool.not_eq_false _ ▸ hpresent
          have hkept := hgrows.present (hmaps.below v hv) hpresent
          rw [used] at hfree hpresent
          rw [hkept, hpresent] at hfree
          cases hfree
      · have hfirst := hgrows.other hv (hother start List.mem_cons_self).symm
        rw [hmaps.others v hv fun w hw => hother w (List.mem_cons_of_mem _ hw), hfirst]
      · exact hmaps.kernel.1.trans hgrows.pd
      · rw [hmaps.kernel.2 i hi]
        exact allocateUserPage_kernel hx hpage hi

theorem allocUserRangeLoop_comes (hs : Sound x) (pages : List Nat) :
    ∃ y ret, x.allocUserRangeLoop pages = some (y, ret) := by
  induction pages generalizing x with
  | nil => exact ⟨x, 0, rfl⟩
  | cons v pages ih =>
    obtain ⟨z, page, hpage, hz⟩ := allocateUserPage_comes (v := v) hs
    rw [allocUserRangeLoop, hpage]
    cases page with
    | none => exact ⟨z, -1, rfl⟩
    | some f => exact ih hz

theorem pagesOf_fits {c : Nat} (hc : c % 0x1000 = 0) (h : c + vsize ≤ 0xFFFFF000) :
    pagesOf c vsize = pagesFrom c ((vsize + 0xFFF) / 0x1000) := by
  have hcount : (pageEnd c vsize - c / 0x1000 * 0x1000) / 0x1000 = (vsize + 0xFFF) / 0x1000 := by
    unfold pageEnd
    omega
  have hstart : c / 0x1000 * 0x1000 = c := by omega
  rw [pagesOf, hcount, hstart]

theorem pagesOf_wraps {c : Nat} (hc : c % 0x1000 = 0) (hlt : c < 0x100000000)
    (hz : vsize < 0x100000000) (h : 0xFFFFF000 < c + vsize) : pagesOf c vsize = [] := by
  have hcount : (pageEnd c vsize - c / 0x1000 * 0x1000) / 0x1000 = 0 := by
    unfold pageEnd
    omega
  rw [pagesOf, hcount]
  rfl

theorem Lands.eq (h : x.Lands vaddr vsize i) (h' : x.Lands vaddr vsize n) : i = n := by
  rcases Nat.lt_trichotomy i n with hlt | rfl | hlt
  · exact absurd h.clear (h'.first i hlt h.seat)
  · rfl
  · exact absurd h'.clear (h.first n hlt h'.seat)

theorem Lands.lt (h : x.Lands vaddr vsize i) : pageAt vaddr i < pageOffset := by
  refine Nat.lt_of_le_of_lt (pageAt_le vaddr ?_) h.next
  split <;> omega

theorem allocFreeUserRange_cases (h : x.allocFreeUserRange vaddr vsize = some (y, r)) :
    (∀ l, ¬x.Lands vaddr vsize l) ∧ y = x ∧ r = 0 ∨
      ∃ l ret, x.Lands vaddr vsize l ∧
        x.allocUserRangeLoop (pagesOf (pageAt vaddr l) vsize) = some (y, ret) ∧
          r = if ret ≠ 0 then 0 else pageAt vaddr l := by
  have hsearch := freeRangeLoop_start x vaddr vsize
  rw [allocFreeUserRange] at h
  dsimp only at h hsearch
  split at h
  · rename_i hend
    obtain ⟨rfl, rfl⟩ := Prod.mk.inj (Option.some.inj h)
    exact .inl ⟨hsearch.2 hend, rfl, rfl⟩
  · rename_i hend
    obtain ⟨l, hl, hlands⟩ := hsearch.1 (Nat.lt_of_not_le hend)
    obtain ⟨⟨z, ret⟩, hrange, h⟩ := Option.map_eq_some_iff.mp h
    obtain ⟨rfl, rfl⟩ := Prod.mk.inj h
    change _ = pageAt vaddr l at hl
    refine .inr ⟨l, ret, hlands, ?_, ?_⟩
    · rw [← hl]
      exact hrange
    · rw [← hl]
      rfl

theorem allocFreeUserRange_comes (hs : Sound x) (vaddr vsize : Nat) :
    ∃ y r, x.allocFreeUserRange vaddr vsize = some (y, r) := by
  rw [allocFreeUserRange]
  split
  · exact ⟨x, 0, rfl⟩
  · obtain ⟨y, ret, hrange⟩ := allocUserRangeLoop_comes hs (pagesOf _ vsize)
    exact ⟨y, _, Option.map_eq_some_iff.mpr ⟨(y, ret), hrange, rfl⟩⟩

-- ---------------------------------------------------------------------------
-- When the search does what it is for
-- ---------------------------------------------------------------------------

/-- The range that the search comes to does not go past the end of the address space; and
where a free range exists, and the memory for it, the search comes to one whose first page is
free, and not page 0. -/
structure LandsWell (x : Mm) (vaddr vsize : Nat) : Prop where
  fits : ∀ i, x.Lands vaddr vsize i → pageAt vaddr i ≠ 0 → 0 < vsize →
    pageAt vaddr i + vsize ≤ 0xFFFFF000
  finds : x.Suffices vaddr vsize → (∃ a, x.FreeRange vaddr vsize a) →
    ∃ i, x.Lands vaddr vsize i ∧ pageAt vaddr i ≠ 0 ∧
      (0 < vsize → x.used (pageAt vaddr i) = false)

theorem used_page {w : Nat} (h : v / 0x1000 = w / 0x1000) : x.used v = x.used w := by
  rw [used, used, mapping_page h]

theorem page_mem {c : Nat} (hc : c % 0x1000 = 0) (hcv : c ≤ v) (hv : v < c + vsize) :
    v / 0x1000 * 0x1000 ∈ pagesFrom c ((vsize + 0xFFF) / 0x1000) := by
  have hpage : c + (v - c) / 0x1000 * 0x1000 = v / 0x1000 * 0x1000 := by omega
  exact mem_pagesFrom.mpr ⟨(v - c) / 0x1000, by omega, hpage⟩

theorem page_mem_range {c p : Nat} (hp : p ∈ pagesFrom c ((vsize + 0xFFF) / 0x1000)) :
    c ≤ p ∧ p < c + vsize := by
  obtain ⟨i, hi, rfl⟩ := mem_pagesFrom.mp hp
  omega

theorem Lands.fits (h : x.Lands vaddr vsize i) (hw : x.LandsWell vaddr vsize)
    (hne : pageAt vaddr i ≠ 0) : pageAt vaddr i + vsize ≤ 0xFFFFF000 := by
  rcases Nat.eq_zero_or_pos vsize with rfl | hpos
  · have hlt := h.lt
    unfold pageOffset at hlt
    omega
  · exact hw.fits i h hne hpos

theorem Lands.freeRange (h : x.Lands vaddr vsize i) (hfits : vaddr + vsize ≤ pageOffset)
    (hend : pageAt vaddr i + vsize ≤ 0xFFFFF000)
    (hfirst : 0 < vsize → x.used (pageAt vaddr i) = false) :
    x.FreeRange (startPage vaddr) vsize (pageAt vaddr i) := by
  have haligned := pageAt_aligned vaddr i
  have hreach : pageAt vaddr i + vsize ≤ endFrom vaddr vsize i := by
    unfold endFrom
    split
    · rename_i hi
      subst hi
      have hzero : pageAt vaddr 0 = vaddr / 0x1000 * 0x1000 := by simp [pageAt, startPage]
      unfold pageOffset at hfits
      unfold pageEnd
      omega
    · unfold pageEnd
      omega
  have hbelow := h.below
  refine ⟨Nat.le_add_right .., by omega, fun v hiv hv => ?_⟩
  have hpage : v / 0x1000 = pageAt vaddr (i + (v - pageAt vaddr i) / 0x1000) / 0x1000 := by
    have hstep : pageAt vaddr (i + (v - pageAt vaddr i) / 0x1000) =
        pageAt vaddr i + (v - pageAt vaddr i) / 0x1000 * 0x1000 := by
      unfold pageAt
      omega
    omega
  rw [used_page hpage]
  rcases Nat.eq_zero_or_pos ((v - pageAt vaddr i) / 0x1000) with hzero | hpos
  · rw [hzero]
    exact hfirst (by omega)
  · refine h.clear _ (Nat.le_add_right ..) (.inr (by omega)) ?_
    have halignedEnd := endFrom_aligned vaddr vsize i
    have halignedPage := pageAt_aligned vaddr (i + (v - pageAt vaddr i) / 0x1000)
    omega

theorem FreeRange.allocates (hx : Built x) (hs : Sound x) {first c : Nat} (hc : c % 0x1000 = 0)
    (hfits : c + vsize ≤ 0xFFFFF000) (h : x.FreeRange first vsize c)
    (hmem : (pagesOf c vsize).length + x.missing ((pagesOf c vsize).map va2pd).toFinset ≤ x.supply) :
    ∃ y, x.allocUserRangeLoop (pagesOf c vsize) = some (y, 0) := by
  rw [pagesOf_fits hc hfits] at hmem ⊢
  rw [pagesFrom_length] at hmem
  have hend : c + (vsize + 0xFFF) / 0x1000 * 0x1000 ≤ pageOffset := by
    have hbelow := h.below
    unfold pageOffset at hbelow ⊢
    omega
  have habsent : ∀ v ∈ pagesFrom c ((vsize + 0xFFF) / 0x1000), (x.mapping v).present = false ∧
      va2pd v ∈ ((pagesFrom c ((vsize + 0xFFF) / 0x1000)).map va2pd).toFinset := by
    intro v hv
    obtain ⟨hge, hlt⟩ := page_mem_range hv
    exact ⟨h.free v hge hlt, List.mem_toFinset.mpr (List.mem_map_of_mem hv)⟩
  obtain ⟨y, hloop, -, -⟩ := allocUserRangeLoop_supplied (n := 0) hx hs hend habsent (by omega)
  exact ⟨y, hloop⟩

theorem landsWell_of_allocs (hx : Built x) (hz : vsize < 0x100000000)
    (halloc : x.allocFreeUserRange vaddr vsize = some (y, r))
    (hright : AllocsFree x vaddr vsize y r) : LandsWell x vaddr vsize := by
  have hcases := allocFreeUserRange_cases halloc
  have hfits : ∀ i, x.Lands vaddr vsize i → pageAt vaddr i ≠ 0 → 0 < vsize →
      pageAt vaddr i + vsize ≤ 0xFFFFF000 := by
    intro i hi hne hpos
    by_contra hwraps
    have hlt := hi.lt
    unfold pageOffset at hlt
    have hempty := pagesOf_wraps (pageAt_aligned vaddr i) (by omega) hz (Nat.lt_of_not_le hwraps)
    rcases hcases with ⟨hnone, -, -⟩ | ⟨l, ret, hl, hrange, hr⟩
    · exact hnone i hi
    · -- Nothing has been mapped, and the result is the start of the range.
      obtain rfl := hl.eq hi
      rw [hempty] at hrange
      obtain ⟨rfl, rfl⟩ := Prod.mk.inj (Option.some.inj hrange)
      rw [if_neg (by decide)] at hr
      obtain ⟨hfree, hused⟩ := hright.mapped (hr ▸ hne) r (Nat.le_refl r) (by omega)
      rw [hfree] at hused
      cases hused
  refine ⟨hfits, fun hmem hfree => ?_⟩
  have hne := hright.found hmem hfree
  rcases hcases with ⟨-, -, hr⟩ | ⟨l, ret, hl, hrange, hr⟩
  · exact absurd hr hne
  split at hr
  · exact absurd hr hne
  rename_i hret
  obtain rfl : ret = 0 := not_not.mp hret
  refine ⟨l, hl, hr ▸ hne, fun hpos => ?_⟩
  have haligned := pageAt_aligned vaddr l
  rw [pagesOf_fits haligned (hfits l hl (hr ▸ hne) hpos)] at hrange
  have hmaps := allocUserRangeLoop_maps hx haligned hrange
  exact (hmaps.mapped _ (mem_pagesFrom.mpr ⟨0, by omega, by omega⟩)).1

theorem LandsWell.found (hw : LandsWell x vaddr vsize) (hx : Built x) (hs : Sound x)
    (halloc : x.allocFreeUserRange vaddr vsize = some (y, r)) (hmem : x.Suffices vaddr vsize)
    (hfree : ∃ a, x.FreeRange vaddr vsize a) : r ≠ 0 := by
  obtain ⟨i, hi, hne, hfirst⟩ := hw.finds hmem hfree
  rcases allocFreeUserRange_cases halloc with ⟨hnone, -, -⟩ | ⟨l, ret, hl, hrange, hr⟩
  · exact absurd hi (hnone i)
  obtain rfl := hl.eq hi
  obtain ⟨a, ha⟩ := hfree
  have hbelow := ha.below
  have hge := ha.first
  have haligned := pageAt_aligned vaddr l
  have hfits := hl.fits hw hne
  have hrangeFree := hl.freeRange (by omega) hfits hfirst
  obtain ⟨z, hloop⟩ := hrangeFree.allocates hx hs haligned hfits (hmem _ haligned hrangeFree)
  rw [hloop] at hrange
  obtain ⟨-, rfl⟩ := Prod.mk.inj (Option.some.inj hrange)
  rw [hr, if_neg (by decide)]
  exact hne

theorem LandsWell.allocs (hw : LandsWell x vaddr vsize) (hx : Built x) (hs : Sound x)
    (halloc : x.allocFreeUserRange vaddr vsize = some (y, r)) : AllocsFree x vaddr vsize y r := by
  have hfound := hw.found hx hs halloc
  by_cases hzero : r = 0
  · exact ⟨fun hne => absurd hzero hne, fun hne => absurd hzero hne, fun hne => absurd hzero hne,
      hfound⟩
  rcases allocFreeUserRange_cases halloc with ⟨-, -, hr⟩ | ⟨l, ret, hl, hrange, hr⟩
  · exact absurd hr hzero
  split at hr
  · exact absurd hr hzero
  rename_i hret
  obtain rfl : ret = 0 := not_not.mp hret
  subst hr
  have haligned := pageAt_aligned vaddr l
  rw [pagesOf_fits haligned (hl.fits hw hzero)] at hrange
  have hmaps := allocUserRangeLoop_maps hx haligned hrange
  refine ⟨fun _ v hge hlt => ?_, fun _ v hv hother => ?_, fun _ => hmaps.kernel, hfound⟩
  · have hpage : v / 0x1000 = v / 0x1000 * 0x1000 / 0x1000 := by omega
    rw [used_page hpage, used_page (x := y) hpage]
    exact hmaps.mapped _ (page_mem haligned hge hlt)
  · refine hmaps.others v hv fun w hw => ?_
    obtain ⟨hge, hlt⟩ := page_mem_range hw
    exact hother w hge hlt

/-- Exactly then a result is a free range that has been mapped, and there is one wherever a
free range is. -/
theorem allocsRight_iff (hx : Built x) (hs : Sound x) (hz : vsize < 0x100000000) :
    AllocsRight x vaddr vsize ↔ LandsWell x vaddr vsize := by
  constructor
  · rintro ⟨y, r, halloc, hright⟩
    exact landsWell_of_allocs hx hz halloc hright
  · intro hw
    obtain ⟨y, r, halloc⟩ := allocFreeUserRange_comes hs vaddr vsize
    exact ⟨y, r, halloc, hw.allocs hx hs halloc⟩

theorem missing_le_length (x : Mm) (pages : List Nat) :
    x.missing (pages.map va2pd).toFinset ≤ pages.length :=
  calc x.missing (pages.map va2pd).toFinset
      ≤ (pages.map va2pd).toFinset.card := Finset.card_filter_le ..
    _ ≤ (pages.map va2pd).length := List.toFinset_card_le _
    _ = pages.length := List.length_map _

theorem suffices_of_supply {k : Nat} (hz : vsize ≤ k * 0x1000) (hk : 2 * k ≤ x.supply) :
    x.Suffices vaddr vsize := by
  intro a ha hfree
  have hbelow := hfree.below
  unfold pageOffset at hbelow
  have hmissing := missing_le_length x (pagesOf a vsize)
  rw [pagesOf_fits ha (by omega), pagesFrom_length] at hmissing ⊢
  omega

end

def noPages : Mm where
  mem := fun _ _ => {}
  pd := 0
  pool := []
  freed := []
  answers := [some 1, some 2, some 3, some 4, some 5, some 6]
  foreign := fun _ => false

def withPages : List Nat → Option Mm
  | [] => noPages.createPageDirectory fun _ => {}
  | v :: pages => do return (← (← withPages pages).allocateUserPage v).1

theorem withPages_built {pages : List Nat} {x : Mm} (h : withPages pages = some x) : Built x := by
  induction pages generalizing x with
  | nil => exact createPageDirectory_built rfl h
  | cons v pages ih =>
    obtain ⟨y, hy, h⟩ := Option.bind_eq_some_iff.mp h
    obtain ⟨⟨z, o⟩, hz, h⟩ := Option.bind_eq_some_iff.mp h
    cases h
    exact (ih hy).allocateUserPage hz

instance (x : Mm) : Decidable x.Sound :=
  decidable_of_iff (x.answers.reduceOption.Nodup ∧
    ∀ f ∈ x.answers.reduceOption, f ∉ x.pool ∧ x.foreign f = false)
    ⟨fun h => ⟨h.1, h.2⟩, fun h => ⟨h.1, h.2⟩⟩

/-- One page in use, and the page after it is taken. -/
theorem allocsRight_after_one : ∃ x, withPages [0x400000] = some x ∧
    AllocsRight x 0x400000 0x1000 := by
  have hrun : (withPages [0x400000]).any (fun x => decide (x.Sound ∧
      x.used 0x400000 = true ∧ x.used 0x401000 = false)) = true := by decide +kernel
  obtain ⟨x, hx, hp⟩ := (Option.any_eq_true ..).mp hrun
  obtain ⟨hs, hused, hfree⟩ := of_decide_eq_true hp
  refine ⟨x, hx, (allocsRight_iff (withPages_built hx) hs (by decide)).mpr ⟨?_, ?_⟩⟩
  · intro i hi _ _
    have hlt := hi.lt
    unfold pageOffset at hlt
    omega
  · intro _ _
    refine ⟨1, ⟨.inr ?_, ?_, ?_, by decide, by decide⟩, by decide, fun _ => hfree⟩
    · have hone : x.usedBefore 0x400000 1 = 1 := if_pos hused
      rw [hone]
    · intro j hj hlt hend
      have hpage : pageAt 0x400000 j = 0x400000 + j * 0x1000 := rfl
      have hendFrom : endFrom 0x400000 0x1000 1 = 0x402000 := rfl
      omega
    · intro j hj _ hclear
      obtain rfl : j = 0 := by omega
      have hfirst := hclear 0 (Nat.le_refl 0) (.inl rfl) (by decide)
      exact Bool.false_ne_true (hfirst.symm.trans hused)

/-- Two pages in use: the second is not looked at, and refused as the first of the range. -/
theorem allocsRight_after_two : ∃ x, withPages [0x401000, 0x400000] = some x ∧ Sound x ∧
    ¬AllocsRight x 0x400000 0x1000 := by
  have hrun : (withPages [0x401000, 0x400000]).any (fun x => decide (x.Sound ∧
      x.used 0x402000 = false ∧ 2 ≤ x.supply ∧
        (x.allocFreeUserRange 0x400000 0x1000).any fun p => p.2 = 0)) = true := by decide +kernel
  obtain ⟨x, hx, hp⟩ := (Option.any_eq_true ..).mp hrun
  obtain ⟨hs, hfree, hsupply, hzero⟩ := of_decide_eq_true hp
  refine ⟨x, hx, hs, ?_⟩
  rintro ⟨y, r, halloc, hright⟩
  rw [halloc] at hzero
  refine hright.found (suffices_of_supply (k := 1) (Nat.le_refl _) hsupply) ⟨0x402000, ?_⟩
    (of_decide_eq_true hzero)
  refine ⟨by decide, by decide, fun v hge hlt => ?_⟩
  rw [used_page (w := 0x402000) (by omega)]
  exact hfree

end Mm

end Xmertl.Xtratum
