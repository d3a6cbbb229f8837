import Xmertl.Xtratum.DomainPages

/-!
# What unloading a domain frees

The walk of `destroy_page_directory` gives back the frame of every mapping: it looks for
the mark of a device's frame in an entry that it has cleared.
-/

namespace Xmertl.Xtratum

open Runs Ownership

namespace Mm

def Shared (x : Mm) (vaddr : Nat) : Prop :=
  vaddr < pageOffset ∧ (x.entry (va2pd vaddr) (va2pt vaddr)).present = true ∧
    (x.entry (va2pd vaddr) (va2pt vaddr)).unused1 = true

/-- The frames that `destroy_page_directory` frees. -/
def destroyed (x : Mm) : List Nat := ({ x with freed := [] } : Mm).destroyPageDirectory.freed

/-- It frees what the domain has from the page allocator, and no device's frame. -/
def Exact (x : Mm) : Prop :=
  x.destroyed.Perm x.pool ∧ ∀ vaddr, x.Shared vaddr →
    (x.entry (va2pd vaddr) (va2pt vaddr)).frame ∉ x.destroyed


variable {x y : Mm} {i j i' j' f v : Nat}

-- ---------------------------------------------------------------------------
-- One page of the walk
-- ---------------------------------------------------------------------------

/-- The frame of a mapping is freed, whatever its mark. -/
def dropPage (x : Mm) (i j : Nat) : Mm :=
  if (x.entry i j).present then
    (x.fill (x.mem x.pd i).frame j {}).releasePage (x.entry i j).frame
  else x

theorem freeUserPage_present (hv : v < pageOffset)
    (ht : (x.mem x.pd (va2pd v)).present = true) :
    x.freeUserPage v = (x.dropPage (va2pd v) (va2pt v)).freeTable (va2pd v) := by
  have hmark : ((x.fill (x.mem x.pd (va2pd v)).frame (va2pt v) {}).mem
      (x.mem x.pd (va2pd v)).frame (va2pt v)).unused1 = false := by
    rw [fill_mem, if_pos ⟨rfl, rfl⟩]
    rfl
  rw [freeUserPage, if_neg (Nat.not_le.mpr hv), if_pos ht, dropPage, entry_present ht]
  simp only [hmark]
  rfl

theorem freeUserPage_absent (ht : (x.mem x.pd (va2pd v)).present = false) :
    x.freeUserPage v = x := by
  rw [freeUserPage]
  simp [ht]

theorem dropPage_pd (x : Mm) (i j : Nat) : (x.dropPage i j).pd = x.pd := by
  rw [dropPage]
  split <;> rfl

theorem dropPage_freed (x : Mm) (i j : Nat) : ∃ l, (x.dropPage i j).freed = l ++ x.freed ∧
    ((x.entry i j).present = true → (x.entry i j).frame ∈ l) := by
  rw [dropPage]
  split
  · exact ⟨[(x.entry i j).frame], rfl, fun _ => List.mem_singleton_self _⟩
  · rename_i hp
    exact ⟨[], rfl, fun h => absurd h hp⟩

theorem releasePage_perm (hf : f ∈ x.pool) :
    ((x.releasePage f).freed ++ (x.releasePage f).pool).Perm (x.freed ++ x.pool) := by
  have hpool := (List.perm_cons_erase hf).symm
  exact List.perm_middle.symm.trans (hpool.append_left x.freed)

section
variable (hx : Built x) (hi : i < userTables) (hj : j < 1024)
  (ht : (x.mem x.pd i).present = true)
include hx hi ht

/-- A marked frame is none of the domain's, and what the domain still has stays as it is. -/
theorem Built.dropPage (hj : j < 1024) : Built (x.dropPage i j) := by
  rw [Mm.dropPage]
  split
  swap
  · exact hx
  rename_i hp
  have hshape := hx.shape.fillPage (j := j) (e := {}) hx.apart hi ht (.inr rfl)
    fun h => absurd h (by decide)
  have hholds := fillPage_holds (e := {}) hx.apart hi ht hj
  refine ⟨⟨hshape.dir, hshape.pages, hshape.marked⟩, ?_, ?_⟩
  · refine (congrArg (Owns · _) hholds).mpr ?_
    by_cases hmark : (x.entry i j).unused1 = true
    · have hforeign := hx.shape.marked i j hi hj hp hmark
      have hnot : (x.entry i j).frame ∉ x.pool := by
        intro hmem
        rw [hx.mine _ hmem] at hforeign
        exact absurd hforeign (by simp)
      have hnone : x.holds (.page i j) = none := by
        rw [holds_page hi hj, Entry.own, hp, hmark]
        rfl
      have hsame : Function.update x.holds (.page i j) ({} : Entry).own = x.holds := by
        rw [own_absent rfl, ← hnone]
        exact Function.update_eq_self _ _
      rw [hsame]
      exact (congrArg (Owns x.holds) (List.erase_of_not_mem hnot)).mpr hx.own
    · have hown : x.holds (.page i j) = some (x.entry i j).frame := by
        rw [holds_page hi hj]
        simp [Entry.own, hp, hmark]
      exact hx.own.give hown
  · intro g hg
    exact hx.mine g (List.mem_of_mem_erase hg)

theorem dropPage_dir (j i' : Nat) :
    (x.dropPage i j).mem (x.dropPage i j).pd i' = x.mem x.pd i' := by
  rw [dropPage]
  split
  · exact fillPage_dir hx.apart hi ht i'
  · rfl

theorem dropPage_entry (hj : j < 1024) (hi' : i' < userTables) :
    (x.dropPage i j).entry i' j' = if i' = i ∧ j' = j then {} else x.entry i' j' := by
  rw [dropPage]
  split
  · exact fillPage_entry hx.apart hi ht hi'
  · rename_i hp
    split
    · rename_i hslot
      obtain ⟨rfl, rfl⟩ := hslot
      exact (hx.shape.pages i' j' hi hj).resolve_left hp
    · rfl

omit ht in
theorem dropPage_perm (hj : j < 1024)
    (hmark : (x.entry i j).present = true → (x.entry i j).unused1 = false) :
    ((x.dropPage i j).freed ++ (x.dropPage i j).pool).Perm (x.freed ++ x.pool) := by
  rw [dropPage]
  split
  · rename_i hp
    have hown : x.holds (.page i j) = some (x.entry i j).frame := by
      rw [holds_page hi hj]
      simp [Entry.own, hp, hmark hp]
    exact releasePage_perm (x := x.fill (x.mem x.pd i).frame j {}) (hx.own.given _ _ hown)
  · exact .refl _

omit hi in
theorem freeTable_entry (hi' : i' < userTables) (hj' : j' < 1024) :
    (x.freeTable i).entry i' j' = x.entry i' j' := by
  rw [freeTable]
  split
  swap
  · rfl
  rename_i hempty
  refine (clearDir_entry hx.apart hi').trans ?_
  split
  · rename_i heq
    rw [heq, entry_present ht]
    exact (all_empty.mp hempty j' hj').symm
  · rfl

omit hx hi in
theorem freeTable_gone (hnone : ∀ j, j < 1024 → x.entry i j = {}) :
    ((x.freeTable i).mem (x.freeTable i).pd i).present = false := by
  have hempty : ((List.range 1024).all fun n => x.mem (x.mem x.pd i).frame n = {}) = true := by
    refine all_empty.mpr fun n hn => ?_
    rw [← entry_present ht]
    exact hnone n hn
  rw [freeTable, if_pos hempty]
  have hdir := fillDir_dir x i {} i
  rw [if_pos rfl] at hdir
  exact congrArg Entry.present hdir

theorem freeTable_perm :
    ((x.freeTable i).freed ++ (x.freeTable i).pool).Perm (x.freed ++ x.pool) := by
  rw [freeTable]
  split
  · exact releasePage_perm (hx.own.given (.table i) _ (holds_table hi ht))
  · exact .refl _

end

theorem freeTable_freed (x : Mm) (i : Nat) : ∃ l, (x.freeTable i).freed = l ++ x.freed := by
  rw [freeTable]
  split
  · exact ⟨[_], rfl⟩
  · exact ⟨[], rfl⟩

structure Walked (x y : Mm) (i j : Nat) : Prop where
  built : Built y
  pd : y.pd = x.pd
  entry : ∀ i' j', i' < userTables → j' < 1024 →
    y.entry i' j' = if i' = i ∧ j' = j then {} else x.entry i' j'
  gone : (∀ j, j < 1024 → y.entry i j = {}) → (y.mem y.pd i).present = false
  dir : ∀ i', i' ≠ i → y.mem y.pd i' = x.mem x.pd i'
  freed : ∃ l, y.freed = l ++ x.freed ∧ ((x.entry i j).present = true → (x.entry i j).frame ∈ l)
  perm : ((x.entry i j).present = true → (x.entry i j).unused1 = false) →
    (y.freed ++ y.pool).Perm (x.freed ++ x.pool)

theorem Built.freeUserPage (hx : Built x) (hv : v < pageOffset) :
    Walked x (x.freeUserPage v) (va2pd v) (va2pt v) := by
  have hi : va2pd v < userTables := va2pd_lt hv
  have hj : va2pt v < 1024 := va2pt_lt v
  by_cases ht : (x.mem x.pd (va2pd v)).present = true
  · rw [freeUserPage_present hv ht]
    generalize va2pd v = i at *
    generalize va2pt v = j at *
    have hbuilt := hx.dropPage hi ht hj
    have htable : ((x.dropPage i j).mem (x.dropPage i j).pd i).present = true := by
      rw [dropPage_dir hx hi ht, ht]
    refine ⟨hbuilt.freeTable hi (.inl htable), ?_, ?_, ?_, ?_, ?_, ?_⟩
    · rw [freeTable_pd, dropPage_pd]
    · intro i' j' hi' hj'
      rw [freeTable_entry hbuilt htable hi' hj', dropPage_entry hx hi ht hj hi']
    · intro hnone
      refine freeTable_gone htable fun n hn => ?_
      rw [← freeTable_entry hbuilt htable hi hn]
      exact hnone n hn
    · intro i' hne
      rw [freeTable_pd, freeTable_dir hne, dropPage_dir hx hi ht]
    · obtain ⟨l, hl, hframe⟩ := dropPage_freed x i j
      obtain ⟨l', hl'⟩ := freeTable_freed (x.dropPage i j) i
      refine ⟨l' ++ l, ?_, fun hp => List.mem_append_right _ (hframe hp)⟩
      rw [hl', hl, List.append_assoc]
    · intro hmark
      exact (freeTable_perm hbuilt hi htable).trans (dropPage_perm hx hi hj hmark)
  · have ht : (x.mem x.pd (va2pd v)).present = false := Bool.not_eq_true _ ▸ ht
    rw [freeUserPage_absent ht]
    refine ⟨hx, rfl, ?_, fun _ => ht, fun _ _ => rfl, ⟨[], rfl, ?_⟩, fun _ => .refl _⟩
    · intro i' j' hi' hj'
      split
      · rename_i hslot
        rw [hslot.1, entry_absent ht]
      · rfl
    · intro hp
      rw [entry_absent ht] at hp
      exact absurd hp (by decide)

-- ---------------------------------------------------------------------------
-- The whole walk
-- ---------------------------------------------------------------------------

theorem freeUserPages_succ (x : Mm) (n : Nat) :
    x.freeUserPages (n + 1) = (x.freeUserPages n).freeUserPage (n * 0x1000) := by
  rw [freeUserPages, List.range_succ, List.foldl_append]
  rfl

theorem va2pd_page (n : Nat) : va2pd (n * 0x1000) = n / 1024 := by
  rw [va2pd]
  omega

theorem va2pt_page (n : Nat) : va2pt (n * 0x1000) = n % 1024 := by
  rw [va2pt, Nat.mul_div_cancel _ (by decide)]

theorem Built.walked (hx : Built x) {n : Nat} (hn : n < userTables * 1024) :
    Walked x (x.freeUserPage (n * 0x1000)) (n / 1024) (n % 1024) := by
  have hv : n * 0x1000 < pageOffset := by
    rw [userTables] at hn
    rw [pageOffset]
    omega
  rw [← va2pd_page, ← va2pt_page]
  exact hx.freeUserPage hv

/-- After the first `n` pages their mappings are gone, and with its last page each table. -/
structure Swept (x y : Mm) (n : Nat) : Prop where
  built : Built y
  pd : y.pd = x.pd
  entry : ∀ i j, i < userTables → j < 1024 →
    y.entry i j = if i * 1024 + j < n then {} else x.entry i j
  gone : ∀ i, i * 1024 + 1024 ≤ n → (y.mem y.pd i).present = false

theorem Built.freeUserPages (hx : Built x) (n : Nat) (hn : n ≤ userTables * 1024) :
    Swept x (x.freeUserPages n) n := by
  induction n with
  | zero => exact ⟨hx, rfl, fun i j _ _ => by simp [Mm.freeUserPages], fun i hi => by omega⟩
  | succ n ih =>
    obtain ⟨hbuilt, hpd, hentry, hgone⟩ := ih (by omega)
    obtain ⟨hbuilt', hpd', hentry', hgone', hdir', -, -⟩ := hbuilt.walked (n := n) (by omega)
    rw [freeUserPages_succ]
    have hslot {i j : Nat} (hj : j < 1024) :
        (i = n / 1024 ∧ j = n % 1024) ↔ i * 1024 + j = n := by omega
    have hall : ∀ i j, i < userTables → j < 1024 →
        ((x.freeUserPages n).freeUserPage (n * 0x1000)).entry i j =
          if i * 1024 + j < n + 1 then {} else x.entry i j := by
      intro i j hi hj
      rw [hentry' i j hi hj, hentry i j hi hj, if_congr (hslot hj) rfl rfl]
      rcases Nat.lt_trichotomy (i * 1024 + j) n with hlt | heq | hgt
      · rw [if_neg (by omega), if_pos hlt, if_pos (by omega)]
      · rw [if_pos heq, if_pos (by omega)]
      · rw [if_neg (by omega), if_neg (by omega), if_neg (by omega)]
    refine ⟨hbuilt', hpd'.trans hpd, hall, fun i hi => ?_⟩
    by_cases hlast : i = n / 1024
    · -- the last page of its table, or a later one
      rw [hlast]
      refine hgone' fun j hj => ?_
      rw [hall _ _ (by omega) hj, if_pos (by omega)]
    · rw [hdir' i hlast]
      exact hgone i (by omega)

theorem freeUserPages_freed (hx : Built x) (n k : Nat) (hk : n + k ≤ userTables * 1024) :
    ∃ l, (x.freeUserPages (n + k)).freed = l ++ (x.freeUserPages n).freed := by
  induction k with
  | zero => exact ⟨[], rfl⟩
  | succ k ih =>
    obtain ⟨l, hl⟩ := ih (by omega)
    have hbuilt := (hx.freeUserPages (n + k) (by omega)).built
    obtain ⟨l', hl', -⟩ := (hbuilt.walked (n := n + k) (by omega)).freed
    rw [← Nat.add_assoc, freeUserPages_succ]
    exact ⟨l' ++ l, by rw [hl', hl, List.append_assoc]⟩

theorem Built.frame_freed (hx : Built x) (hi : i < userTables) (hj : j < 1024)
    (hp : (x.entry i j).present = true) :
    (x.entry i j).frame ∈ (x.freeUserPages (userTables * 1024)).freed := by
  have hn : i * 1024 + j < userTables * 1024 := by omega
  have hswept := hx.freeUserPages (i * 1024 + j) (by omega)
  have hsame : (x.freeUserPages (i * 1024 + j)).entry i j = x.entry i j := by
    rw [hswept.entry i j hi hj, if_neg (Nat.lt_irrefl _)]
  have hi' : (i * 1024 + j) / 1024 = i := by omega
  have hj' : (i * 1024 + j) % 1024 = j := by omega
  obtain ⟨l, hl, hframe⟩ := (hswept.built.walked hn).freed
  rw [hi', hj', hsame] at hframe
  obtain ⟨l', hl'⟩ := freeUserPages_freed hx (i * 1024 + j + 1)
    (userTables * 1024 - (i * 1024 + j + 1)) (by omega)
  rw [Nat.add_sub_cancel' (by omega), freeUserPages_succ, hl] at hl'
  rw [hl']
  exact List.mem_append_right _ (List.mem_append_left _ (hframe hp))

theorem freeUserPages_perm (hx : Built x) (hmark : ∀ i j, i < userTables → j < 1024 →
      (x.entry i j).present = true → (x.entry i j).unused1 = false) (n : Nat)
    (hn : n ≤ userTables * 1024) :
    ((x.freeUserPages n).freed ++ (x.freeUserPages n).pool).Perm (x.freed ++ x.pool) := by
  induction n with
  | zero => exact .refl _
  | succ n ih =>
    have hswept := hx.freeUserPages n (by omega)
    rw [freeUserPages_succ]
    refine ((hswept.built.walked (by omega)).perm ?_).trans (ih (by omega))
    have hi : n / 1024 < userTables := by omega
    have hj : n % 1024 < 1024 := Nat.mod_lt _ (by decide)
    rw [hswept.entry _ _ hi hj, if_neg (by omega)]
    exact hmark _ _ hi hj

theorem Built.pool_left (hx : Built x) :
    (x.freeUserPages (userTables * 1024)).pool = [x.pd] := by
  obtain ⟨hbuilt, hpd, -, hgone⟩ := hx.freeUserPages _ (Nat.le_refl _)
  refine hbuilt.own.alone (s := .dir) (by rw [holds, hpd]) fun s hs => ?_
  have habsent {i : Nat} (hi : i < userTables) := hgone i (by omega)
  cases s with
  | dir => exact absurd rfl hs
  | table i =>
    rw [holds, if_neg]
    rintro ⟨hi, ht⟩
    exact absurd ht (by simp [habsent hi])
  | page i j =>
    rw [holds]
    split
    · rename_i hslot
      rw [entry_absent (habsent hslot.1)]
      rfl
    · rfl

theorem destroyed_eq (x : Mm) : x.destroyed =
    x.pd :: (({ x with freed := [] } : Mm).freeUserPages (userTables * 1024)).freed := rfl

theorem Built.unfreed (hx : Built x) : Built ({ x with freed := [] } : Mm) :=
  ⟨⟨hx.shape.dir, hx.shape.pages, hx.shape.marked⟩, hx.own, hx.mine⟩

theorem Built.exact_iff (hx : Built x) : x.Exact ↔ ∀ vaddr, ¬ x.Shared vaddr := by
  have hbuilt := hx.unfreed
  constructor
  · intro hexact vaddr hshared
    refine hexact.2 vaddr hshared ?_
    rw [destroyed_eq]
    refine List.mem_cons_of_mem _ ?_
    exact hbuilt.frame_freed (va2pd_lt hshared.1) (va2pt_lt vaddr) hshared.2.1
  · intro hnone
    refine ⟨?_, fun vaddr hshared => absurd hshared (hnone vaddr)⟩
    have hmark : ∀ i j, i < userTables → j < 1024 → (x.entry i j).present = true →
        (x.entry i j).unused1 = false := by
      intro i j hi hj hp
      have hi' : va2pd ((i * 1024 + j) * 0x1000) = i := by
        rw [va2pd_page]
        omega
      have hj' : va2pt ((i * 1024 + j) * 0x1000) = j := by
        rw [va2pt_page]
        omega
      have hv : (i * 1024 + j) * 0x1000 < pageOffset := by
        rw [userTables] at hi
        rw [pageOffset]
        omega
      have hshared := hnone ((i * 1024 + j) * 0x1000)
      rw [Shared, hi', hj'] at hshared
      simpa using fun h => hshared ⟨hv, hp, h⟩
    have hperm := freeUserPages_perm hbuilt hmark _ (Nat.le_refl _)
    rw [hbuilt.pool_left] at hperm
    rw [destroyed_eq]
    exact (List.perm_append_singleton _ _).symm.trans hperm

theorem built_run {start first : Mm} {kernel : Nat → Entry} {tr : List (Mm × MmCall)}
    (hpool : start.pool = []) (hcreate : start.createPageDirectory kernel = some first)
    (hr : Run Mm.step first tr x) (hp : ∀ e ∈ tr, e.1.Proper e.2) : Built x :=
  hr.invariant (createPageDirectory_built hpool hcreate) (fun _ _ _ hx ha h => hx.step ha h) hp

/-- What `destroy_page_directory` frees of a directory that has been built page by page. -/
theorem destroy_exact {start first : Mm} {kernel : Nat → Entry} {tr : List (Mm × MmCall)}
    {x : Mm} (hpool : start.pool = [])
    (hcreate : start.createPageDirectory kernel = some first)
    (hr : Run Mm.step first tr x) (hp : ∀ e ∈ tr, e.1.Proper e.2) :
    x.Exact ↔ ∀ vaddr, ¬ x.Shared vaddr :=
  (built_run hpool hcreate hr hp).exact_iff

/-- A page allocator that fails once, and a device's frame 50. -/
def exampleMm : Mm where
  mem := fun _ _ => {}
  pd := 0
  pool := []
  freed := []
  answers := [some 10, some 11, some 12, some 13, none, some 13]
  foreign := fun f => f = 50

/-- Two pages of the domain's, and devices' pages that are mapped and unmapped again. -/
def exampleCalls : List MmCall :=
  .allocateUserPage 0x2000000 :: rtFifoXmMap 50 [50, 50] defaultFifoAddr ++
    xmShmMap 0x2001000 0x1000 (fun _ => 50) ++ xmShmUnmap 0x2001000 0x1000 ++ rtFifoXmUnmap ++
    [.allocateUserPage 0x2001000, .allocateUserPage 0x2001000]

theorem destroy_exact_run : ∃ first tr x, exampleMm.createPageDirectory (fun _ => {}) = some first ∧
    Run Mm.step first tr x ∧ tr.length = 27 ∧ x.pool = [13, 12, 11, 10] ∧
    (x.Exact ↔ ∀ vaddr, ¬ x.Shared vaddr) := by
  obtain ⟨first, hcreate⟩ := Option.isSome_iff_exists.mp
    (by decide : (exampleMm.createPageDirectory fun _ => {}).isSome = true)
  have hrun : ((exampleMm.createPageDirectory fun _ => {}).bind fun first =>
      exec Mm.step first exampleCalls).any fun r =>
        decide ((∀ e ∈ r.1, e.1.Proper e.2) ∧ r.1.length = 27 ∧ r.2.pool = [13, 12, 11, 10]) := by
    decide +kernel
  rw [hcreate] at hrun
  obtain ⟨tr, x, hr, hx⟩ := exec_any hrun
  simp only [decide_eq_true_eq] at hx
  obtain ⟨hp, hlen, hpool⟩ := hx
  exact ⟨first, tr, x, hcreate, hr, hlen, hpool, destroy_exact rfl hcreate hr hp⟩

/-- A device's page is still mapped: its frame is freed. -/
theorem destroy_frees_shared : ∃ first tr x,
    exampleMm.createPageDirectory (fun _ => {}) = some first ∧
    Run Mm.step first tr x ∧ (∀ e ∈ tr, e.1.Proper e.2) ∧ x.pool = [11, 10] ∧
    x.foreign 50 = true ∧ 50 ∈ x.destroyed ∧ ¬ x.Exact := by
  obtain ⟨first, hcreate⟩ := Option.isSome_iff_exists.mp
    (by decide : (exampleMm.createPageDirectory fun _ => {}).isSome = true)
  have hrun : ((exampleMm.createPageDirectory fun _ => {}).bind fun first =>
      exec Mm.step first (xmShmMap 0x1000000 1 fun _ => 50)).any fun r =>
        decide ((∀ e ∈ r.1, e.1.Proper e.2) ∧ r.2.pool = [11, 10] ∧ r.2.foreign 50 = true ∧
          (r.2.entry (va2pd 0x1000000) (va2pt 0x1000000)).present = true ∧
          (r.2.entry (va2pd 0x1000000) (va2pt 0x1000000)).unused1 = true ∧
          (r.2.entry (va2pd 0x1000000) (va2pt 0x1000000)).frame = 50) := by
    decide +kernel
  rw [hcreate] at hrun
  obtain ⟨tr, x, hr, hx⟩ := exec_any hrun
  simp only [decide_eq_true_eq] at hx
  obtain ⟨hp, hpool, hforeign, hpresent, hmark, hframe⟩ := hx
  have hbuilt := built_run rfl hcreate hr hp
  have hshared : x.Shared 0x1000000 := ⟨by decide, hpresent, hmark⟩
  refine ⟨first, tr, x, hcreate, hr, hp, hpool, hforeign, ?_, fun hexact =>
    hbuilt.exact_iff.mp hexact _ hshared⟩
  rw [destroyed_eq, ← hframe]
  exact List.mem_cons_of_mem _
    (hbuilt.unfreed.frame_freed (va2pd_lt hshared.1) (va2pt_lt _) hpresent)

end Mm

end Xmertl.Xtratum
