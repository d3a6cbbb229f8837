import Xmertl.Xtratum.ShmRegions

/-!
# The users of shared memory devices

The count of users against the opens and removals that have succeeded, where no device
is opened by `xm_shm_open`, which counts its caller twice, and only users remove.
-/

namespace Xmertl.Xtratum

open Runs

section
variable {D : Type} [DecidableEq D]

namespace Shm

/-- A removal takes one of its caller's opens back, and an open by name fails. -/
def Counted (x : Shm D) : ShmCall D → Prop
  | .open _ name _ => xmShmNameCheck name = true ∨ x.findName name = none ∧ x.findFree = none
  | .unlink current index => index ≥ xmShmCount ∨ current ∈ x.holders index
  | .ioctl current minor .remove => minor ≥ xmShmCount ∨ current ∈ x.holders minor
  | .ioctl .. => True

instance (x : Shm D) : DecidablePred x.Counted
  | .open _ name _ =>
    inferInstanceAs (Decidable (xmShmNameCheck name = true ∨ _ ∧ x.findFree = none))
  | .unlink _ index => inferInstanceAs (Decidable (index ≥ xmShmCount ∨ _ ∈ x.holders index))
  | .ioctl _ minor .remove =>
    inferInstanceAs (Decidable (minor ≥ xmShmCount ∨ _ ∈ x.holders minor))
  | .ioctl _ _ (.create ..) => .isTrue trivial
  | .ioctl _ _ (.exist _) => .isTrue trivial
  | .ioctl _ _ (.truncate _) => .isTrue trivial
  | .ioctl _ _ (.map _) => .isTrue trivial
  | .ioctl _ _ (.unmap _) => .isTrue trivial
  | .ioctl _ _ .size => .isTrue trivial
  | .ioctl _ _ .vaddr => .isTrue trivial

/-- The count is of the opens not yet taken back, and the owner has one of them. -/
structure Users (x : Shm D) : Prop where
  length : ∀ i, (x.xshmList i).users = (x.holders i).length
  count : ∀ i, (x.xshmList i).users = x.opens i - x.unlinks i
  owner : ∀ i d, (x.xshmList i).owner = some d → d ∈ x.holders i
  free : ∀ i, (x.xshmList i).owner = none → x.holders i = [] ∧ (x.xshmList i).name = []

-- ---------------------------------------------------------------------------
-- What a call does to the users
-- ---------------------------------------------------------------------------

structure Keeps (x y : Shm D) : Prop where
  users : ∀ i, (y.xshmList i).users = (x.xshmList i).users
  owner : ∀ i, (y.xshmList i).owner = (x.xshmList i).owner
  name : ∀ i, (y.xshmList i).name = (x.xshmList i).name
  holders : y.holders = x.holders
  opens : y.opens = x.opens
  unlinks : y.unlinks = x.unlinks
  freed : y.freed = x.freed

structure Joins (x y : Shm D) (index : Int) (current : D) : Prop where
  others : ∀ i, i ≠ index → y.xshmList i = x.xshmList i
  users : (y.xshmList index).users = (x.xshmList index).users + 1
  live : y.Live index
  owner : ∀ d, (y.xshmList index).owner = some d → d = current ∨ (x.xshmList index).owner = some d
  holders : y.holders = Function.update x.holders index (current :: x.holders index)
  opens : y.opens = Function.update x.opens index (x.opens index + 1)
  unlinks : y.unlinks = x.unlinks
  freed : y.freed = x.freed

/-- The owner leaves last, and only the owner's leaving gives the memory back. -/
structure Leaves (x y : Shm D) (index : Int) (current : D) : Prop where
  others : ∀ i, i ≠ index → y.xshmList i = x.xshmList i
  users : (y.xshmList index).users = (x.xshmList index).users - 1
  holders : y.holders = Function.update x.holders index ((x.holders index).erase current)
  opens : y.opens = x.opens
  unlinks : y.unlinks = Function.update x.unlinks index (x.unlinks index + 1)
  member : current ∈ x.holders index
  last : ((x.xshmList index).owner ≠ some current ∧
      (y.xshmList index).owner = (x.xshmList index).owner ∧ y.freed = x.freed) ∨
    ((x.xshmList index).owner = some current ∧ (x.xshmList index).users = 1 ∧
      (y.xshmList index).owner = none ∧ (y.xshmList index).name = [] ∧ y.freed ≠ x.freed)

variable {x y : Shm D} {current : D} {name : List UInt8} {answer : Option Block} {index r : Int}

omit [DecidableEq D] in
theorem Keeps.refl (x : Shm D) : Keeps x x :=
  ⟨fun _ => rfl, fun _ => rfl, fun _ => rfl, rfl, rfl, rfl, rfl⟩

omit [DecidableEq D] in
theorem mallocEx_keeps {z : Shm D} (h : x.mallocEx index answer = some (z, r)) :
    z.xshmList = x.xshmList ∧ z.holders = x.holders ∧ z.opens = x.opens ∧
      z.unlinks = x.unlinks ∧ z.freed = x.freed := by
  rcases mallocEx_cases h with ⟨-, rfl, -⟩ | ⟨b, -, -, -, rfl⟩
  · exact ⟨rfl, rfl, rfl, rfl, rfl⟩
  · exact ⟨rfl, rfl, rfl, rfl, rfl⟩

omit [DecidableEq D] in
theorem Users.create (hx : Users x) (h : x.xmShmCreate current name answer = some (y, r)) :
    Keeps x y ∨ ∃ index, Joins x y index current := by
  rcases xmShmCreate_cases h with ⟨rfl, -⟩ | ⟨index, hcheck, hfind, rfl, -⟩ |
    ⟨index, z, ptr, -, hfree, hmalloc, -, rfl, -⟩ | ⟨index, z, ptr, -, hfree, hmalloc, -, rfl, -⟩
  · exact .inl (.refl y)
  · refine .inr ⟨index, ⟨fun i hi => set_other hi _, ?_, ?_, ?_, rfl, rfl, rfl, rfl⟩⟩
    · simp [addUser]
    · -- a device with a name is owned
      intro howner
      have howner : (x.xshmList index).owner = none := by simpa [addUser] using howner
      have hname := (findName_spec hfind).2
      rw [(hx.free index howner).2] at hname
      simp [xmShmNameCheck, ← hname] at hcheck
    · intro d hd
      exact .inr (by simpa [addUser] using hd)
  · obtain ⟨hlist, hholders, hopens, hunlinks, hfreed⟩ := mallocEx_keeps hmalloc
    have howner := (findFree_spec hfree).2
    refine .inl ⟨?_, ?_, ?_, hholders, hopens, hunlinks, hfreed⟩
    · intro i
      by_cases hi : i = index
      · simp [hi, Shm.failed, hlist]
      · simp [Shm.failed, set_other hi, hlist]
    · intro i
      by_cases hi : i = index
      · simp [hi, Shm.failed, howner]
      · simp [Shm.failed, set_other hi, hlist]
    · intro i
      by_cases hi : i = index
      · simp [hi, Shm.failed, hlist]
      · simp [Shm.failed, set_other hi, hlist]
  · obtain ⟨hlist, hholders, hopens, hunlinks, hfreed⟩ := mallocEx_keeps hmalloc
    refine .inr ⟨index, ⟨?_, ?_, ?_, ?_, ?_, ?_, hunlinks, hfreed⟩⟩
    · intro i hi
      simp [addUser, set_other hi, made, hlist]
    · simp [addUser, made, hlist]
    · simp [Live, addUser, made]
    · intro d hd
      exact .inl (by simpa [addUser, made] using hd.symm)
    · simp [addUser, made, set, hholders]
    · simp [addUser, made, set, hopens]

theorem Users.unlink (hx : Users x) (h : x.xmShmUnlink current index = some (y, r))
    (hmem : index ≥ xmShmCount ∨ current ∈ x.holders index) :
    Keeps x y ∨ ∃ index, Leaves x y index current := by
  rcases xmShmUnlink_cases h with ⟨rfl, -⟩ | ⟨-, hlt, -, hcase⟩
  · exact .inl (.refl y)
  have hmem : current ∈ x.holders index := hmem.resolve_left (by omega)
  rcases hcase with ⟨howner, rfl⟩ | ⟨howner, husers, rfl⟩
  · refine .inr ⟨index, ⟨fun i hi => set_other hi _, ?_, rfl, rfl, rfl, hmem,
      .inl ⟨howner, ?_, rfl⟩⟩⟩
    · simp [dropUser]
    · simp [dropUser]
  · refine .inr ⟨index, ⟨fun i hi => xmShmRelease_other hi, ?_, ?_, ?_, ?_, hmem,
      .inr ⟨howner, husers, ?_, ?_, ?_⟩⟩⟩
    · rw [xmShmRelease_same]
    · simp [xmShmRelease, dropUser, freeEx, set]
    · simp [xmShmRelease, dropUser, freeEx, set]
    · simp [xmShmRelease, dropUser, freeEx, set]
    · rw [xmShmRelease_same]
    · rw [xmShmRelease_same]
    · rw [xmShmRelease_freed]
      exact List.cons_ne_self _ _

omit [DecidableEq D] in
theorem xmShmOpen_fails
    (hname : xmShmNameCheck name = true ∨ x.findName name = none ∧ x.findFree = none)
    (h : x.xmShmOpen current name answer = some (y, r)) : y = x := by
  rcases xmShmOpen_cases h with rfl | ⟨index, z, hcreate, hz⟩
  · rfl
  rcases xmShmCreate_cases hcreate with ⟨rfl, ⟨-, rfl⟩ | ⟨rfl, -⟩⟩ | ⟨_, hcheck, hfind, -⟩ |
    ⟨_, _, _, hall, -⟩ | ⟨_, _, _, hall, -⟩
  · rcases hz with ⟨-, rfl⟩ | ⟨-, hpos, -⟩
    · rfl
    · exact absurd hpos (by decide)
  · rcases hz with ⟨-, rfl⟩ | ⟨hne, -⟩
    · rfl
    · exact absurd rfl hne
  · simp [hcheck, hfind] at hname
  · simp [hall.1, hall.2.2] at hname
  · simp [hall.1, hall.2.2] at hname

theorem Users.cases (hx : Users x) {a : ShmCall D} (ha : x.Counted a) (h : x.step a = some y) :
    Keeps x y ∨ (∃ index current, Joins x y index current) ∨
      ∃ index current, Leaves x y index current := by
  obtain ⟨⟨z, r⟩, hcall, rfl⟩ := Option.map_eq_some_iff.mp h
  cases a with
  | «open» current name answer =>
    rw [show z = x from xmShmOpen_fails ha hcall]
    exact .inl (.refl x)
  | unlink current index =>
    rcases hx.unlink hcall ha with hkeep | ⟨index, hleave⟩
    · exact .inl hkeep
    · exact .inr (.inr ⟨index, current, hleave⟩)
  | ioctl current minor cmd =>
    rcases xmShmIoctl_cases hcall with rfl | ⟨name, answer, rfl, rfl, hcreate⟩ |
      ⟨hlt, rfl, hunlink⟩ | ⟨size, -, rfl, hsize, rfl⟩
    · exact .inl (.refl z)
    · rcases hx.create hcreate with hkeep | ⟨index, hjoin⟩
      · exact .inl hkeep
      · exact .inr (.inl ⟨index, current, hjoin⟩)
    · have hmem : (minor : Int) ≥ xmShmCount ∨ current ∈ x.holders minor := by
        rcases ha with ha | ha
        · exact .inl (Int.ofNat_le.mpr ha)
        · exact .inr ha
      rcases hx.unlink hunlink hmem with hkeep | ⟨index, hleave⟩
      · exact .inl hkeep
      · exact .inr (.inr ⟨index, current, hleave⟩)
    · refine .inl ⟨?_, ?_, ?_, rfl, rfl, rfl, rfl⟩
      · intro i
        by_cases hi : i = minor
        · simp [hi]
        · rw [set_other hi]
      · intro i
        by_cases hi : i = minor
        · simp [hi]
        · rw [set_other hi]
      · intro i
        by_cases hi : i = minor
        · simp [hi]
        · rw [set_other hi]

-- ---------------------------------------------------------------------------
-- The count in every state
-- ---------------------------------------------------------------------------

omit [DecidableEq D] in
theorem Users.kept (hx : Users x) (h : Keeps x y) : Users y where
  length i := by
    rw [h.users, h.holders]
    exact hx.length i
  count i := by
    rw [h.users, h.opens, h.unlinks]
    exact hx.count i
  owner i d hd := by
    rw [h.owner] at hd
    rw [h.holders]
    exact hx.owner i d hd
  free i hi := by
    rw [h.owner] at hi
    rw [h.holders, h.name]
    exact hx.free i hi

omit [DecidableEq D] in
theorem Users.joined (hx : Users x) (h : Joins x y index current) : Users y where
  length i := by
    have hlength := hx.length i
    rw [h.holders]
    by_cases hi : i = index
    · subst hi
      rw [h.users, Function.update_self, List.length_cons, hlength]
      rfl
    · rw [h.others i hi, Function.update_of_ne hi]
      exact hlength
  count i := by
    have hcount := hx.count i
    rw [h.opens, h.unlinks]
    by_cases hi : i = index
    · subst hi
      rw [h.users, Function.update_self]
      omega
    · rw [h.others i hi, Function.update_of_ne hi]
      exact hcount
  owner i d hd := by
    rw [h.holders]
    by_cases hi : i = index
    · subst hi
      rw [Function.update_self]
      rcases h.owner d hd with rfl | hd
      · exact List.mem_cons_self
      · exact List.mem_cons_of_mem _ (hx.owner i d hd)
    · rw [h.others i hi] at hd
      rw [Function.update_of_ne hi]
      exact hx.owner i d hd
  free i hi := by
    have hne : i ≠ index := fun heq => h.live (heq ▸ hi)
    rw [h.others i hne] at hi ⊢
    rw [h.holders, Function.update_of_ne hne]
    exact hx.free i hi

theorem Users.left (hx : Users x) (h : Leaves x y index current) : Users y where
  length i := by
    have hlength := hx.length i
    rw [h.holders]
    by_cases hi : i = index
    · subst hi
      have herase := List.length_erase_add_one h.member
      rw [h.users, Function.update_self]
      omega
    · rw [h.others i hi, Function.update_of_ne hi]
      exact hlength
  count i := by
    have hcount := hx.count i
    rw [h.opens, h.unlinks]
    by_cases hi : i = index
    · subst hi
      rw [h.users, Function.update_self]
      omega
    · rw [h.others i hi, Function.update_of_ne hi]
      exact hcount
  owner i d hd := by
    rw [h.holders]
    by_cases hi : i = index
    · subst hi
      rw [Function.update_self]
      rcases h.last with ⟨hne, howner, -⟩ | ⟨-, -, howner, -⟩
      · rw [howner] at hd
        have hd' : d ≠ current := fun heq => hne (heq ▸ hd)
        exact (List.mem_erase_of_ne hd').mpr (hx.owner i d hd)
      · rw [howner] at hd
        exact absurd hd (by simp)
    · rw [h.others i hi] at hd
      rw [Function.update_of_ne hi]
      exact hx.owner i d hd
  free i hi := by
    rw [h.holders]
    by_cases hne : i = index
    · subst hne
      rw [Function.update_self]
      rcases h.last with ⟨-, howner, -⟩ | ⟨-, husers, -, hname, -⟩
      · rw [howner] at hi
        exact absurd h.member (by simp [(hx.free i hi).1])
      · -- the owner is the only one left
        have hlength := hx.length i
        have herase := List.length_erase_add_one h.member
        exact ⟨List.length_eq_zero_iff.mp (by omega), hname⟩
    · rw [h.others i hne] at hi ⊢
      rw [Function.update_of_ne hne]
      exact hx.free i hi

theorem Users.step (hx : Users x) {a : ShmCall D} (ha : x.Counted a) (h : x.step a = some y) :
    Users y := by
  rcases hx.cases ha h with hkeep | ⟨index, current, hjoin⟩ | ⟨index, current, hleave⟩
  · exact hx.kept hkeep
  · exact hx.joined hjoin
  · exact hx.left hleave

omit [DecidableEq D] in
theorem Users.live_iff (hx : Users x) (i : Int) : x.Live i ↔ x.holders i ≠ [] := by
  refine ⟨fun hlive => ?_, fun hne howner => hne (hx.free i howner).1⟩
  obtain ⟨d, hd⟩ := Option.ne_none_iff_exists'.mp hlive
  exact List.ne_nil_of_mem (hx.owner i d hd)

theorem Users.released (hx : Users x) {a : ShmCall D} (ha : x.Counted a)
    (h : x.step a = some y) :
    y.freed ≠ x.freed ↔ ∃ i, x.holders i ≠ [] ∧ y.holders i = [] := by
  rcases hx.cases ha h with hkeep | ⟨index, current, hjoin⟩ | ⟨index, current, hleave⟩
  · refine iff_of_false (fun hne => hne hkeep.freed) ?_
    rintro ⟨i, hi, hi'⟩
    exact hi (hkeep.holders ▸ hi')
  · refine iff_of_false (fun hne => hne hjoin.freed) ?_
    rintro ⟨i, hi, hi'⟩
    rw [hjoin.holders] at hi'
    by_cases heq : i = index
    · rw [heq, Function.update_self] at hi'
      exact absurd hi' (by simp)
    · rw [Function.update_of_ne heq] at hi'
      exact hi hi'
  · have hy := hx.left hleave
    have hmem : x.holders index ≠ [] := List.ne_nil_of_mem hleave.member
    have hother {i : Int} (heq : i ≠ index) : y.holders i = x.holders i := by
      rw [hleave.holders, Function.update_of_ne heq]
    rcases hleave.last with ⟨-, howner, hfreed⟩ | ⟨-, -, howner, -, hfreed⟩
    · refine iff_of_false (fun hne => hne hfreed) ?_
      rintro ⟨i, hi, hi'⟩
      by_cases heq : i = index
      · subst heq
        have hlive : y.Live i := by
          rw [Live, howner]
          exact (hx.live_iff i).mpr hmem
        exact (hy.live_iff i).mp hlive hi'
      · exact hi (hother heq ▸ hi')
    · exact iff_of_true hfreed ⟨index, hmem, (hy.free index howner).1⟩

omit [DecidableEq D] in
theorem init_users : Users (init : Shm D) where
  length _ := rfl
  count _ := rfl
  owner _ _ h := absurd h (by simp [init])
  free _ _ := ⟨rfl, rfl⟩

/-- The count is of the opens less the removals, and a device is there as long as it has
a user: the memory goes back in the call that takes the last one. -/
theorem shm_users {tr : List (Shm D × ShmCall D)} {x : Shm D}
    (hr : Run Shm.step Shm.init tr x) (hc : ∀ e ∈ tr, e.1.Counted e.2) :
    (∀ y, Visited tr x y → ∀ i, (y.xshmList i).users = y.opens i - y.unlinks i ∧
      0 ≤ (y.xshmList i).users ∧ (y.Live i ↔ 0 < (y.xshmList i).users) ∧
      (y.Live i ↔ y.holders i ≠ [])) ∧
    ∀ e ∈ tr, ∀ y, e.1.step e.2 = some y →
      (y.freed ≠ e.1.freed ↔ ∃ i, e.1.holders i ≠ [] ∧ y.holders i = []) := by
  have hinv {y : Shm D} (hv : Visited tr x y) : Users y :=
    hr.invariant_visited init_users (fun _ _ _ hx ha h => hx.step ha h) hc hv
  refine ⟨fun y hv i => ?_, fun e he y hy => (hinv (.pre he)).released (hc e he) hy⟩
  have hy := hinv hv
  have hlength := hy.length i
  refine ⟨hy.count i, by omega, ?_, hy.live_iff i⟩
  rw [hy.live_iff i, ne_eq, ← List.length_eq_zero_iff]
  omega

/-- A device that two have created, until both have removed it. -/
def shmUserCalls : List (ShmCall Nat) :=
  [.ioctl 1 xmShmCount (.create [97] (some ⟨4096, 32768⟩)),
   .ioctl 2 xmShmCount (.create [97] none),
   .unlink 1 0, .ioctl 2 0 .remove, .unlink 1 0]

theorem shm_users_run : ∃ tr x, Run Shm.step (Shm.init : Shm Nat) tr x ∧
    tr.length = 5 ∧ x.opens 0 = 2 ∧ x.unlinks 0 = 2 ∧ x.freed = [(4096, 4096)] ∧
    (∀ y, Visited tr x y → ∀ i, (y.xshmList i).users = y.opens i - y.unlinks i ∧
      0 ≤ (y.xshmList i).users ∧ (y.Live i ↔ 0 < (y.xshmList i).users) ∧
      (y.Live i ↔ y.holders i ≠ [])) ∧
    ∀ e ∈ tr, ∀ y, e.1.step e.2 = some y →
      (y.freed ≠ e.1.freed ↔ ∃ i, e.1.holders i ≠ [] ∧ y.holders i = []) := by
  have hrun : (exec Shm.step (Shm.init : Shm Nat) shmUserCalls).any fun r =>
      decide ((∀ e ∈ r.1, e.1.Counted e.2) ∧ r.1.length = 5 ∧ r.2.opens 0 = 2 ∧
        r.2.unlinks 0 = 2 ∧ r.2.freed = [(4096, 4096)]) := by
    decide +kernel
  obtain ⟨tr, x, hr, hx⟩ := exec_any hrun
  simp only [decide_eq_true_eq] at hx
  obtain ⟨hc, hlen, hopens, hunlinks, hfreed⟩ := hx
  exact ⟨tr, x, hr, hlen, hopens, hunlinks, hfreed, shm_users hr hc⟩

/-- One call of `xm_shm_open` counts two users, and the owner's removal is refused; one that
is no user takes the owner's count away. -/
theorem shm_users_wrong :
    (∃ tr x, Run Shm.step (Shm.init : Shm Nat) tr x ∧ tr.length = 2 ∧
      (x.xshmList 0).users = 2 ∧ x.opens 0 = 1 ∧ x.unlinks 0 = 0 ∧ x.Live 0) ∧
    ∃ tr x, Run Shm.step (Shm.init : Shm Nat) tr x ∧ tr.length = 3 ∧
      (x.xshmList 0).users = -1 ∧ x.Live 0 := by
  constructor
  · have hrun : (exec Shm.step (Shm.init : Shm Nat)
        [.open 1 [97] (some ⟨4096, 32768⟩), .unlink 1 0]).any fun r =>
        decide (r.1.length = 2 ∧ (r.2.xshmList 0).users = 2 ∧ r.2.opens 0 = 1 ∧
          r.2.unlinks 0 = 0 ∧ (r.2.xshmList 0).owner ≠ none) := by
      decide +kernel
    obtain ⟨tr, x, hr, hx⟩ := exec_any hrun
    simp only [decide_eq_true_eq] at hx
    exact ⟨tr, x, hr, hx⟩
  · have hrun : (exec Shm.step (Shm.init : Shm Nat)
        [.ioctl 1 xmShmCount (.create [97] (some ⟨4096, 32768⟩)), .unlink 2 0,
         .unlink 2 0]).any fun r =>
        decide (r.1.length = 3 ∧ (r.2.xshmList 0).users = -1 ∧ (r.2.xshmList 0).owner ≠ none) := by
      decide +kernel
    obtain ⟨tr, x, hr, hx⟩ := exec_any hrun
    simp only [decide_eq_true_eq] at hx
    exact ⟨tr, x, hr, hx⟩

end Shm

end

end Xmertl.Xtratum
