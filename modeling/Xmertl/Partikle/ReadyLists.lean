import Xmertl.Lib.Bitmap
import Xmertl.Lib.IntrusiveList
import Xmertl.Lib.Runs
import Xmertl.Partikle.Sched

/-!
# The structure of the ready threads

`sched_struct.h` with its pointers and its two levels of bitmaps. `Sched` has each of the
1024 lists as a list of threads; here they are linked through the threads, and every run of
the three operations keeps the two in step.
-/

namespace Xmertl.Partikle

open IntrusiveList (Lists Models setNext setPrev)
open Runs

/-- `active_threads_t`, with what it keeps in each thread: the links, in `matrix`, and
`ss_i` and `ss_j`, `none` for -1. -/
structure ActiveThreads (T : Type) where
  matrix : Lists (Fin 32 × Fin 32) T
  flbitmap : BitVec 32
  slbitmap : Fin 32 → BitVec 32
  ss : T → Option (Fin 32 × Fin 32)

namespace ActiveThreads

def prio2ij (prio : Int) : Fin 32 × Fin 32 :=
  (⟨(prio % 1024 / 32).toNat, by omega⟩, ⟨(prio % 32).toNat, by omega⟩)

def ij2prio (ij : Fin 32 × Fin 32) : Nat := 32 * ij.1 + ij.2

variable {T : Type}

/-- After `init_ss`; threads are zeroed when they are created. -/
def initSs : ActiveThreads T where
  matrix := ⟨fun _ => none, fun _ => .free⟩
  flbitmap := 0
  slbitmap _ := 0
  ss _ := some (⟨0, by decide⟩, ⟨0, by decide⟩)

/-- The bits of list `ij` are set, and `t` notes it as its own. -/
def enter [DecidableEq T] (x : ActiveThreads T) (t : T) (ij : Fin 32 × Fin 32) :
    ActiveThreads T :=
  { x with
    flbitmap := x.flbitmap.setBit ij.1
    slbitmap := Function.update x.slbitmap ij.1 ((x.slbitmap ij.1).setBit ij.2)
    ss := Function.update x.ss t (some ij) }

def clearEmpty (x : ActiveThreads T) (ij : Fin 32 × Fin 32) : ActiveThreads T :=
  if x.matrix.head ij = none then
    let slbitmap := Function.update x.slbitmap ij.1 ((x.slbitmap ij.1).clearBit ij.2)
    { x with
      slbitmap
      flbitmap := if slbitmap ij.1 = 0 then x.flbitmap.clearBit ij.1 else x.flbitmap }
  else x

/-- The thread at the head of the first list, and its priority. There is no result where
a bit of the first level is set and none of the second. -/
def getHeadSs (x : ActiveThreads T) : Option (Option T × Int) :=
  if x.flbitmap = 0 then some (none, -1)
  else do
    let i ← x.flbitmap.first
    let j ← (x.slbitmap i).first
    some (x.matrix.head (i, j), ij2prio (i, j))

variable [DecidableEq T]

def insertSs (x : ActiveThreads T) (t : T) (priority : Int) : ActiveThreads T :=
  let ij := prio2ij priority
  let cleared := { x.matrix with node := Function.update x.matrix.node t .free }
  { x with matrix := cleared.pushFront ij t }.enter t ij

/-- The walk to the tail of a list that runs in a circle has no end. -/
def insertSsTail [Fintype T] (x : ActiveThreads T) (t : T) (priority : Int) :
    Option (ActiveThreads T) :=
  let ij := prio2ij priority
  (x.matrix.pushBack ij t).map fun matrix => { x with matrix }.enter t ij

def removeSs (x : ActiveThreads T) (t : T) : ActiveThreads T :=
  match x.ss t with
  | none => x
  | some ij =>
    let node := setNext x.matrix.node (x.matrix.node t).prev (x.matrix.node t).next
    let node := setPrev node (node t).next (node t).prev
    let head :=
      if x.matrix.head ij = some t then Function.update x.matrix.head ij (node t).next
      else x.matrix.head
    let x := { x with matrix := ⟨head, Function.update node t .free⟩ }.clearEmpty ij
    { x with ss := Function.update x.ss t none }

end ActiveThreads

/-- The pointers, and each priority's list as the calls have made it. -/
structure ReadyLists (T : Type) where
  active : ActiveThreads T
  lists : Nat → List T

inductive SsCall (T : Type)
  | insertSs (t : T) (priority : Int)
  | insertSsTail (t : T) (priority : Int)
  | removeSs (t : T)

namespace ReadyLists

variable {T : Type}

def init : ReadyLists T where
  active := .initSs
  lists _ := []

variable [DecidableEq T] [Fintype T]

def step (x : ReadyLists T) : SsCall T → Option (ReadyLists T)
  | .insertSs t p =>
    some
      { active := x.active.insertSs t p
        lists := Function.update x.lists p.toNat (t :: x.lists p.toNat) }
  | .insertSsTail t p =>
    (x.active.insertSsTail t p).map fun active =>
      { active, lists := Function.update x.lists p.toNat (x.lists p.toNat ++ [t]) }
  | .removeSs t =>
    some { active := x.active.removeSs t, lists := fun n => (x.lists n).erase t }

end ReadyLists

def SsCall.Allowed (x : ReadyLists T) : SsCall T → Prop
  | .insertSs t p => 0 ≤ p ∧ p < 1024 ∧ ∀ n < 1024, t ∉ x.lists n
  | .insertSsTail t p => 0 ≤ p ∧ p < 1024 ∧ ∀ n < 1024, t ∉ x.lists n
  | .removeSs _ => True

instance [DecidableEq T] (c : SsCall T) (x : ReadyLists T) : Decidable (c.Allowed x) :=
  match c with
  | .insertSs _ _ => inferInstanceAs (Decidable (_ ∧ _ ∧ _))
  | .insertSsTail _ _ => inferInstanceAs (Decidable (_ ∧ _ ∧ _))
  | .removeSs _ => inferInstanceAs (Decidable True)

-- ---------------------------------------------------------------------------
-- The two indices of a priority
-- ---------------------------------------------------------------------------

namespace ActiveThreads

theorem ij2prio_lt (ij : Fin 32 × Fin 32) : ij2prio ij < 1024 := by
  obtain ⟨i, j⟩ := ij
  simp only [ij2prio]
  omega

theorem ij2prio_injective : Function.Injective ij2prio := by
  rintro ⟨i, j⟩ ⟨i', j'⟩ h
  simp only [ij2prio] at h
  have hi : i.val = i'.val := by omega
  have hj : j.val = j'.val := by omega
  rw [Fin.ext hi, Fin.ext hj]

theorem ij2prio_prio2ij {p : Int} (h0 : 0 ≤ p) (h : p < 1024) : ij2prio (prio2ij p) = p.toNat := by
  simp only [ij2prio, prio2ij]
  omega

theorem exists_ij2prio {n : Nat} (h : n < 1024) : ∃ ij, ij2prio ij = n :=
  ⟨prio2ij n, by rw [ij2prio_prio2ij (Int.natCast_nonneg n) (by omega), Int.toNat_natCast]⟩

-- ---------------------------------------------------------------------------
-- The pointers and the lists
-- ---------------------------------------------------------------------------

variable {T : Type} {x : ActiveThreads T} {L : Nat → List T} {t : T} {ij : Fin 32 × Fin 32}

/-- The pointers of `x` are those of the lists `L`, and the bits say which are not empty. -/
structure Holds (x : ActiveThreads T) (L : Nat → List T) : Prop where
  models : Models x.matrix fun ij => L (ij2prio ij)
  bound : ∀ n, 1024 ≤ n → L n = []
  second : ∀ ij, (x.slbitmap ij.1).Has ij.2 ↔ L (ij2prio ij) ≠ []
  first : ∀ i, x.flbitmap.Has i ↔ x.slbitmap i ≠ 0
  ss : ∀ t ij, t ∈ L (ij2prio ij) → x.ss t = some ij

theorem holds_init : Holds (initSs : ActiveThreads T) fun _ => [] where
  models := Models.empty
  bound _ _ := rfl
  second ij := by simp [initSs]
  first i := by simp [initSs]
  ss t ij h := by simp at h

theorem clearEmpty_ss (x : ActiveThreads T) (ij : Fin 32 × Fin 32) : (x.clearEmpty ij).ss = x.ss := by
  unfold clearEmpty
  split <;> rfl

theorem Holds.lt (h : Holds x L) {n : Nat} (ht : t ∈ L n) : n < 1024 := by
  by_contra hn
  rw [h.bound n (Nat.le_of_not_lt hn)] at ht
  exact absurd ht List.not_mem_nil

theorem Holds.not_mem (h : Holds x L) (ht : ∀ n < 1024, t ∉ L n) (n : Nat) : t ∉ L n :=
  fun hn => ht n (h.lt hn) hn

theorem Holds.of_ss (h : Holds x L) (hss : x.ss t = some ij) {n : Nat} (ht : t ∈ L n) :
    n = ij2prio ij := by
  obtain ⟨ij', rfl⟩ := exists_ij2prio (h.lt ht)
  rw [h.ss t ij' ht] at hss
  rw [Option.some.inj hss]

theorem update_ij2prio (l : List T) :
    (fun ij' => Function.update L (ij2prio ij) l (ij2prio ij')) =
      Function.update (fun ij' => L (ij2prio ij')) ij l :=
  Function.update_comp_eq_of_injective L ij2prio_injective ij l

theorem Holds.getHeadSs (h : Holds x L) :
    (∃ (t : T) (n : Nat), x.getHeadSs = some (some t, (n : Int)) ∧ (L n).head? = some t ∧ ∀ m < n, L m = []) ∨
    (x.getHeadSs = some (none, -1) ∧ ∀ n, L n = []) := by
  unfold ActiveThreads.getHeadSs
  split
  · rename_i hzero
    refine .inr ⟨rfl, fun n => ?_⟩
    by_contra hn
    obtain ⟨t, ht⟩ := List.exists_mem_of_ne_nil _ hn
    obtain ⟨ij, rfl⟩ := exists_ij2prio (h.lt ht)
    have hsl : x.slbitmap ij.1 ≠ 0 := BitVec.ne_zero_iff.mpr ⟨ij.2, (h.second ij).mpr hn⟩
    have hfl := (h.first ij.1).mpr hsl
    rw [hzero] at hfl
    exact BitVec.has_zero hfl
  · rename_i hsome
    obtain ⟨i, hi⟩ := BitVec.first_isSome hsome
    have hsl : x.slbitmap i ≠ 0 := (h.first i).mp (BitVec.has_of_first hi)
    obtain ⟨j, hj⟩ := BitVec.first_isSome hsl
    have hlist : L (ij2prio (i, j)) ≠ [] := (h.second (i, j)).mp (BitVec.has_of_first hj)
    obtain ⟨t, ht⟩ : ∃ t, (L (ij2prio (i, j))).head? = some t :=
      Option.ne_none_iff_exists'.mp fun hnone => hlist (List.head?_eq_none_iff.mp hnone)
    refine .inl ⟨t, ij2prio (i, j), ?_, ht, fun m hm => ?_⟩
    · simp only [hi, hj, Option.bind_eq_bind, Option.bind_some, h.models.head_eq, ht]
    · by_contra hne
      obtain ⟨⟨i', j'⟩, rfl⟩ := exists_ij2prio (Nat.lt_trans hm (ij2prio_lt (i, j)))
      have hj' : (x.slbitmap i').Has j' := (h.second (i', j')).mpr hne
      have hi' : x.flbitmap.Has i' := (h.first i').mpr (BitVec.ne_zero_iff.mpr ⟨j', hj'⟩)
      have hle : ¬i' < i := fun hlt => BitVec.not_has_of_lt_first hi hlt hi'
      simp only [ij2prio] at hm
      have heq : i' = i := Fin.ext (by omega)
      subst heq
      exact BitVec.not_has_of_lt_first hj (Fin.lt_def.mpr (by omega)) hj'

theorem Holds.getHeadSs_eq (h : Holds x L) :
    x.getHeadSs.map Prod.fst = some (Sched.headFrom L 1024 0) := by
  rcases h.getHeadSs with ⟨t, n, heq, ht, hbefore⟩ | ⟨heq, hempty⟩
  · have hn : n < 0 + 1024 := by
      have := h.lt (List.mem_of_mem_head? ht)
      omega
    rw [heq, Sched.headFrom_first (Nat.zero_le n) hn ht fun m _ hm => hbefore m hm]
    rfl
  · rw [heq]
    cases hh : Sched.headFrom L 1024 0 with
    | none => rfl
    | some t =>
      obtain ⟨n, -, -, ht, -⟩ := Sched.headFrom_some hh
      simp [hempty n] at ht

-- ---------------------------------------------------------------------------
-- The calls
-- ---------------------------------------------------------------------------

variable [DecidableEq T]

theorem Holds.enter (h : Holds x L) {w : Lists (Fin 32 × Fin 32) T} {l : List T}
    (hw : Models w (Function.update (fun ij' => L (ij2prio ij')) ij l)) (hl : l ≠ [])
    (hmem : ∀ u ∈ l, u = t ∨ u ∈ L (ij2prio ij)) (ht : ∀ n, t ∉ L n) :
    Holds ({ x with matrix := w }.enter t ij) (Function.update L (ij2prio ij) l) where
  models := by rw [update_ij2prio]; exact hw
  bound n hn := by
    have hne : n ≠ ij2prio ij := fun he => absurd (ij2prio_lt ij) (by omega)
    rw [Function.update_of_ne hne, h.bound n hn]
  second ij' := by
    have hsecond := h.second ij'
    by_cases hij : ij' = ij
    · subst hij
      simp [ActiveThreads.enter, hl]
    · rw [Function.update_of_ne (ij2prio_injective.ne hij), ← hsecond]
      by_cases hi : ij'.1 = ij.1
      · have hj : ij'.2 ≠ ij.2 := fun hj => hij (Prod.ext hi hj)
        simp [ActiveThreads.enter, hi, hj]
      · simp [ActiveThreads.enter, hi]
  first i := by
    have hfirst := h.first i
    by_cases hi : i = ij.1
    · subst hi
      have hsome : (x.slbitmap ij.1).setBit ij.2 ≠ 0#32 :=
        BitVec.ne_zero_iff.mpr ⟨ij.2, BitVec.has_setBit.mpr (.inr rfl)⟩
      simp [ActiveThreads.enter, hsome]
    · simp [ActiveThreads.enter, hi, hfirst]
  ss u ij' hu := by
    by_cases hij : ij' = ij
    · subst hij
      rw [Function.update_self] at hu
      rcases hmem u hu with rfl | hu
      · simp [ActiveThreads.enter]
      · have hut : u ≠ t := fun he => ht _ (he ▸ hu)
        simp [ActiveThreads.enter, hut, h.ss u ij' hu]
    · rw [Function.update_of_ne (ij2prio_injective.ne hij)] at hu
      have hut : u ≠ t := fun he => ht _ (he ▸ hu)
      simp [ActiveThreads.enter, hut, h.ss u ij' hu]

theorem Holds.insertSs (h : Holds x L) (ht : ∀ n, t ∉ L n) {p : Int} (h0 : 0 ≤ p) (hp : p < 1024) :
    Holds (x.insertSs t p) (Function.update L p.toNat (t :: L p.toNat)) := by
  rw [← ij2prio_prio2ij h0 hp]
  have hclear : Function.update x.matrix.node t .free = x.matrix.node := by
    rw [← h.models.free t fun ij => ht _, Function.update_eq_self]
  simp only [ActiveThreads.insertSs, hclear]
  exact h.enter (h.models.pushFront fun ij => ht _) (List.cons_ne_nil _ _)
    (fun u hu => List.mem_cons.mp hu) ht

theorem Holds.insertSsTail [Fintype T] (h : Holds x L) (ht : ∀ n, t ∉ L n) {p : Int} (h0 : 0 ≤ p)
    (hp : p < 1024) : ∃ y, x.insertSsTail t p = some y ∧
      Holds y (Function.update L p.toNat (L p.toNat ++ [t])) := by
  rw [← ij2prio_prio2ij h0 hp]
  obtain ⟨w, hpush, hw⟩ := h.models.pushBack (i := prio2ij p) fun ij => ht _
  refine ⟨_, by simp only [ActiveThreads.insertSsTail, hpush]; rfl, ?_⟩
  refine h.enter hw (by simp) (fun u hu => ?_) ht
  simpa [or_comm] using hu

theorem Holds.clearEmpty {w : Lists (Fin 32 × Fin 32) T} (h : Holds x L)
    (hss : x.ss t = some ij)
    (hw : Models w (Function.update (fun ij' => L (ij2prio ij')) ij ((L (ij2prio ij)).erase t))) :
    Holds { ({ x with matrix := w }.clearEmpty ij) with ss := Function.update x.ss t none }
      (Function.update L (ij2prio ij) ((L (ij2prio ij)).erase t)) := by
  have hhead : w.head ij = none ↔ (L (ij2prio ij)).erase t = [] := by
    rw [hw.head_eq, Function.update_self, List.head?_eq_none_iff]
  have hbound : ∀ n, 1024 ≤ n → Function.update L (ij2prio ij) ((L (ij2prio ij)).erase t) n = [] := by
    intro n hn
    have hne : n ≠ ij2prio ij := fun he => absurd (ij2prio_lt ij) (by omega)
    rw [Function.update_of_ne hne, h.bound n hn]
  have hss' : ∀ u ij', u ∈ Function.update L (ij2prio ij) ((L (ij2prio ij)).erase t) (ij2prio ij') →
      Function.update x.ss t none u = some ij' := by
    intro u ij' hu
    have hnd : (L (ij2prio ij)).Nodup := h.models.nodup ij
    have hmem : u ≠ t ∧ u ∈ L (ij2prio ij') := by
      by_cases hij : ij' = ij
      · subst hij
        rw [Function.update_self] at hu
        exact hnd.mem_erase_iff.mp hu
      · rw [Function.update_of_ne (ij2prio_injective.ne hij)] at hu
        refine ⟨?_, hu⟩
        rintro rfl
        exact hij (ij2prio_injective (h.of_ss hss hu))
    rw [Function.update_of_ne hmem.1, h.ss u ij' hmem.2]
  unfold ActiveThreads.clearEmpty
  dsimp only
  split
  · rename_i hnone
    refine ⟨by rw [update_ij2prio]; exact hw, hbound, fun ij' => ?_, fun i => ?_, hss'⟩
    · by_cases hij : ij' = ij
      · subst hij
        simp [hhead.mp hnone]
      · rw [Function.update_of_ne (ij2prio_injective.ne hij), ← h.second ij']
        by_cases hi : ij'.1 = ij.1
        · have hj : ij'.2 ≠ ij.2 := fun hj => hij (Prod.ext hi hj)
          simp [hi, hj]
        · simp [hi]
    · by_cases hi : i = ij.1
      · subst hi
        simp only [Function.update_self]
        split
        · rename_i hzero
          simp [hzero]
        · rename_i hsome
          obtain ⟨j, hj⟩ := BitVec.ne_zero_iff.mp hsome
          have hold : x.slbitmap ij.1 ≠ 0 :=
            BitVec.ne_zero_iff.mpr ⟨j, (BitVec.has_clearBit.mp hj).1⟩
          exact ⟨fun _ => hsome, fun _ => (h.first ij.1).mpr hold⟩
      · simp only [Function.update_of_ne hi, ← h.first i]
        split
        · simp [hi]
        · exact Iff.rfl
  · rename_i hsome
    have hne : (L (ij2prio ij)).erase t ≠ [] := fun hnil => hsome (hhead.mpr hnil)
    refine ⟨by rw [update_ij2prio]; exact hw, hbound, fun ij' => ?_, h.first, hss'⟩
    rw [h.second ij']
    by_cases hij : ij' = ij
    · subst hij
      have hold : L (ij2prio ij') ≠ [] := fun hnil => hne (by rw [hnil]; rfl)
      simp [hne, hold]
    · rw [Function.update_of_ne (ij2prio_injective.ne hij)]

theorem Holds.removeSs (h : Holds x L) (t : T) :
    Holds (x.removeSs t) fun n => (L n).erase t := by
  cases hss : x.ss t with
  | none =>
    have hno : (fun n => (L n).erase t) = L := by
      funext n
      refine List.erase_of_not_mem fun ht => ?_
      obtain ⟨ij, rfl⟩ := exists_ij2prio (h.lt ht)
      exact absurd (h.ss t ij ht) (by simp [hss])
    rw [hno]
    simpa [ActiveThreads.removeSs, hss] using h
  | some ij =>
    have hone : (fun n => (L n).erase t) =
        Function.update L (ij2prio ij) ((L (ij2prio ij)).erase t) := by
      funext n
      by_cases hn : n = ij2prio ij
      · subst hn
        simp
      · rw [Function.update_of_ne hn]
        exact List.erase_of_not_mem fun ht => hn (h.of_ss hss ht)
    have hmodels := h.models.unlink_erase (i := ij) (x := t) fun ij' ht =>
      ij2prio_injective (h.of_ss hss ht)
    obtain ⟨hprev, hnext⟩ := h.models.links_ne t
    have hunlink : x.removeSs t =
        { ({ x with matrix := x.matrix.unlink ij t }.clearEmpty ij) with
          ss := Function.update x.ss t none } := by
      have hself := IntrusiveList.setNext_other (n := (x.matrix.node t).next) x.matrix.node hprev
      have hself' := IntrusiveList.setPrev_other (p := (x.matrix.node t).prev) x.matrix.node hnext
      simp only [ActiveThreads.removeSs, hss, Lists.unlink, hself, hself',
        IntrusiveList.setPrev_setNext, clearEmpty_ss]
    rw [hone, hunlink]
    exact h.clearEmpty hss hmodels

end ActiveThreads

-- ---------------------------------------------------------------------------
-- Runs of calls
-- ---------------------------------------------------------------------------

namespace ReadyLists

variable {T : Type} [DecidableEq T] [Fintype T] {x y : ReadyLists T} {c : SsCall T}

theorem holds_step (h : x.active.Holds x.lists) (hc : c.Allowed x) :
    ∃ y, x.step c = some y ∧ y.active.Holds y.lists := by
  cases c with
  | insertSs t p =>
    obtain ⟨h0, hp, ht⟩ := hc
    exact ⟨_, rfl, h.insertSs (h.not_mem ht) h0 hp⟩
  | insertSsTail t p =>
    obtain ⟨h0, hp, ht⟩ := hc
    obtain ⟨active, heq, hactive⟩ := h.insertSsTail (h.not_mem ht) h0 hp
    exact ⟨⟨active, _⟩, by simp only [step, heq]; rfl, hactive⟩
  | removeSs t => exact ⟨_, rfl, h.removeSs t⟩

end ReadyLists

/-- Every run of the calls keeps the pointers those of the lists, each thread on one list
at most; the bits say which lists are not empty, and which of the 32 bitmaps; the head of
the first list is found; and no call gets lost in a circle. -/
theorem ready_structure {T : Type} [DecidableEq T] [Fintype T] {tr : List (ReadyLists T × SsCall T)}
    {x y : ReadyLists T} (hr : Run ReadyLists.step .init tr x)
    (hc : ∀ e ∈ tr, e.2.Allowed e.1) (hy : Visited tr x y) :
    Models y.active.matrix (fun ij => y.lists (ActiveThreads.ij2prio ij)) ∧
    (∀ n m t, t ∈ y.lists n → n < 1024 ∧ (t ∈ y.lists m → m = n)) ∧
    (∀ ij, (y.active.slbitmap ij.1).Has ij.2 ↔ y.active.matrix.head ij ≠ none) ∧
    (∀ i, y.active.flbitmap.Has i ↔ y.active.slbitmap i ≠ 0) ∧
    ((∃ (t : T) (n : Nat), y.active.getHeadSs = some (some t, (n : Int)) ∧
        (y.lists n).head? = some t ∧ ∀ m < n, y.lists m = []) ∨
      (y.active.getHeadSs = some (none, -1) ∧ ∀ n, y.lists n = [])) ∧
    ∀ c : SsCall T, c.Allowed y → (y.step c).isSome := by
  have h : y.active.Holds y.lists := by
    refine hr.invariant_visited (I := fun z => z.active.Holds z.lists)
      (C := fun z c => c.Allowed z) ActiveThreads.holds_init (fun s c s' hs hc hstep => ?_) hc hy
    obtain ⟨s'', hstep', hs''⟩ := ReadyLists.holds_step hs hc
    rw [hstep] at hstep'
    exact Option.some.inj hstep' ▸ hs''
  refine ⟨h.models, fun n m t hn => ⟨h.lt hn, fun hm => ?_⟩, fun ij => ?_, h.first, h.getHeadSs,
    fun c hc => ?_⟩
  · obtain ⟨ij, rfl⟩ := ActiveThreads.exists_ij2prio (h.lt hn)
    obtain ⟨ij', rfl⟩ := ActiveThreads.exists_ij2prio (h.lt hm)
    rw [h.models.apart ij' ij t hm hn]
  · rw [h.second ij, h.models.head_eq, Ne, Ne, List.head?_eq_none_iff]
  · obtain ⟨z, hz, -⟩ := ReadyLists.holds_step h hc
    rw [hz]
    rfl

theorem ready_structure_run : ∃ tr x,
    Run ReadyLists.step (.init : ReadyLists Bool) tr x ∧
    x.active.getHeadSs = some (some false, 40) := by
  have hrun : (exec ReadyLists.step (.init : ReadyLists Bool)
      [.removeSs true, .insertSsTail false 40]).any fun r =>
      decide ((∀ e ∈ r.1, e.2.Allowed e.1) ∧ (r.2.lists 40).head? = some false ∧
        ∀ n < (40 : Nat), r.2.lists n = []) := by decide +kernel
  obtain ⟨tr, x, hr, hx⟩ := exec_any hrun
  simp only [decide_eq_true_eq] at hx
  obtain ⟨hc, h40, hbefore⟩ := hx
  obtain ⟨-, -, -, -, hhead, -⟩ := ready_structure hr hc .self
  refine ⟨tr, x, hr, ?_⟩
  rcases hhead with ⟨t, n, heq, ht, hmin⟩ | ⟨-, hempty⟩
  · rcases Nat.lt_trichotomy n 40 with hlt | rfl | hgt
    · simp [hbefore n hlt] at ht
    · rw [h40] at ht
      rw [heq, Option.some.inj ht]
      rfl
    · simp [hmin 40 hgt] at h40
  · simp [hempty 40] at h40

end Xmertl.Partikle
