import Mathlib.Data.Fintype.Card
import Mathlib.Data.Fintype.Pigeonhole
import Mathlib.Data.List.Nodup
import Mathlib.Logic.Function.Basic

/-!
# Intrusive doubly linked lists

A family of lists threaded through one node per element: `head i` is list
`i`'s first element, `node x` the links element `x` carries. An element can be
on one list of the family at a time, since it has only one node.

`Models w L` relates the pointers to abstract lists `L i`. Each operation on
the pointers is a list operation under `Models` (`Models.pushFront`,
`Models.popFront_cons`, `Models.unlink`). Nothing in the operations checks
membership, so each rule says what it needs of the element.
-/

namespace IntrusiveList

structure Node (α : Type*) where
  prev : Option α
  next : Option α
  deriving DecidableEq

def Node.free : Node α := ⟨none, none⟩

structure Lists (ι α : Type*) where
  head : ι → Option α
  node : α → Node α

section
variable {ι α : Type*}

-- ---------------------------------------------------------------------------
-- The abstract lists
-- ---------------------------------------------------------------------------

/-- `h` starts the doubly linked list `l`: every node's links are its
neighbours in `l`. -/
def Chain (node : α → Node α) (h : Option α) (l : List α) : Prop :=
  h = l.head? ∧ ∀ a x b, l = a ++ x :: b → node x = ⟨a.getLast?, b.head?⟩

structure Models (w : Lists ι α) (L : ι → List α) : Prop where
  chain : ∀ i, Chain w.node (w.head i) (L i)
  nodup : ∀ i, (L i).Nodup
  apart : ∀ i j x, x ∈ L i → x ∈ L j → i = j
  free : ∀ x, (∀ i, x ∉ L i) → w.node x = .free

/-- Reachable from the head along `next`. -/
inductive Lists.Linked (w : Lists ι α) (i : ι) : α → Prop
  | head : w.head i = some x → w.Linked i x
  | next : w.Linked i x → (w.node x).next = some y → w.Linked i y

theorem Chain.congr {node node' : α → Node α} (hc : Chain node h l)
    (heq : ∀ x ∈ l, node' x = node x) : Chain node' h l := by
  refine ⟨hc.1, fun a x b hl => ?_⟩
  rw [heq x (by simp [hl])]
  exact hc.2 a x b hl

theorem Models.linked_iff {w : Lists ι α} (hm : Models w L) : w.Linked i x ↔ x ∈ L i := by
  have ⟨hhead, hlinks⟩ := hm.chain i
  constructor
  · intro h
    induction h with
    | head h =>
      rw [hhead] at h
      exact List.mem_of_mem_head? h
    | @next x y _ hn ih =>
      obtain ⟨a, b, hl⟩ := List.append_of_mem ih
      rw [hlinks a x b hl] at hn
      have hy : y ∈ b := List.mem_of_mem_head? hn
      simp [hl, hy]
  · intro h
    obtain ⟨a, b, hl⟩ := List.append_of_mem h
    clear h
    -- along the part of the list before `x`
    induction a using List.reverseRecOn generalizing x b with
    | nil => exact .head (by rw [hhead, hl]; rfl)
    | append_singleton a z ih =>
      have hl' : L i = a ++ z :: (x :: b) := by simpa using hl
      exact .next (ih _ hl') (by rw [hlinks a z (x :: b) hl']; rfl)

theorem Models.head_eq {w : Lists ι α} (hm : Models w L) : w.head i = (L i).head? :=
  (hm.chain i).1

theorem Models.unique {w : Lists ι α} (hm : Models w L) (hm' : Models w L') : L i = L' i := by
  have hrest : ∀ b a b', L i = a ++ b → L' i = a ++ b' → b.head? = b'.head? → b = b' := by
    intro b
    induction b with
    | nil =>
      intro a b' _ _ hh
      exact (List.head?_eq_none_iff.mp hh.symm).symm
    | cons x b ih =>
      intro a b' hl hl' hh
      obtain ⟨c, rfl⟩ := List.head?_eq_some_iff.mp hh.symm
      have hnode := (hm.chain i).2 a x b hl
      rw [(hm'.chain i).2 a x c hl'] at hnode
      rw [ih (a ++ [x]) c (by simp [hl]) (by simp [hl']) (congrArg Node.next hnode).symm]
  exact hrest (L i) [] (L' i) rfl rfl (hm.head_eq.symm.trans hm'.head_eq)

theorem Models.ext {w w' : Lists ι α} (hm : Models w L) (hm' : Models w' L) : w = w' := by
  obtain ⟨head, node⟩ := w
  obtain ⟨head', node'⟩ := w'
  have hhead : head = head' := funext fun i => hm.head_eq.trans hm'.head_eq.symm
  have hnode : node = node' := by
    funext x
    by_cases hx : ∃ i, x ∈ L i
    · obtain ⟨i, hi⟩ := hx
      obtain ⟨a, b, hl⟩ := List.append_of_mem hi
      exact ((hm.chain i).2 a x b hl).trans ((hm'.chain i).2 a x b hl).symm
    · rw [not_exists] at hx
      exact (hm.free x hx).trans (hm'.free x hx).symm
  rw [hhead, hnode]

theorem Models.empty : Models (⟨fun _ => none, fun _ => .free⟩ : Lists ι α) fun _ => [] where
  chain _ := ⟨rfl, fun a x b h => by simp at h⟩
  nodup _ := .nil
  apart _ _ _ h := by simp at h
  free _ _ := rfl

-- ---------------------------------------------------------------------------
-- The operations
-- ---------------------------------------------------------------------------

variable [DecidableEq ι] [DecidableEq α]

def setPrev (node : α → Node α) : Option α → Option α → α → Node α
  | none, _ => node
  | some x, p => Function.update node x { node x with prev := p }

def setNext (node : α → Node α) : Option α → Option α → α → Node α
  | none, _ => node
  | some x, n => Function.update node x { node x with next := n }

def Lists.pushFront (w : Lists ι α) (i : ι) (x : α) : Lists ι α :=
  let node := setPrev w.node (w.head i) (some x)
  { head := Function.update w.head i (some x)
    node := Function.update node x { node x with next := w.head i } }

/-- The last element of the list that `x` is on; the walk takes less than `n` steps unless
the links run in a circle. -/
def last (node : α → Node α) : Nat → α → Option α
  | 0, _ => none
  | n + 1, x =>
    match (node x).next with
    | none => some x
    | some y => last node n y

def Lists.pushBack [Fintype α] (w : Lists ι α) (i : ι) (x : α) : Option (Lists ι α) :=
  let node := Function.update w.node x .free
  match w.head i with
  | none => some { head := Function.update w.head i (some x), node }
  | some y =>
    (last node (Fintype.card α) y).map fun t =>
      { head := w.head, node := setPrev (setNext node (some t) (some x)) (some x) (some t) }

def Lists.unlink (w : Lists ι α) (i : ι) (x : α) : Lists ι α :=
  let node := setPrev w.node (w.node x).next (w.node x).prev
  let node := setNext node (node x).prev (node x).next
  { head := if w.head i = some x then Function.update w.head i (node x).next else w.head
    node := Function.update node x .free }

def Lists.popFront (w : Lists ι α) (i : ι) : Option α × Lists ι α :=
  match w.head i with
  | none => (none, w)
  | some x =>
    let rest := (w.node x).next
    (some x,
      { head := Function.update w.head i rest
        node := Function.update (setPrev w.node rest none) x .free })

theorem Lists.head_of_popFront {w : Lists ι α} (h : (w.popFront i).1 = none) :
    w.head i = none := by
  unfold popFront at h
  split at h
  · assumption
  · simp at h

theorem setPrev_other (node : α → Node α) (h : q ≠ some x) : setPrev node q p x = node x := by
  cases q with
  | none => rfl
  | some y => exact Function.update_of_ne (by rintro rfl; exact h rfl) _ _

theorem setPrev_next (node : α → Node α) : (setPrev node q p x).next = (node x).next := by
  cases q with
  | none => rfl
  | some y =>
    by_cases h : x = y
    · subst h; simp [setPrev]
    · simp [setPrev, h]

theorem setNext_other (node : α → Node α) (h : q ≠ some x) : setNext node q n x = node x := by
  cases q with
  | none => rfl
  | some y => exact Function.update_of_ne (by rintro rfl; exact h rfl) _ _

omit [DecidableEq α] in
/-- A change of the pointers that puts `x`, which is on no list, on list `i` and makes `l`
of it. -/
theorem Models.grow {w w' : Lists ι α} (hm : Models w L) (hx : ∀ j, x ∉ L j)
    (hmem : ∀ y, y ∈ l ↔ y = x ∨ y ∈ L i) (hnodup : l.Nodup)
    (hchain : Chain w'.node (w'.head i) l) (hhead : ∀ j, j ≠ i → w'.head j = w.head j)
    (hother : ∀ y, y ≠ x → y ∉ L i → w'.node y = w.node y) :
    Models w' (Function.update L i l) := by
  refine ⟨fun j => ?_, fun j => ?_, fun j k y hj hk => ?_, fun y hy => ?_⟩
  · by_cases hj : j = i
    · subst hj; simpa using hchain
    · simp only [Function.update_of_ne hj]
      rw [hhead j hj]
      refine (hm.chain j).congr fun y hy => hother y (fun h => hx j (h ▸ hy)) fun hyi => ?_
      exact hj (hm.apart j i y hy hyi)
  · by_cases hj : j = i
    · subst hj; simpa using hnodup
    · simp [hj, hm.nodup j]
  · have hcases : ∀ j, y ∈ Function.update L i l j → y = x ∧ j = i ∨ y ∈ L j := by
      intro j h
      by_cases hj : j = i
      · subst hj
        exact ((hmem y).mp (by simpa using h)).imp_left fun hyx => ⟨hyx, rfl⟩
      · exact .inr (by simpa [hj] using h)
    rcases hcases j hj with ⟨rfl, hji⟩ | hj
    · rcases hcases k hk with ⟨-, hki⟩ | hk
      · rw [hji, hki]
      · exact absurd hk (hx k)
    · rcases hcases k hk with ⟨rfl, -⟩ | hk
      · exact absurd hj (hx j)
      · exact hm.apart j k y hj hk
  · have hyi : ¬(y = x ∨ y ∈ L i) := fun h => hy i (by simpa using (hmem y).mpr h)
    rw [hother y (fun h => hyi (.inl h)) fun h => hyi (.inr h)]
    refine hm.free y fun j h => ?_
    by_cases hj : j = i
    · exact hyi (.inr (hj ▸ h))
    · exact hy j (by simpa [hj] using h)

/-- `x` between the elements of `u` and those of `v`: the pointers that link it there. -/
theorem Models.insert {w w' : Lists ι α} (hm : Models w L) (hx : ∀ j, x ∉ L j)
    (hl : L i = u ++ v) (hself : w'.node x = ⟨u.getLast?, v.head?⟩)
    (hother : ∀ y, y ≠ x →
      w'.node y = setPrev (setNext w.node u.getLast? (some x)) v.head? (some x) y)
    (hhead : ∀ j, w'.head j = if j = i then (u ++ x :: v).head? else w.head j) :
    Models w' (Function.update L i (u ++ x :: v)) := by
  have hnd := hm.nodup i
  rw [hl] at hnd
  have hxi : x ∉ u ++ v := hl ▸ hx i
  refine hm.grow hx (fun y => ?_) (List.nodup_middle.mpr (List.nodup_cons.mpr ⟨hxi, hnd⟩))
    ⟨by rw [hhead, if_pos rfl], fun a y b hab => ?_⟩ (fun j hj => by rw [hhead, if_neg hj])
    fun y hyx hyi => ?_
  · rw [hl]
    simp only [List.mem_append, List.mem_cons]
    tauto
  · rcases List.append_eq_append_iff.mp hab with ⟨c, rfl, hc⟩ | ⟨c, rfl, hc⟩
    · rcases List.cons_eq_append_iff.mp hc with ⟨rfl, hyb⟩ | ⟨c, rfl, hv⟩
      · -- `y` is `x`
        obtain ⟨rfl, rfl⟩ := List.cons.inj hyb
        simpa using hself
      · -- `y` is behind `x`
        have hyv : y ∈ v := by simp [hv]
        have hyx : y ≠ x := fun h => hxi (by simp [← h, hyv])
        have hyu : u.getLast? ≠ some y := by
          intro h
          exact (List.nodup_append.mp hnd).2.2 y (List.mem_of_mem_getLast? h) y hyv rfl
        have hlinks := (hm.chain i).2 (u ++ c) y b (by simp [hl, hv])
        rw [hother y hyx]
        cases c with
        | nil =>
          rw [hv]
          simp [setPrev, setNext_other _ hyu, hlinks]
        | cons z c =>
          have hzy : z ≠ y := by
            rintro rfl
            have := (List.nodup_append.mp hnd).2.1
            simp [hv] at this
          rw [hv]
          simp only [List.cons_append, List.head?_cons]
          rw [setPrev_other _ (by simpa using hzy), setNext_other _ hyu, hlinks]
          simp [List.getLast?_append, List.getLast?_cons]
    · rcases List.cons_eq_append_iff.mp hc with ⟨rfl, hxv⟩ | ⟨c, rfl, hb⟩
      · obtain ⟨rfl, rfl⟩ := List.cons.inj hxv
        simpa using hself
      · -- `y` is before `x`
        subst hb
        have hyv : v.head? ≠ some y := by
          intro h
          exact (List.nodup_append.mp hnd).2.2 y (by simp) y (List.mem_of_mem_head? h) rfl
        have hyx : y ≠ x := fun h => hxi (by simp [h])
        have hlinks := (hm.chain i).2 a y (c ++ v) (by simp [hl])
        rw [hother y hyx, setPrev_other _ hyv]
        cases c using List.reverseRecOn with
        | nil => simp [setNext, hlinks]
        | append_singleton c z =>
          have hzy : z ≠ y := by
            rintro rfl
            have hu : (a ++ z :: (c ++ [z])).Nodup := (List.nodup_append.mp hnd).1
            simp [List.nodup_append] at hu
          have hlast : (a ++ y :: (c ++ [z])).getLast? ≠ some y := by
            simpa [List.getLast?_append, List.getLast?_cons] using hzy
          rw [setNext_other _ hlast, hlinks]
          cases c <;> simp
  · have hyu : u.getLast? ≠ some y := fun h => hyi (by simp [hl, List.mem_of_mem_getLast? h])
    have hyv : v.head? ≠ some y := fun h => hyi (by simp [hl, List.mem_of_mem_head? h])
    rw [hother y hyx, setPrev_other _ hyv, setNext_other _ hyu]

theorem Models.pushFront {w : Lists ι α} (hm : Models w L) (hx : ∀ j, x ∉ L j) :
    Models (w.pushFront i x) (Function.update L i (x :: L i)) := by
  have hhead : (L i).head? ≠ some x := fun h => hx i (List.mem_of_mem_head? h)
  refine hm.insert (u := []) hx rfl ?_ (fun y hyx => ?_) fun j => ?_
  · simp [Lists.pushFront, hm.head_eq, setPrev_other w.node hhead, hm.free x hx, Node.free]
  · simp [Lists.pushFront, hyx, setNext, hm.head_eq]
  · by_cases hj : j = i
    · subst hj; simp [Lists.pushFront]
    · simp [Lists.pushFront, hj]

omit [DecidableEq ι] [DecidableEq α] in
theorem Models.last_eq {w : Lists ι α} (hm : Models w L) (hl : L i = a ++ y :: b)
    (hn : b.length < n) : last w.node n y = (y :: b).getLast? := by
  induction b generalizing a y n with
  | nil =>
    cases n with
    | zero => exact absurd hn (Nat.not_lt_zero _)
    | succ n => simp [last, (hm.chain i).2 a y [] hl]
  | cons z b ih =>
    cases n with
    | zero => exact absurd hn (Nat.not_lt_zero _)
    | succ n =>
      rw [last, (hm.chain i).2 a y (z :: b) hl]
      exact ih (a := a ++ [y]) (by simp [hl]) (Nat.lt_of_succ_lt_succ hn)

theorem Models.pushBack [Fintype α] {w : Lists ι α} (hm : Models w L) (hx : ∀ j, x ∉ L j) :
    ∃ w', w.pushBack i x = some w' ∧ Models w' (Function.update L i (L i ++ [x])) := by
  have hnode : Function.update w.node x .free = w.node := by
    rw [← hm.free x hx, Function.update_eq_self]
  cases hl : L i with
  | nil =>
    have hhead : w.head i = none := by rw [hm.head_eq, hl]; rfl
    refine ⟨_, by simp only [Lists.pushBack, hhead, hnode]; rfl, ?_⟩
    refine hm.insert (u := []) (v := []) hx hl (hm.free x hx) (fun y _ => rfl) fun j => ?_
    by_cases hj : j = i
    · subst hj; simp
    · simp [hj]
  | cons y b =>
    have hhead : w.head i = some y := by rw [hm.head_eq, hl]; rfl
    have hlen : b.length < Fintype.card α := by
      have := (hm.nodup i).length_le_card
      rw [hl] at this
      exact this
    obtain ⟨t, ht⟩ : ∃ t, (y :: b).getLast? = some t :=
      ⟨_, List.getLast?_eq_some_getLast (List.cons_ne_nil y b)⟩
    have hxt : x ≠ t := fun h => hx i (by rw [hl, h]; exact List.mem_of_mem_getLast? ht)
    have hlast : last w.node (Fintype.card α) y = some t :=
      (hm.last_eq (a := []) (by simpa using hl) hlen).trans ht
    refine ⟨_, by simp only [Lists.pushBack, hhead, hnode, hlast]; rfl, ?_⟩
    refine hm.insert (v := []) hx (by rw [hl, List.append_nil]) ?_ (fun z hzx => ?_) fun j => ?_
    · simp [setPrev, setNext, ht, hxt, hm.free x hx, Node.free]
    · have hxz : some x ≠ some z := fun h => hzx (Option.some.inj h).symm
      rw [ht]
      exact setPrev_other (setNext w.node (some t) (some x)) hxz
    · by_cases hj : j = i
      · subst hj; simp [hhead]
      · simp [hj]

theorem Models.not_pushFront {w : Lists ι α} (hm : Models w L) (hx : x ∈ L i) :
    ¬Models (w.pushFront i x) L' := by
  intro hm'
  have hhead : (L' i).head? = some x := by
    rw [← hm'.head_eq]
    simp [Lists.pushFront]
  obtain ⟨xs, hxs⟩ := List.head?_eq_some_iff.mp hhead
  have hself : (w.pushFront i x).node x = ⟨none, xs.head?⟩ := (hm'.chain i).2 [] x xs hxs
  obtain ⟨u, v, hl⟩ := List.append_of_mem hx
  by_cases hh : w.head i = some x
  · have hnext : xs.head? = some x := by
      have := congrArg Node.next hself
      simpa [Lists.pushFront, hh] using this.symm
    have hnd := hm'.nodup i
    rw [hxs, List.nodup_cons] at hnd
    exact hnd.1 (List.mem_of_mem_head? hnext)
  · have hprev : u.getLast? = none := by
      have := congrArg Node.prev hself
      simpa [Lists.pushFront, setPrev_other w.node hh, (hm.chain i).2 u x v hl] using this
    rw [List.getLast?_eq_none_iff] at hprev
    subst hprev
    exact hh (by rw [hm.head_eq, hl]; rfl)

theorem Models.popFront_nil {w : Lists ι α} (hm : Models w L) (hl : L i = []) :
    w.popFront i = (none, w) := by
  have hh : w.head i = none := by rw [hm.head_eq, hl]; rfl
  simp [Lists.popFront, hh]

theorem setPrev_setNext (node : α → Node α) (a n b p : Option α) :
    setPrev (setNext node a n) b p = setNext (setPrev node b p) a n := by
  cases a with
  | none => rfl
  | some y =>
    cases b with
    | none => rfl
    | some z =>
      funext x
      by_cases hyz : y = z
      · subst hyz
        by_cases hx : x = y
        · subst hx; simp [setPrev, setNext]
        · simp [setPrev, setNext, hx]
      · by_cases hxy : x = y
        · subst hxy; simp [setPrev, setNext, hyz]
        · by_cases hxz : x = z
          · subst hxz; simp [setPrev, setNext, hxy]
          · simp [setPrev, setNext, hxy, hxz]

omit [DecidableEq ι] [DecidableEq α] in
theorem Models.links_ne {w : Lists ι α} (hm : Models w L) (x : α) :
    (w.node x).prev ≠ some x ∧ (w.node x).next ≠ some x := by
  by_cases hx : ∃ i, x ∈ L i
  · obtain ⟨i, hx⟩ := hx
    obtain ⟨u, v, hl⟩ := List.append_of_mem hx
    have hnd := hm.nodup i
    rw [hl] at hnd
    have hnx : x ∉ u ++ v := (List.nodup_cons.mp (List.nodup_middle.mp hnd)).1
    rw [(hm.chain i).2 u x v hl]
    exact ⟨fun h => hnx (List.mem_append_left v (List.mem_of_mem_getLast? h)),
      fun h => hnx (List.mem_append_right u (List.mem_of_mem_head? h))⟩
  · rw [hm.free x fun i hi => hx ⟨i, hi⟩]
    exact ⟨nofun, nofun⟩

theorem Models.shrink {w w' : Lists ι α} (hm : Models w L) (hx : x ∈ L i)
    (hl : l.Sublist (L i)) (hrest : ∀ y ∈ L i, y ≠ x → y ∈ l)
    (hchain : Chain w'.node (w'.head i) l) (hself : w'.node x = .free)
    (hhead : ∀ j, j ≠ i → w'.head j = w.head j)
    (hother : ∀ y, y ∉ L i → w'.node y = w.node y) :
    Models w' (Function.update L i l) := by
  refine ⟨fun j => ?_, fun j => ?_, fun j k y hj hk => ?_, fun y hy => ?_⟩
  · by_cases hj : j = i
    · subst hj; simpa using hchain
    · simp only [Function.update_of_ne hj]
      rw [hhead j hj]
      refine (hm.chain j).congr fun y hy => hother y fun hyi => ?_
      exact hj (hm.apart j i y hy hyi)
  · by_cases hj : j = i
    · subst hj; simpa using hl.nodup (hm.nodup j)
    · simp [hj, hm.nodup j]
  · have hsub : ∀ j, y ∈ Function.update L i l j → y ∈ L j := by
      intro j h
      by_cases hj : j = i
      · subst hj; exact hl.subset (by simpa using h)
      · simpa [hj] using h
    exact hm.apart j k y (hsub j hj) (hsub k hk)
  · by_cases hyx : y = x
    · rw [hyx, hself]
    · have hyi : y ∉ L i := by
        intro h
        exact hy i (by simpa using hrest y h hyx)
      rw [hother y hyi]
      refine hm.free y fun j h => ?_
      by_cases hj : j = i
      · exact hyi (hj ▸ h)
      · exact hy j (by simpa [hj] using h)

theorem Models.popFront_cons {w : Lists ι α} (hm : Models w L) (hl : L i = x :: xs) :
    ∃ w', w.popFront i = (some x, w') ∧ Models w' (Function.update L i xs) := by
  have hnd := hm.nodup i
  rw [hl, List.nodup_cons] at hnd
  have hh : w.head i = some x := by rw [hm.head_eq, hl]; rfl
  have hx : (w.node x).next = xs.head? := by rw [(hm.chain i).2 [] x xs (by simpa using hl)]
  have hxs : xs.head? ≠ some x := fun h => hnd.1 (List.mem_of_mem_head? h)
  refine ⟨_, by simp only [Lists.popFront, hh]; rfl, ?_⟩
  simp only [hx]
  refine hm.shrink (x := x) (by simp [hl]) (by simp [hl]) ?_ ⟨by simp, ?_⟩ (by simp) ?_ ?_
  · intro y hy hyx
    simpa [hl, hyx] using hy
  · intro a y b hxs'
    have hy : y ∈ xs := by simp [hxs']
    have hyx : y ≠ x := fun h => hnd.1 (h ▸ hy)
    have hlinks := (hm.chain i).2 (x :: a) y b (by simp [hl, hxs'])
    simp only [Function.update_of_ne hyx]
    cases a with
    | nil => simp [hxs', setPrev, hlinks]
    | cons z a =>
      have hne : z ≠ y := by
        rintro rfl
        simp [hxs'] at hnd
      simp only [hxs', List.cons_append, List.head?_cons]
      rw [setPrev_other _ (by simpa using hne), hlinks]
      simp
  · intro j hj
    simp [hj]
  · intro y hy
    have hyx : y ≠ x := by
      rintro rfl
      exact hy (by simp [hl])
    have hyh : xs.head? ≠ some y := by
      intro h
      exact hy (by simp [hl, List.mem_of_mem_head? h])
    simp [hyx, setPrev_other _ hyh]

theorem Models.unlink {w : Lists ι α} (hm : Models w L) (hl : L i = u ++ x :: v) :
    Models (w.unlink i x) (Function.update L i (u ++ v)) := by
  have hnd := hm.nodup i
  rw [hl] at hnd
  have hnode : w.node x = ⟨u.getLast?, v.head?⟩ := (hm.chain i).2 u x v hl
  have hnx : x ∉ u ++ v := (List.nodup_cons.mp (List.nodup_middle.mp hnd)).1
  have hu : u.getLast? ≠ some x := fun h => hnx (by simp [List.mem_of_mem_getLast? h])
  have hv : v.head? ≠ some x := fun h => hnx (by simp [List.mem_of_mem_head? h])
  have huv : ∀ y, y ∈ u → y ∉ v := by
    intro y hyu hyv
    exact (List.nodup_append.mp hnd).2.2 y hyu y (by simp [hyv]) rfl
  have hself : setPrev w.node v.head? u.getLast? x = ⟨u.getLast?, v.head?⟩ := by
    rw [setPrev_other _ hv, hnode]
  have heq : w.unlink i x =
      { head := if w.head i = some x then Function.update w.head i v.head? else w.head
        node := Function.update
          (setNext (setPrev w.node v.head? u.getLast?) u.getLast? v.head?) x .free } := by
    simp only [Lists.unlink, hnode, hself]
    rw [setNext_other _ hu, hself]
  rw [heq]
  refine hm.shrink (x := x) (by simp [hl]) (by simp [hl]) ?_ ⟨?_, ?_⟩ (by simp) ?_ ?_
  · intro y hy hyx
    simpa [hl, hyx] using hy
  · have hh : w.head i = (u ++ x :: v).head? := by rw [hm.head_eq, hl]
    cases u with
    | nil => simp [hh]
    | cons z u =>
      have hzx : z ≠ x := by
        rintro rfl
        simp at hnx
      simp [hh, hzx]
  · intro a y b hab
    have hy : y ∈ u ++ v := by simp [hab]
    have hyx : y ≠ x := fun h => hnx (h ▸ hy)
    simp only [Function.update_of_ne hyx]
    rcases List.append_eq_append_iff.mp hab with ⟨c, rfl, hc⟩ | ⟨c, rfl, hc⟩
    · -- `y` is behind `x`
      have hyu : y ∉ u := fun h => huv y h (by simp [hc])
      have hlinks := (hm.chain i).2 (u ++ x :: c) y b (by simp [hl, hc])
      have hlast : u.getLast? ≠ some y := fun h => hyu (List.mem_of_mem_getLast? h)
      rw [setNext_other _ hlast]
      cases c with
      | nil => simp [hc, setPrev, hlinks]
      | cons z c =>
        have hzy : z ≠ y := by
          rintro rfl
          have := (List.nodup_append.mp hnd).2.1
          simp [hc] at this
        simp only [hc, List.cons_append, List.head?_cons]
        rw [setPrev_other _ (by simpa using hzy), hlinks]
        simp [List.getLast?_append, List.getLast?_cons]
    · rcases List.cons_eq_append_iff.mp hc with ⟨rfl, rfl⟩ | ⟨c, rfl, hb⟩
      · -- `y` is right behind `x`, at the head of `v`
        have hyu : y ∉ a := by
          intro h
          exact huv y (by simpa using h) (by simp)
        have hlinks := (hm.chain i).2 (a ++ [x]) y b (by simp [hl])
        have hlast : a.getLast? ≠ some y := fun h => hyu (List.mem_of_mem_getLast? h)
        simp only [List.append_nil, List.head?_cons]
        rw [setNext_other _ hlast]
        simp [setPrev, hlinks]
      · -- `y` is before `x`
        subst hb
        have hyv : y ∉ v := fun h => huv y (by simp) h
        have hlinks := (hm.chain i).2 a y (c ++ x :: v) (by simp [hl])
        have hhead : v.head? ≠ some y := fun h => hyv (List.mem_of_mem_head? h)
        cases c using List.reverseRecOn with
        | nil => simp [setNext, setPrev_other _ hhead, hlinks]
        | append_singleton c z =>
          have hzy : z ≠ y := by
            rintro rfl
            have hu : (a ++ z :: (c ++ [z])).Nodup := (List.nodup_append.mp hnd).1
            simp [List.nodup_append] at hu
          have hlast : (a ++ y :: (c ++ [z])).getLast? ≠ some y := by
            simpa [List.getLast?_append, List.getLast?_cons] using hzy
          rw [setNext_other _ hlast, setPrev_other _ hhead, hlinks]
          cases c <;> simp
  · intro j hj
    by_cases hh : w.head i = some x <;> simp [hh, hj]
  · intro y hy
    have hyx : y ≠ x := by
      rintro rfl
      exact hy (by simp [hl])
    have hyv : v.head? ≠ some y := fun h => hy (by simp [hl, List.mem_of_mem_head? h])
    have hyu : u.getLast? ≠ some y := fun h => hy (by simp [hl, List.mem_of_mem_getLast? h])
    simp [hyx, setNext_other _ hyu, setPrev_other _ hyv]

theorem Models.unlink_free {w : Lists ι α} (hm : Models w L) (hx : ∀ j, x ∉ L j) :
    w.unlink i x = w := by
  have hfree : w.node x = .free := hm.free x hx
  have hh : w.head i ≠ some x := fun h => hx i (hm.linked_iff.mp (.head h))
  simp only [Lists.unlink, hfree, Node.free, setPrev, setNext, hh, if_false]
  rw [← Node.free, ← hfree, Function.update_eq_self]

theorem Models.unlink_erase {w : Lists ι α} (hm : Models w L) (hx : ∀ j, x ∈ L j → j = i) :
    Models (w.unlink i x) (Function.update L i ((L i).erase x)) := by
  by_cases hi : x ∈ L i
  · obtain ⟨u, v, hu, hl, he⟩ := List.exists_erase_eq hi
    rw [he]
    exact hm.unlink hl
  · rw [List.erase_of_not_mem hi, Function.update_eq_self, hm.unlink_free]
    · exact hm
    · intro j hj
      exact hi (hx j hj ▸ hj)

-- ---------------------------------------------------------------------------
-- Pointers that stay within a set, right or wrong
-- ---------------------------------------------------------------------------

structure Lists.Within (w : Lists ι α) (P : α → Prop) : Prop where
  head : ∀ i x, w.head i = some x → P x
  prev : ∀ x y, (w.node x).prev = some y → P y
  next : ∀ x y, (w.node x).next = some y → P y

section
variable {w : Lists ι α} {P : α → Prop}

omit [DecidableEq ι] in
theorem Lists.Within.update {node : α → Node α} (h : (⟨w.head, node⟩ : Lists ι α).Within P)
    {n : Node α} (hp : ∀ y, n.prev = some y → P y) (hn : ∀ y, n.next = some y → P y) :
    (⟨w.head, Function.update node x n⟩ : Lists ι α).Within P := by
  refine ⟨h.head, fun z y hy => ?_, fun z y hy => ?_⟩
  · by_cases hz : z = x
    · subst hz
      exact hp y (by simpa using hy)
    · exact h.prev z y (by simpa [hz] using hy)
  · by_cases hz : z = x
    · subst hz
      exact hn y (by simpa using hy)
    · exact h.next z y (by simpa [hz] using hy)

omit [DecidableEq ι] in
theorem Lists.Within.setPrev {node : α → Node α} (h : (⟨w.head, node⟩ : Lists ι α).Within P)
    {q p : Option α} (hp : ∀ y, p = some y → P y) :
    (⟨w.head, IntrusiveList.setPrev node q p⟩ : Lists ι α).Within P := by
  cases q with
  | none => exact h
  | some x => exact h.update hp (h.next x)

omit [DecidableEq ι] in
theorem Lists.Within.setNext {node : α → Node α} (h : (⟨w.head, node⟩ : Lists ι α).Within P)
    {q n : Option α} (hn : ∀ y, n = some y → P y) :
    (⟨w.head, IntrusiveList.setNext node q n⟩ : Lists ι α).Within P := by
  cases q with
  | none => exact h
  | some x => exact h.update (h.prev x) hn

omit [DecidableEq α] in
theorem Lists.Within.setHead (h : w.Within P) {i : ι} {o : Option α}
    (ho : ∀ y, o = some y → P y) : (⟨Function.update w.head i o, w.node⟩ : Lists ι α).Within P := by
  refine ⟨fun j y hy => ?_, h.prev, h.next⟩
  by_cases hj : j = i
  · subst hj
    exact ho y (by simpa using hy)
  · exact h.head j y (by simpa [hj] using hy)

theorem Lists.Within.pushFront (h : w.Within P) (hx : P x) : (w.pushFront i x).Within P := by
  have hnode := Lists.Within.setPrev (q := w.head i) h (p := some x)
    fun y hy => Option.some.inj hy ▸ hx
  have hself := hnode.update (x := x)
    (n := { IntrusiveList.setPrev w.node (w.head i) (some x) x with next := w.head i })
    (hnode.prev x) (h.head i)
  exact hself.setHead (w := ⟨w.head, _⟩) fun y hy => Option.some.inj hy ▸ hx

theorem Lists.Within.unlink (h : w.Within P) : (w.unlink i x).Within P := by
  have hprev := Lists.Within.setPrev (q := (w.node x).next) h (h.prev x)
  have hnext := Lists.Within.setNext
    (q := (IntrusiveList.setPrev w.node (w.node x).next (w.node x).prev x).prev) hprev (hprev.next x)
  have hfree := hnext.update (x := x) (n := .free) nofun nofun
  unfold Lists.unlink
  dsimp only
  split
  · exact hfree.setHead (w := ⟨w.head, _⟩) (hnext.next x)
  · exact hfree

theorem Lists.Within.popFront (h : w.Within P) : (w.popFront i).2.Within P ∧
    ∀ x, (w.popFront i).1 = some x → P x := by
  unfold Lists.popFront
  split
  · exact ⟨h, nofun⟩
  · rename_i x hx
    have hnode := Lists.Within.setPrev (q := (w.node x).next) h (p := none) nofun
    have hfree := hnode.update (x := x) (n := .free) nofun nofun
    exact ⟨hfree.setHead (w := ⟨w.head, _⟩) (h.next x),
      fun y hy => Option.some.inj hy ▸ h.head i x hx⟩

end

-- ---------------------------------------------------------------------------
-- Emptying a list whose pointers may be wrong
-- ---------------------------------------------------------------------------

/-- The elements with a successor: what repeated popping uses up, also where
the pointers run in a circle. -/
def Lists.links [Fintype α] (w : Lists ι α) : Finset α :=
  Finset.univ.filter fun x => (w.node x).next.isSome

theorem Lists.popFront_links [Fintype α] {w : Lists ι α} (hh : w.head i = some x) :
    (w.popFront i).2.head i = none ∨ (w.popFront i).2.links.card < w.links.card := by
  cases hn : (w.node x).next with
  | none => exact .inl (by simp [popFront, hh, hn])
  | some y =>
    right
    refine Finset.card_lt_card (Finset.ssubset_iff_of_subset ?_ |>.mpr ⟨x, ?_, ?_⟩)
    · intro z hz
      simp only [links, Finset.mem_filter, Finset.mem_univ, true_and, popFront, hh] at hz ⊢
      by_cases hzx : z = x
      · subst hzx; simp [Node.free] at hz
      · simpa [hzx, setPrev_next] using hz
    · simp [links, hn]
    · simp [links, popFront, hh, Node.free]

end

-- ---------------------------------------------------------------------------
-- Following the pointers
-- ---------------------------------------------------------------------------

section
variable {ι α : Type*} {w : Lists ι α} {i : ι} {x : α}

/-- Where `n` steps along `next` lead from the head. -/
def Lists.reach (w : Lists ι α) (i : ι) : Nat → Option α
  | 0 => w.head i
  | n + 1 => (w.reach i n).bind fun x => (w.node x).next

theorem Lists.linked_iff_reach : w.Linked i x ↔ ∃ n, w.reach i n = some x := by
  constructor
  · intro h
    induction h with
    | head h => exact ⟨0, h⟩
    | next _ hn ih =>
      obtain ⟨n, hx⟩ := ih
      exact ⟨n + 1, by simp [reach, hx, hn]⟩
  · rintro ⟨n, hn⟩
    induction n generalizing x with
    | zero => exact .head hn
    | succ n ih =>
      obtain ⟨y, hy, hx⟩ := Option.bind_eq_some_iff.mp hn
      exact (ih hy).next hx

theorem Lists.reach_add (h : w.reach i a = w.reach i b) (n : Nat) :
    w.reach i (a + n) = w.reach i (b + n) := by
  induction n with
  | zero => exact h
  | succ n ih =>
    change (w.reach i (a + n)).bind _ = (w.reach i (b + n)).bind _
    rw [ih]

theorem Lists.reach_isSome (h : (w.reach i n).isSome) (hm : m ≤ n) : (w.reach i m).isSome := by
  induction n with
  | zero => exact Nat.le_zero.mp hm ▸ h
  | succ n ih =>
    rcases Nat.lt_or_eq_of_le hm with hlt | rfl
    · refine ih ?_ (Nat.le_of_lt_succ hlt)
      cases hn : w.reach i n with
      | none => simp [reach, hn] at h
      | some y => rfl
    · exact h

theorem Lists.linked_iff_reach_lt [Fintype α] :
    w.Linked i x ↔ ∃ n < Fintype.card α, w.reach i n = some x := by
  classical
  rw [linked_iff_reach]
  refine ⟨fun h => ⟨Nat.find h, ?_, Nat.find_spec h⟩, fun ⟨n, _, hn⟩ => ⟨n, hn⟩⟩
  by_contra hle
  have hsome : ∀ m : Fin (Fintype.card α + 1), (w.reach i m).isSome := fun m =>
    reach_isSome (n := Nat.find h) (by simp [Nat.find_spec h]) (by omega)
  obtain ⟨a, b, hab, he⟩ := Fintype.exists_ne_map_eq_of_card_lt
    (fun m : Fin (Fintype.card α + 1) => (w.reach i m).get (hsome m)) (by simp)
  have heq : w.reach i a = w.reach i b := Option.get_inj.mp he
  -- the later of the two is not needed
  have hshort : ∀ a b : Nat, a < b → b ≤ Nat.find h → w.reach i a = w.reach i b → False := by
    intro a b hlt hb he
    have hend := reach_add he (Nat.find h - b)
    rw [Nat.add_sub_cancel' hb, Nat.find_spec h] at hend
    exact Nat.find_min h (by omega) hend
  rcases Nat.lt_or_gt_of_ne (fun he => hab (Fin.ext he)) with hlt | hlt
  · exact hshort a b hlt (by omega) heq
  · exact hshort b a hlt (by omega) heq.symm

instance [Fintype α] [DecidableEq α] : Decidable (w.Linked i x) :=
  decidable_of_iff (∃ n < Fintype.card α, w.reach i n = some x) Lists.linked_iff_reach_lt.symm

end

end IntrusiveList
