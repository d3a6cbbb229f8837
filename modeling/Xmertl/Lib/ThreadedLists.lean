import Mathlib.Data.Set.Insert
import Xmertl.Lib.IntrusiveList

/-!
# Linked lists in a word memory

Lists whose nodes lie in a memory of 32-bit words: element `x` has its `prev` pointer at
`x + 8` and its `next` pointer at `x + 12`, and the word 0 is the null pointer. What the rest
of the memory holds is nobody's concern, so that `nodes mem S` shows the links of the
elements of `S` only. A write to one pointer is one of the updates of `IntrusiveList` under
this view, and from them come the rules for whole operations.
-/

namespace ThreadedLists

open IntrusiveList

variable {ι : Type*}

def ptr (w : BitVec 32) : Option Nat := if w = 0#32 then none else some w.toNat

def nodeAt (mem : Nat → BitVec 32) (x : Nat) : Node Nat := ⟨ptr (mem (x + 8)), ptr (mem (x + 12))⟩

open Classical in
noncomputable def nodes (mem : Nat → BitVec 32) (S : Set Nat) (x : Nat) : Node Nat :=
  if x ∈ S then nodeAt mem x else .free

def Members (L : ι → List Nat) : Set Nat := { x | ∃ i, x ∈ L i }

/-- The nodes of `S` do not overlap and lie in the address space, none of them at 0. -/
structure Apart (S : Set Nat) : Prop where
  pos : ∀ x ∈ S, 0 < x
  top : ∀ x ∈ S, x + 16 ≤ 2 ^ 32
  apart : ∀ x ∈ S, ∀ y ∈ S, x ≠ y → x + 16 ≤ y ∨ y + 16 ≤ x

structure Threaded (head : ι → BitVec 32) (mem : Nat → BitVec 32) (L : ι → List Nat) : Prop where
  models : Models ⟨fun i => ptr (head i), nodes mem (Members L)⟩ L
  apart : Apart (Members L)

/-- The words in which the links of `S` stand. -/
def LinkWord (S : Set Nat) (z : Nat) : Prop := ∃ x ∈ S, z = x + 8 ∨ z = x + 12

def setPrevAt (mem : Nat → BitVec 32) (q p : BitVec 32) : Nat → BitVec 32 :=
  if q = 0#32 then mem else Function.update mem (q.toNat + 8) p

def setNextAt (mem : Nat → BitVec 32) (q n : BitVec 32) : Nat → BitVec 32 :=
  if q = 0#32 then mem else Function.update mem (q.toNat + 12) n

def writeNode (mem : Nat → BitVec 32) (x : Nat) (p n : BitVec 32) : Nat → BitVec 32 :=
  Function.update (Function.update mem (x + 8) p) (x + 12) n

section
variable {mem mem' : Nat → BitVec 32} {S T : Set Nat} {x y z : Nat} {w q p n : BitVec 32}

@[simp] theorem ptr_zero : ptr 0#32 = none := rfl

theorem ptr_ofNat (h₀ : 0 < x) (h : x < 2 ^ 32) : ptr (BitVec.ofNat 32 x) = some x := by
  have hx : (BitVec.ofNat 32 x).toNat = x := by simpa using Nat.mod_eq_of_lt h
  have hne : BitVec.ofNat 32 x ≠ 0#32 := by
    intro he
    rw [he] at hx
    exact absurd hx (by simp; omega)
  rw [ptr, if_neg hne, hx]

theorem ptr_eq_none : ptr w = none ↔ w = 0#32 := by
  simp [ptr]

theorem ptr_eq_some : ptr w = some x ↔ w = BitVec.ofNat 32 x ∧ 0 < x ∧ x < 2 ^ 32 := by
  constructor
  · intro h
    rw [ptr] at h
    split at h
    · cases h
    · rename_i hw
      obtain rfl := Option.some.inj h
      refine ⟨by simp, ?_, w.isLt⟩
      exact Nat.pos_of_ne_zero fun h₀ => hw (BitVec.eq_of_toNat_eq h₀)
  · rintro ⟨rfl, h₀, h⟩
    exact ptr_ofNat h₀ h

theorem toNat_of_ptr (h : ptr q = some x) : q.toNat = x := by
  obtain ⟨rfl, -, hlt⟩ := ptr_eq_some.mp h
  simpa using Nat.mod_eq_of_lt hlt

theorem Apart.mono (h : Apart T) (hS : S ⊆ T) : Apart S where
  pos x hx := h.pos x (hS hx)
  top x hx := h.top x (hS hx)
  apart x hx y hy := h.apart x (hS hx) y (hS hy)

theorem nodes_congr (h : ∀ z, LinkWord S z → mem' z = mem z) : nodes mem' S = nodes mem S := by
  funext x
  unfold nodes
  split
  · rename_i hx
    rw [nodeAt, nodeAt, h _ ⟨x, hx, .inl rfl⟩, h _ ⟨x, hx, .inr rfl⟩]
  · rfl

theorem nodes_of_mem (h : x ∈ S) : nodes mem S x = nodeAt mem x := if_pos h

theorem nodes_of_not_mem (h : x ∉ S) : nodes mem S x = .free := if_neg h

theorem nodes_diff : nodes mem (S \ {x}) = Function.update (nodes mem S) x .free := by
  funext y
  by_cases hyx : y = x
  · subst hyx
    rw [Function.update_self, nodes_of_not_mem (by simp)]
  · rw [Function.update_of_ne hyx]
    by_cases hy : y ∈ S
    · have hyd : y ∈ S \ {x} := ⟨hy, hyx⟩
      rw [nodes_of_mem hy, nodes_of_mem hyd]
    · rw [nodes_of_not_mem hy, nodes_of_not_mem fun h : y ∈ S \ {x} => hy h.1]

variable (mem) in
theorem nodes_update (h : ∀ z, LinkWord (S \ {x}) z → mem' z = mem z) :
    nodes mem' (insert x S) = Function.update (nodes mem S) x (nodeAt mem' x) := by
  funext y
  by_cases hyx : y = x
  · subst hyx
    rw [Function.update_self, nodes_of_mem (Set.mem_insert y S)]
  · rw [Function.update_of_ne hyx]
    by_cases hy : y ∈ S
    · rw [nodes_of_mem hy, nodes_of_mem (Set.mem_insert_of_mem x hy), nodeAt, nodeAt,
        h _ ⟨y, ⟨hy, hyx⟩, .inl rfl⟩, h _ ⟨y, ⟨hy, hyx⟩, .inr rfl⟩]
    · rw [nodes_of_not_mem hy, nodes_of_not_mem]
      simp [hyx, hy]

theorem Apart.linkWord_ne (hS : Apart (insert x S)) (hz : LinkWord (S \ {x}) z) :
    z ≠ x + 8 ∧ z ≠ x + 12 := by
  obtain ⟨y, ⟨hy, hyx⟩, hz⟩ := hz
  have hapart := hS.apart y (Set.mem_insert_of_mem x hy) x (Set.mem_insert x S) hyx
  omega

theorem nodes_writeNode (hS : Apart (insert x S)) :
    nodes (writeNode mem x p n) (insert x S) = Function.update (nodes mem S) x ⟨ptr p, ptr n⟩ := by
  rw [nodes_update mem, nodeAt, writeNode]
  · simp
  · intro z hz
    have hne := hS.linkWord_ne hz
    rw [writeNode, Function.update_of_ne hne.2, Function.update_of_ne hne.1]

theorem nodes_setPrevAt (hS : Apart S) (hq : ∀ y, ptr q = some y → y ∈ S) :
    nodes (setPrevAt mem q p) S = setPrev (nodes mem S) (ptr q) (ptr p) := by
  cases hp : ptr q with
  | none =>
    rw [setPrevAt, if_pos (ptr_eq_none.mp hp)]
    rfl
  | some y =>
    have hy := hq y hp
    have hins : insert y S = S := Set.insert_eq_of_mem hy
    have hnode : nodes (Function.update mem (y + 8) p) (insert y S) = _ :=
      nodes_update mem fun z hz =>
        Function.update_of_ne (Apart.linkWord_ne (by rwa [hins]) hz).1 ..
    rw [setPrevAt, if_neg fun h => by simp [h] at hp, toNat_of_ptr hp]
    simpa [hins, setPrev, nodes_of_mem hy, nodeAt] using hnode

theorem nodes_setNextAt (hS : Apart S) (hq : ∀ y, ptr q = some y → y ∈ S) :
    nodes (setNextAt mem q n) S = setNext (nodes mem S) (ptr q) (ptr n) := by
  cases hp : ptr q with
  | none =>
    rw [setNextAt, if_pos (ptr_eq_none.mp hp)]
    rfl
  | some y =>
    have hy := hq y hp
    have hins : insert y S = S := Set.insert_eq_of_mem hy
    have hnode : nodes (Function.update mem (y + 12) n) (insert y S) = _ :=
      nodes_update mem fun z hz =>
        Function.update_of_ne (Apart.linkWord_ne (by rwa [hins]) hz).2 ..
    rw [setNextAt, if_neg fun h => by simp [h] at hp, toNat_of_ptr hp]
    simpa [hins, setNext, nodes_of_mem hy, nodeAt] using hnode

theorem setPrevAt_other (hS : Apart (insert x S)) (hq : ∀ y, ptr q = some y → y ∈ S ∧ y ≠ x)
    (hz : z = x + 8 ∨ z = x + 12) : setPrevAt mem q p z = mem z := by
  cases hy : ptr q with
  | none => rw [setPrevAt, if_pos (ptr_eq_none.mp hy)]
  | some y =>
    have hne := hS.linkWord_ne (z := y + 8) ⟨y, hq y hy, .inl rfl⟩
    rw [setPrevAt, if_neg fun h => by simp [h] at hy, toNat_of_ptr hy,
      Function.update_of_ne (by omega)]

theorem setNextAt_other (hS : Apart (insert x S)) (hq : ∀ y, ptr q = some y → y ∈ S ∧ y ≠ x)
    (hz : z = x + 8 ∨ z = x + 12) : setNextAt mem q n z = mem z := by
  cases hy : ptr q with
  | none => rw [setNextAt, if_pos (ptr_eq_none.mp hy)]
  | some y =>
    have hne := hS.linkWord_ne (z := y + 12) ⟨y, hq y hy, .inr rfl⟩
    rw [setNextAt, if_neg fun h => by simp [h] at hy, toNat_of_ptr hy,
      Function.update_of_ne (by omega)]

theorem setPrevAt_frame (hS : ∀ y, ptr q = some y → y ∈ S) (hz : ¬LinkWord S z) :
    setPrevAt mem q p z = mem z := by
  unfold setPrevAt
  split
  · rfl
  · rename_i hq
    refine Function.update_of_ne ?_ _ _
    rintro rfl
    exact hz ⟨q.toNat, hS _ (by rw [ptr, if_neg hq]), .inl rfl⟩

theorem setNextAt_frame (hS : ∀ y, ptr q = some y → y ∈ S) (hz : ¬LinkWord S z) :
    setNextAt mem q n z = mem z := by
  unfold setNextAt
  split
  · rfl
  · rename_i hq
    refine Function.update_of_ne ?_ _ _
    rintro rfl
    exact hz ⟨q.toNat, hS _ (by rw [ptr, if_neg hq]), .inr rfl⟩

theorem writeNode_frame (hx : x ∈ S) (hz : ¬LinkWord S z) : writeNode mem x p n z = mem z := by
  rw [writeNode, Function.update_of_ne, Function.update_of_ne]
  · rintro rfl
    exact hz ⟨x, hx, .inl rfl⟩
  · rintro rfl
    exact hz ⟨x, hx, .inr rfl⟩

end

-- ---------------------------------------------------------------------------
-- Whole operations
-- ---------------------------------------------------------------------------

section
variable {head : ι → BitVec 32} {mem mem' : Nat → BitVec 32} {L : ι → List Nat} {i j : ι}
  {x y : Nat} {xs : List Nat}

theorem Threaded.congr (h : Threaded head mem L)
    (hm : ∀ z, LinkWord (Members L) z → mem' z = mem z) : Threaded head mem' L :=
  ⟨by rw [nodes_congr hm]; exact h.models, h.apart⟩

theorem Threaded.empty : Threaded (fun _ : ι => 0#32) mem fun _ => [] where
  models := by
    have hnone : Members (fun _ : ι => ([] : List Nat)) = ∅ := by simp [Members]
    have hfree : nodes mem ∅ = fun _ => Node.free := funext fun _ => nodes_of_not_mem (by simp)
    rw [hnone, hfree]
    exact .empty
  apart := ⟨by simp [Members], by simp [Members], by simp [Members]⟩

theorem Threaded.head_eq (h : Threaded head mem L) : ptr (head i) = (L i).head? :=
  h.models.head_eq

theorem Threaded.head_mem (h : Threaded head mem L) (hy : ptr (head i) = some y) : y ∈ L i := by
  rw [h.head_eq] at hy
  exact List.mem_of_mem_head? hy

theorem Threaded.nil_iff (h : Threaded head mem L) : head i = 0#32 ↔ L i = [] := by
  rw [← ptr_eq_none, h.head_eq, List.head?_eq_none_iff]

theorem Threaded.links (h : Threaded head mem L) (hx : x ∈ L i) :
    (∀ y, ptr (mem (x + 8)) = some y → y ∈ L i ∧ y ≠ x) ∧
      ∀ y, ptr (mem (x + 12)) = some y → y ∈ L i ∧ y ≠ x := by
  obtain ⟨u, v, hl⟩ := List.append_of_mem hx
  have hself : nodes mem (Members L) x = nodeAt mem x := nodes_of_mem (Exists.intro i hx)
  have hnode : nodes mem (Members L) x = _ := (h.models.chain i).2 u x v hl
  have hne : _ ∧ _ := h.models.links_ne x
  rw [hself] at hnode
  simp only [hself] at hne
  have hprev : ptr (mem (x + 8)) = u.getLast? := congrArg Node.prev hnode
  have hnext : ptr (mem (x + 12)) = v.head? := congrArg Node.next hnode
  refine ⟨fun y hy => ⟨?_, ?_⟩, fun y hy => ⟨?_, ?_⟩⟩
  · rw [hl]
    exact List.mem_append_left _ (List.mem_of_mem_getLast? (hprev ▸ hy))
  · rintro rfl
    exact hne.1 hy
  · rw [hl]
    exact List.mem_append_right _ (List.mem_cons_of_mem _ (List.mem_of_mem_head? (hnext ▸ hy)))
  · rintro rfl
    exact hne.2 hy

variable [DecidableEq ι]

theorem members_insert : Members (Function.update L i (x :: L i)) = insert x (Members L) := by
  ext y
  constructor
  · rintro ⟨j, hj⟩
    by_cases hji : j = i
    · subst hji
      rw [Function.update_self] at hj
      rcases List.mem_cons.mp hj with rfl | hj
      · exact Set.mem_insert _ _
      · exact Set.mem_insert_of_mem _ ⟨j, hj⟩
    · rw [Function.update_of_ne hji] at hj
      exact Set.mem_insert_of_mem _ ⟨j, hj⟩
  · rintro (rfl | ⟨j, hj⟩)
    · exact ⟨i, by simp⟩
    · by_cases hji : j = i
      · subst hji
        exact ⟨j, by simp [hj]⟩
      · exact ⟨j, by rwa [Function.update_of_ne hji]⟩

theorem Threaded.mem_erase (h : Threaded head mem L) (hx : x ∈ L i) :
    y ∈ Function.update L i ((L i).erase x) j ↔ y ∈ L j ∧ y ≠ x := by
  by_cases hji : j = i
  · subst hji
    rw [Function.update_self, (h.models.nodup j).mem_erase_iff, and_comm]
  · rw [Function.update_of_ne hji]
    refine ⟨fun hy => ⟨hy, ?_⟩, And.left⟩
    rintro rfl
    exact hji (h.models.apart j i y hy hx)

theorem Threaded.members_erase (h : Threaded head mem L) (hx : x ∈ L i) :
    Members (Function.update L i ((L i).erase x)) = Members L \ {x} := by
  ext y
  constructor
  · rintro ⟨j, hj⟩
    obtain ⟨hy, hyx⟩ := (h.mem_erase hx).mp hj
    exact ⟨⟨j, hy⟩, hyx⟩
  · rintro ⟨⟨j, hj⟩, hyx⟩
    exact ⟨j, (h.mem_erase hx).mpr ⟨hj, hyx⟩⟩

theorem Threaded.pushFront (h : Threaded head mem L) (hx : ∀ j, x ∉ L j)
    (hA : Apart (insert x (Members L))) :
    Threaded (Function.update head i (BitVec.ofNat 32 x))
      (setPrevAt (writeNode mem x 0#32 (head i)) (head i) (BitVec.ofNat 32 x))
      (Function.update L i (x :: L i)) := by
  have hmem : x ∈ insert x (Members L) := Set.mem_insert _ _
  have hptr : ptr (BitVec.ofNat 32 x) = some x :=
    ptr_ofNat (hA.pos x hmem) (Nat.lt_of_lt_of_le (by omega) (hA.top x hmem))
  have hne : ptr (head i) ≠ some x := fun he => hx i (h.head_mem he)
  have hfree : nodes mem (Members L) x = .free := h.models.free x hx
  refine ⟨?_, by rwa [members_insert]⟩
  have hpush := h.models.pushFront (i := i) hx
  convert hpush using 1
  simp only [Lists.pushFront, Lists.mk.injEq]
  constructor
  · funext j
    by_cases hj : j = i
    · subst hj
      simp [hptr]
    · simp [hj]
  · rw [members_insert, nodes_setPrevAt hA, nodes_writeNode hA, hptr,
      setPrev_other _ hne, hfree]
    · cases hy : ptr (head i) with
      | none => rfl
      | some y =>
        have hyx : y ≠ x := fun he => hne (he ▸ hy)
        simp only [setPrev, Function.update_of_ne hyx]
        rw [Function.update_comm hyx]
        rfl
    · exact fun y hy => Set.mem_insert_of_mem _ ⟨i, h.head_mem hy⟩

theorem Threaded.unlink (h : Threaded head mem L) (hx : x ∈ L i)
    (hm : ∀ z, z ≠ x + 8 → z ≠ x + 12 →
      mem' z = setNextAt (setPrevAt mem (mem (x + 12)) (mem (x + 8))) (mem (x + 8)) (mem (x + 12)) z) :
    Threaded (if head i = BitVec.ofNat 32 x then Function.update head i (mem (x + 12)) else head)
      mem' (Function.update L i ((L i).erase x)) := by
  have hmem : x ∈ Members L := ⟨i, hx⟩
  have hins : insert x (Members L) = Members L := Set.insert_eq_of_mem hmem
  have hself : nodes mem (Members L) x = nodeAt mem x := nodes_of_mem hmem
  have hnext : ∀ y, ptr (mem (x + 12)) = some y → y ∈ Members L := fun y hy =>
    ⟨i, ((h.links hx).2 y hy).1⟩
  have hprev : ∀ y, ptr (mem (x + 8)) = some y → y ∈ Members L := fun y hy =>
    ⟨i, ((h.links hx).1 y hy).1⟩
  have hnode : nodes mem' (Members L \ {x}) = Function.update (setNext (setPrev
      (nodes mem (Members L)) (ptr (mem (x + 12))) (ptr (mem (x + 8)))) (ptr (mem (x + 8)))
      (ptr (mem (x + 12)))) x .free := by
    rw [← nodes_setPrevAt h.apart hnext, ← nodes_setNextAt h.apart hprev, ← nodes_diff]
    refine nodes_congr fun z hz => ?_
    have hne := Apart.linkWord_ne (by rw [hins]; exact h.apart) hz
    exact hm z hne.1 hne.2
  have hother : setPrev (nodes mem (Members L)) (ptr (mem (x + 12))) (ptr (mem (x + 8))) x =
      nodeAt mem x := by
    rw [setPrev_other _ fun hy => ((h.links hx).2 x hy).2 rfl, hself]
  have hhead : ptr (head i) = some x ↔ head i = BitVec.ofNat 32 x := by
    rw [ptr_eq_some]
    have htop := h.apart.top x hmem
    exact ⟨And.left, fun he => ⟨he, h.apart.pos x hmem, by omega⟩⟩
  refine ⟨?_, by rw [h.members_erase hx]; exact h.apart.mono Set.sdiff_subset⟩
  have hun := h.models.unlink_erase (i := i) fun j hj => h.models.apart j i x hj hx
  convert hun using 1
  rw [h.members_erase hx, hnode]
  simp only [Lists.unlink, hself, nodeAt, hother, Lists.mk.injEq, hhead, and_true]
  split
  · funext j
    by_cases hj : j = i
    · subst hj
      rw [Function.update_self, Function.update_self,
        setNext_other _ fun hy => ((h.links hx).1 x hy).2 rfl, hother, nodeAt]
    · rw [Function.update_of_ne hj, Function.update_of_ne hj]
  · rfl

theorem Threaded.popFront (h : Threaded head mem L) (hl : L i = x :: xs)
    (hm : ∀ z, z ≠ x + 8 → z ≠ x + 12 → mem' z = setPrevAt mem (mem (x + 12)) 0#32 z) :
    Threaded (Function.update head i (mem (x + 12))) mem' (Function.update L i xs) := by
  have hx : x ∈ L i := by rw [hl]; exact List.mem_cons_self
  have hmem : x ∈ Members L := ⟨i, hx⟩
  have hins : insert x (Members L) = Members L := Set.insert_eq_of_mem hmem
  have hself : nodes mem (Members L) x = nodeAt mem x := nodes_of_mem hmem
  have hnext : ∀ y, ptr (mem (x + 12)) = some y → y ∈ Members L := fun y hy =>
    ⟨i, ((h.links hx).2 y hy).1⟩
  have hxs : xs = (L i).erase x := by rw [hl, List.erase_cons_head]
  have hnode : nodes mem' (Members L \ {x}) =
      Function.update (setPrev (nodes mem (Members L)) (ptr (mem (x + 12))) none) x .free := by
    rw [← ptr_zero, ← nodes_setPrevAt h.apart hnext, ← nodes_diff]
    refine nodes_congr fun z hz => ?_
    have hne := Apart.linkWord_ne (by rw [hins]; exact h.apart) hz
    exact hm z hne.1 hne.2
  obtain ⟨w, hw, hpop⟩ := h.models.popFront_cons hl
  have hhead : ptr (head i) = some x := by rw [h.head_eq, hl]; rfl
  simp only [Lists.popFront, hhead, Prod.mk.injEq, true_and] at hw
  subst hw
  subst hxs
  refine ⟨?_, by rw [h.members_erase hx]; exact h.apart.mono Set.sdiff_subset⟩
  convert hpop using 1
  rw [h.members_erase hx, hnode]
  simp only [hself, nodeAt, Lists.mk.injEq, and_true]
  funext j
  by_cases hj : j = i
  · subst hj
    simp
  · simp [hj]

end

end ThreadedLists
