import Mathlib.Data.Fintype.Option
import Xmertl.Lib.IntrusiveList
import Xmertl.Lib.Runs
import Xmertl.Lib.StableInsert

/-!
# The list of the domains

`xm_domain_list`, as `domain.h` links and unlinks domains, with the system calls that load
and unload them. What loading does besides is in its result: an error after `create_domain`
ends in `destroy_domain`.

`live` is a ghost record of the domains there are, in the order of their creation.
-/

namespace Xmertl.Xtratum

open Runs IntrusiveList

/-- `min_priority ()`, the root domain's. -/
def minPriority : Nat := 1023

def maxPriority : Nat := 0

inductive XmError
  | onlyRootDomainCall | badPriority | outOfMemory | enodev | einval | rootCannotBeUnloaded
  | domainNotFound
  deriving DecidableEq

structure DomainList (D : Type) where
  list : Lists Unit D
  priority : D → Nat
  id : D → BitVec 32
  idNumber : BitVec 32
  root : D
  live : List D

namespace DomainList

variable {D : Type}

/-- The element at which the loop of `insert_domain_list` stops. -/
def insertPoint (w : Lists Unit D) (priority : D → Nat) (node : D) : Nat → D → Option D
  | 0, _ => none
  | n + 1, p1 =>
    match (w.node p1).next with
    | none => some p1
    | some next =>
      if priority node < priority p1 then some p1 else insertPoint w priority node n next

/-- The loop of `search_domain_id_list`. -/
def searchFrom (w : Lists Unit D) (id : D → BitVec 32) (n : BitVec 32) : Nat → Option D → Option D
  | 0, _ => none
  | _ + 1, none => none
  | k + 1, some p1 => if id p1 = n then some p1 else searchFrom w id n k (w.node p1).next

variable [DecidableEq D]

/-- A list that is not empty takes `node` before or behind `p1`. -/
def linkAt (w : Lists Unit D) (priority : D → Nat) (node p1 : D) : Lists Unit D :=
  if priority node < priority p1 then
    let n := Function.update w.node node ⟨(w.node p1).prev, some p1⟩
    let n := setNext n (n p1).prev (some node)
    let n := setPrev n (some p1) (some node)
    { head := if w.head () = some p1 then fun _ => some node else w.head, node := n }
  else
    let n := Function.update w.node node ⟨some p1, (w.node p1).next⟩
    let n := setPrev n (n p1).next (some node)
    let n := setNext n (some p1) (some node)
    { head := w.head, node := n }

def insertDomainList [Fintype D] (w : Lists Unit D) (priority : D → Nat) (node : D) :
    Option (Lists Unit D) :=
  match w.head () with
  | none => some { head := fun _ => some node, node := Function.update w.node node .free }
  | some p1 =>
    (insertPoint w priority node (Fintype.card D) p1).map (linkAt w priority node)

def removeDomainList (w : Lists Unit D) (node : D) : Lists Unit D :=
  let n := setNext w.node (w.node node).prev (w.node node).next
  let n := setPrev n (n node).next (n node).prev
  { head := if w.head () = some node then fun _ => (w.node node).next else w.head, node := n }

/-- `__create_domain_node`, with the structure that it gets. -/
def createDomainNode (x : DomainList D) (d : D) (priority : Nat) : DomainList D :=
  { x with
    priority := Function.update x.priority d priority
    id := Function.update x.id d x.idNumber
    idNumber := x.idNumber + 1 }

def createDomain [Fintype D] (x : DomainList D) (d : D) (priority : Nat) :
    Option (DomainList D) :=
  let x := x.createDomainNode d priority
  (insertDomainList x.list x.priority d).map fun list => { x with list, live := x.live ++ [d] }

/-- The links of a structure that is free do not count. -/
def destroyDomain (x : DomainList D) (d : D) : DomainList D :=
  let list := removeDomainList x.list d
  { x with
    list := { list with node := Function.update list.node d .free }
    live := x.live.erase d }

variable [Fintype D]

/-- A null domain cannot be linked. `rest` is the error that the rest of the call ends in. -/
def loadDomainSys (x : DomainList D) (current : D) (prio : Int) (d : Option D)
    (rest : Option XmError) : Option (DomainList D × Except XmError (BitVec 32)) :=
  if current ≠ x.root then some (x, .error .onlyRootDomainCall)
  else if prio > minPriority ∨ prio < maxPriority then some (x, .error .badPriority)
  else
    match d with
    | none => none
    | some d =>
      if d ∈ x.live then none
      else
        (x.createDomain d prio.toNat).map fun y =>
          match rest with
          | none => (y, .ok (y.id d))
          | some e => (y.destroyDomain d, .error e)

def unloadDomainSys (x : DomainList D) (current : D) (id : BitVec 32) :
    DomainList D × Except XmError Unit :=
  if current ≠ x.root then (x, .error .onlyRootDomainCall)
  else if id = 0 then (x, .error .rootCannotBeUnloaded)
  else
    match searchFrom x.list x.id id (Fintype.card D + 1) (x.list.head ()) with
    | none => (x, .error .domainNotFound)
    | some d => (x.destroyDomain d, .ok ())

inductive Act (D : Type)
  | load (current : D) (prio : Int) (d : Option D) (rest : Option XmError)
  | unload (current : D) (id : BitVec 32)

def step (x : DomainList D) : Act D → Option (DomainList D)
  | .load current prio d rest => (x.loadDomainSys current prio d rest).map Prod.fst
  | .unload current id => some (x.unloadDomainSys current id).1

def init (root : D) : Option (DomainList D) :=
  createDomain
    { list := ⟨fun _ => none, fun _ => .free⟩, priority := fun _ => 0, id := fun _ => 0
      idNumber := 0, root, live := [] } root minPriority

-- ---------------------------------------------------------------------------
-- The pointers
-- ---------------------------------------------------------------------------

section
variable {w : Lists Unit D} {L : List D} {priority : D → Nat} {x y : D}

omit [DecidableEq D] [Fintype D] in
theorem insertPoint_spec (priority : D → Nat) (x : D) (hm : Models w fun _ => L) (hl : L = a ++ y :: b) (hn : b.length < n)
    (ha : ∀ z ∈ a, priority z ≤ priority x) :
    ∃ u p v, insertPoint w priority x n y = some p ∧ L = u ++ p :: v ∧
      (∀ z ∈ u, priority z ≤ priority x) ∧
        (priority x < priority p ∨ v = [] ∧ priority p ≤ priority x) := by
  induction b generalizing a y n with
  | nil =>
    have hnode : w.node y = ⟨a.getLast?, none⟩ := (hm.chain ()).2 a y [] hl
    obtain ⟨n, rfl⟩ := Nat.exists_eq_succ_of_ne_zero (Nat.ne_of_gt hn)
    refine ⟨a, y, [], by simp [insertPoint, hnode], hl, ha, ?_⟩
    rcases Nat.lt_or_ge (priority x) (priority y) with hlt | hge
    · exact .inl hlt
    · exact .inr ⟨rfl, hge⟩
  | cons z b ih =>
    have hnode : w.node y = ⟨a.getLast?, some z⟩ := (hm.chain ()).2 a y (z :: b) hl
    obtain ⟨n, rfl⟩ := Nat.exists_eq_succ_of_ne_zero (Nat.ne_of_gt (Nat.zero_lt_of_lt hn))
    by_cases hlt : priority x < priority y
    · exact ⟨a, y, z :: b, by simp [insertPoint, hnode, hlt], hl, ha, .inl hlt⟩
    · have hstep : insertPoint w priority x (n + 1) y = insertPoint w priority x n z := by
        simp [insertPoint, hnode, hlt]
      rw [hstep]
      refine ih (a := a ++ [y]) (by simp [hl]) (Nat.lt_of_succ_lt_succ hn) fun q hq => ?_
      rcases List.mem_append.mp hq with hq | hq
      · exact ha q hq
      · rw [List.mem_singleton.mp hq]
        exact Nat.not_lt.mp hlt

omit [DecidableEq D] [Fintype D] in
theorem update_only (L l : List D) : Function.update (fun _ : Unit => L) () l = fun _ => l :=
  funext fun _ => Function.update_self _ _ _

omit [Fintype D] in
theorem setNext_update (node : D → Node D) (hy : y ≠ x) :
    setNext (Function.update node x n) q s y = setNext node q s y := by
  cases q with
  | none => simp [setNext, hy]
  | some z =>
    by_cases hyz : y = z
    · subst hyz; simp [setNext, hy]
    · simp [setNext, hy, hyz]

omit [Fintype D] in
theorem setPrev_eq {node node' : D → Node D} (h : node y = node' y) :
    setPrev node q s y = setPrev node' q s y := by
  cases q with
  | none => exact h
  | some z =>
    by_cases hyz : y = z
    · subst hyz; simp [setPrev, h]
    · simpa [setPrev, hyz] using h

omit [Fintype D] in
theorem linkAt_before (hm : Models w fun _ => L) (hx : x ∉ L) (hl : L = u ++ y :: v)
    (hlt : priority x < priority y) :
    Models (linkAt w priority x y) fun _ => u ++ x :: y :: v := by
  have hnode : w.node y = ⟨u.getLast?, v.head?⟩ := (hm.chain ()).2 u y v hl
  have hyx : y ≠ x := fun h => hx (by simp [hl, ← h])
  have hux : u.getLast? ≠ some x := fun h => hx (by simp [hl, List.mem_of_mem_getLast? h])
  have hself : Function.update w.node x (⟨u.getLast?, some y⟩ : Node D) y = w.node y :=
    Function.update_of_ne hyx _ _
  rw [← update_only L]
  refine hm.insert (fun _ => hx) hl ?_ (fun z hzx => ?_) fun j => ?_
  · simp only [linkAt, hlt, if_true, hnode, hself]
    rw [setPrev_other _ (by simpa using hyx), setNext_other _ hux]
    simp
  · simp only [linkAt, hlt, if_true, hnode, hself, List.head?_cons]
    exact setPrev_eq (setNext_update w.node hzx)
  · have hhead : w.head () = (u ++ y :: v).head? := by rw [hm.head_eq, hl]
    simp only [linkAt, hlt, if_true, hhead]
    cases u with
    | nil => simp
    | cons z u =>
      have hzy : z ≠ y := by
        rintro rfl
        have hnd := hm.nodup ()
        simp [hl] at hnd
      simp [hzy, hhead]

omit [Fintype D] in
theorem linkAt_behind (hm : Models w fun _ => L) (hx : x ∉ L) (hl : L = u ++ [y])
    (hge : ¬priority x < priority y) :
    Models (linkAt w priority x y) fun _ => L ++ [x] := by
  have hnode : w.node y = ⟨u.getLast?, none⟩ := (hm.chain ()).2 u y [] hl
  have hyx : y ≠ x := fun h => hx (by simp [hl, ← h])
  have hlast : L.getLast? = some y := by simp [hl]
  have hself : Function.update w.node x (⟨some y, none⟩ : Node D) y = w.node y :=
    Function.update_of_ne hyx _ _
  rw [← update_only L]
  refine hm.insert (u := L) (v := []) (fun _ => hx) (by simp) ?_ (fun z hzx => ?_) fun j => ?_
  · simp only [linkAt, hge, if_false, hnode, hself, setPrev]
    rw [setNext_other _ (by simpa using hyx)]
    simp [hlast]
  · simp only [linkAt, hge, if_false, hnode, hself, setPrev, hlast, List.head?_nil]
    exact setNext_update w.node hzx
  · have hhead : w.head () = L.head? := hm.head_eq
    simp [linkAt, hge, hhead, hl]

theorem insertDomainList_models (priority : D → Nat) (hm : Models w fun _ => L) (hx : x ∉ L) :
    ∃ w', insertDomainList w priority x = some w' ∧
      Models w' fun _ => StableInsert.insert priority x L := by
  cases L with
  | nil =>
    have hhead : w.head () = none := hm.head_eq
    refine ⟨_, by rw [insertDomainList, hhead], ?_⟩
    rw [StableInsert.insert, List.orderedInsert_nil, ← update_only []]
    refine hm.insert (u := []) (v := []) (fun _ => hx) rfl (by simp [Node.free])
      (fun z hzx => by simp [hzx, setPrev, setNext]) fun j => by simp
  | cons y b =>
    have hhead : w.head () = some y := hm.head_eq
    have hcard : b.length < Fintype.card D := by
      have hlen := (hm.nodup ()).length_le_card
      exact hlen
    obtain ⟨u, p, v, hpoint, hl, hu, hp⟩ :=
      insertPoint_spec priority x hm (a := []) rfl hcard (by simp)
    refine ⟨linkAt w priority x p, by simp [insertDomainList, hhead, hpoint], ?_⟩
    rcases hp with hlt | ⟨rfl, hge⟩
    · rw [hl, StableInsert.insert_before hu hlt]
      exact linkAt_before hm hx hl hlt
    · rw [StableInsert.insert_last]
      · exact linkAt_behind hm hx hl (Nat.not_lt.mpr hge)
      · intro z hz
        rw [hl] at hz
        rcases List.mem_append.mp hz with hz | hz
        · exact hu z hz
        · rw [List.mem_singleton.mp hz]
          exact hge

omit [Fintype D] in
theorem removeDomainList_models (hm : Models w fun _ => L) (x : D) :
    Models { removeDomainList w x with
      node := Function.update (removeDomainList w x).node x .free } fun _ => L.erase x := by
  obtain ⟨hprev, hnext⟩ := hm.links_ne x
  have hput := hm.unlink_erase (i := ()) (x := x) fun _ _ => rfl
  rw [update_only] at hput
  refine (congrArg (Models · fun _ => L.erase x) ?_).mp hput
  simp only [Lists.unlink, removeDomainList, setPrev_other _ hnext, setNext_other _ hprev,
    setPrev_setNext]
  congr 1

omit [DecidableEq D] [Fintype D] in
theorem searchFrom_models {id : D → BitVec 32} (hm : Models w fun _ => L) (hl : L = a ++ b)
    (hn : b.length < n) : searchFrom w id k n b.head? = b.find? (id · = k) := by
  induction b generalizing a n with
  | nil =>
    obtain ⟨n, rfl⟩ := Nat.exists_eq_succ_of_ne_zero (Nat.ne_of_gt hn)
    rfl
  | cons y b ih =>
    obtain ⟨n, rfl⟩ := Nat.exists_eq_succ_of_ne_zero (Nat.ne_of_gt (Nat.zero_lt_of_lt hn))
    have hnode : w.node y = ⟨a.getLast?, b.head?⟩ := (hm.chain ()).2 a y b hl
    by_cases hk : id y = k
    · simp [searchFrom, hk]
    · have hrest := ih (a := a ++ [y]) (by simp [hl]) (Nat.lt_of_succ_lt_succ hn)
      simp [searchFrom, hk, hnode, hrest]

end

-- ---------------------------------------------------------------------------
-- Loads and unloads
-- ---------------------------------------------------------------------------

/-- The links are those of `L`, which has the live domains by priority. -/
structure Listed (x : DomainList D) (L : List D) : Prop where
  models : Models x.list fun _ => L
  stable : StableInsert.Stable x.priority x.live L
  root : x.root ∈ x.live
  rootPriority : x.priority x.root = minPriority
  rootId : x.id x.root = 0
  least : ∀ d ∈ x.live, x.priority d ≤ minPriority

/-- And the root domain is behind all the others. -/
def WellOrdered (x : DomainList D) : Prop :=
  ∃ L, Models x.list (fun _ => L) ∧ StableInsert.Stable x.priority x.live L ∧
    L.getLast? = some x.root

/-- No domain is loaded with the root domain's priority. -/
def BelowRoot (x : DomainList D) : Act D → Prop
  | .load current prio _ none => current = x.root → prio ≠ minPriority
  | _ => True

instance (x : DomainList D) : DecidablePred x.BelowRoot
  | .load _ _ _ none => inferInstanceAs (Decidable (_ → _))
  | .load _ _ _ (some _) => .isTrue trivial
  | .unload _ _ => .isTrue trivial

section
variable {x y : DomainList D} {L : List D} {d : D}

omit [DecidableEq D] [Fintype D] in
theorem Listed.nodup (h : Listed x L) : x.live.Nodup :=
  h.stable.perm.nodup_iff.mp (h.models.nodup ())

omit [DecidableEq D] [Fintype D] in
theorem Listed.mem (h : Listed x L) : d ∈ L ↔ d ∈ x.live := h.stable.perm.mem_iff

theorem Listed.createDomain (h : Listed x L) (hd : d ∉ x.live) (hp : p ≤ minPriority) :
    ∃ y, x.createDomain d p = some y ∧ y.root = x.root ∧ y.live = x.live ++ [d] ∧
      y.priority d = p ∧ Listed y (StableInsert.insert y.priority d L) := by
  obtain ⟨list, hlist, hmodels⟩ := insertDomainList_models
    (Function.update x.priority d p) h.models (mt h.mem.mp hd)
  have hother : ∀ z ∈ x.live, z ≠ d := fun z hz he => hd (he ▸ hz)
  have hkeep : StableInsert.Stable (Function.update x.priority d p) x.live L :=
    h.stable.congr fun z hz => Function.update_of_ne (hother z hz) _ _
  let y : DomainList D := { x.createDomainNode d p with list, live := x.live ++ [d] }
  have hy : x.createDomain d p = some y := by
    simp [DomainList.createDomain, createDomainNode, hlist, y]
  refine ⟨y, hy, rfl, rfl, Function.update_self _ _ _, hmodels, hkeep.insert, ?_, ?_, ?_,
    fun z hz => ?_⟩
  · exact List.mem_append_left _ h.root
  · exact (Function.update_of_ne (hother _ h.root) _ _).trans h.rootPriority
  · exact (Function.update_of_ne (hother _ h.root) _ _).trans h.rootId
  · rcases List.mem_append.mp hz with hz | hz
    · exact le_of_eq_of_le (Function.update_of_ne (hother z hz) _ _) (h.least z hz)
    · rw [List.mem_singleton.mp hz]
      exact le_of_eq_of_le (Function.update_self _ _ _) hp

omit [Fintype D] in
theorem Listed.destroyDomain (h : Listed x L) (hd : d ≠ x.root) :
    Listed (x.destroyDomain d) (L.erase d) where
  models := removeDomainList_models h.models d
  stable := h.stable.erase h.nodup d
  root := (List.mem_erase_of_ne hd.symm).mpr h.root
  rootPriority := h.rootPriority
  rootId := h.rootId
  least z hz := h.least z (List.mem_of_mem_erase hz)

theorem Listed.createDestroy (h : Listed x L) (hd : d ∉ x.live)
    (hcreate : x.createDomain d p = some y) : (y.destroyDomain d).list = x.list := by
  obtain ⟨list, hlist, hmodels⟩ := insertDomainList_models
    (Function.update x.priority d p) h.models (mt h.mem.mp hd)
  obtain ⟨list', hlist', rfl⟩ := Option.map_eq_some_iff.mp hcreate
  obtain rfl : list' = list := Option.some.inj (hlist'.symm.trans hlist)
  have hgone := removeDomainList_models hmodels d
  rw [StableInsert.insert, List.erase_orderedInsert_of_notMem (mt h.mem.mp hd)] at hgone
  exact hgone.ext h.models

/-- What a load does: nothing, or a domain is there afterwards, or it has been and is gone. -/
theorem Listed.load (h : Listed x L) {rest : Option XmError} {o : Option D}
    (hs : x.loadDomainSys current prio o rest = some (y, r)) :
    (y = x ∧ (current = x.root → prio ≠ minPriority)) ∨ ∃ d, d ∉ x.live ∧ current = x.root ∧
      prio = (y.priority d : Int) ∧ y.root = x.root ∧
        (rest = none ∧ y.live = x.live ++ [d] ∧ Listed y (StableInsert.insert y.priority d L) ∨
          rest ≠ none ∧ Listed y L) := by
  unfold loadDomainSys at hs
  split at hs
  · rename_i hc
    obtain ⟨rfl, -⟩ := Prod.mk.inj (Option.some.inj hs)
    exact .inl ⟨rfl, fun he => absurd he hc⟩
  rename_i hc
  split at hs
  · rename_i hp
    obtain ⟨rfl, -⟩ := Prod.mk.inj (Option.some.inj hs)
    refine .inl ⟨rfl, fun _ => ?_⟩
    unfold minPriority maxPriority at hp
    unfold minPriority
    omega
  rename_i hp
  have hprio : (prio.toNat : Int) = prio ∧ prio.toNat ≤ minPriority := by
    unfold minPriority maxPriority at hp
    unfold minPriority
    omega
  cases o with
  | none => cases hs
  | some d =>
    simp only [Option.ite_none_left_eq_some] at hs
    obtain ⟨hd, hs⟩ := hs
    obtain ⟨z, hz, hroot, hlive, hpz, hlisted⟩ := h.createDomain hd hprio.2
    rw [hz] at hs
    have hs := Option.some.inj hs
    refine .inr ⟨d, hd, not_not.mp hc, ?_⟩
    cases rest with
    | none =>
      obtain ⟨rfl, -⟩ := Prod.mk.inj hs
      exact ⟨by rw [hpz, hprio.1], hroot, .inl ⟨rfl, hlive, hlisted⟩⟩
    | some e =>
      obtain ⟨rfl, -⟩ := Prod.mk.inj hs
      have hne : d ≠ z.root := fun he => hd (by rw [he, hroot]; exact h.root)
      have hgone := hlisted.destroyDomain hne
      rw [StableInsert.insert, List.erase_orderedInsert_of_notMem (mt h.mem.mp hd)] at hgone
      exact ⟨by rw [← hprio.1, ← hpz]; rfl, hroot, .inr ⟨by simp, hgone⟩⟩

theorem Listed.unload (h : Listed x L) (current : D) (id : BitVec 32) :
    (x.unloadDomainSys current id).1 = x ∨ ∃ d ∈ L, d ≠ x.root ∧
      (x.unloadDomainSys current id).1 = x.destroyDomain d := by
  have hlen : L.length < Fintype.card D + 1 :=
    Nat.lt_succ_of_le (h.models.nodup ()).length_le_card
  unfold unloadDomainSys
  split
  · exact .inl rfl
  split
  · exact .inl rfl
  rename_i hid
  rw [h.models.head_eq, searchFrom_models h.models (a := []) rfl hlen]
  cases hf : L.find? (x.id · = id) with
  | none => exact .inl rfl
  | some d =>
    refine .inr ⟨d, List.mem_of_find?_eq_some hf, fun hroot => hid ?_, rfl⟩
    have hfound := List.find?_some hf
    rw [hroot] at hfound
    exact (of_decide_eq_true hfound).symm.trans h.rootId

theorem Listed.step (h : Listed x L) {a : Act D} (hs : x.step a = some y) :
    ∃ L', Listed y L' ∧ y.root = x.root := by
  cases a with
  | load current prio d rest =>
    obtain ⟨⟨z, r⟩, hload, rfl⟩ := Option.map_eq_some_iff.mp hs
    rcases h.load hload with ⟨rfl, -⟩ | ⟨d, -, -, -, hroot, ⟨-, -, hl⟩ | ⟨-, hl⟩⟩
    · exact ⟨L, h, rfl⟩
    · exact ⟨_, hl, hroot⟩
    · exact ⟨_, hl, hroot⟩
  | unload current id =>
    obtain rfl := Option.some.inj hs
    rcases h.unload current id with he | ⟨d, -, hd, he⟩
    · rw [he]
      exact ⟨L, h, rfl⟩
    · rw [he]
      exact ⟨_, h.destroyDomain hd, rfl⟩

theorem init_listed {root : D} (h : init root = some x) : Listed x [root] := by
  have hempty : Models (⟨fun _ => none, fun _ => .free⟩ : Lists Unit D) fun _ => [] := .empty
  obtain ⟨list, hlist, hmodels⟩ := insertDomainList_models (x := root)
    (Function.update (fun _ => 0) root minPriority) hempty List.not_mem_nil
  simp only [init, DomainList.createDomain, createDomainNode, hlist, Option.map_some,
    Option.some.injEq] at h
  subst h
  have hprio : Function.update (fun _ : D => 0) root minPriority root = minPriority :=
    Function.update_self _ _ _
  have hid : Function.update (fun _ : D => (0 : BitVec 32)) root 0 root = 0 :=
    Function.update_self _ _ _
  refine ⟨hmodels, ⟨List.Perm.refl _, List.pairwise_singleton _ _, fun _ => rfl⟩,
    List.mem_singleton_self root, hprio, hid, fun d hd => ?_⟩
  obtain rfl := List.mem_singleton.mp hd
  exact Nat.le_of_eq hprio

theorem createDomain_root (h : x.createDomain d p = some y) :
    y.root = x.root := by
  obtain ⟨list, -, rfl⟩ := Option.map_eq_some_iff.mp h
  rfl

omit [DecidableEq D] [Fintype D] in
theorem WellOrdered.root_last (h : WellOrdered x) : (x.list.node x.root).next = none := by
  obtain ⟨L, hm, -, hlast⟩ := h
  obtain ⟨u, rfl⟩ := List.getLast?_eq_some_iff.mp hlast
  rw [(hm.chain ()).2 u x.root [] rfl]
  rfl

theorem step_ordered (h : Listed x L) (ho : L.getLast? = some x.root) {a : Act D}
    (hc : BelowRoot x a) (hs : x.step a = some y) :
    ∃ L', Listed y L' ∧ L'.getLast? = some y.root := by
  cases a with
  | load current prio o rest =>
    obtain ⟨⟨z, r⟩, hload, rfl⟩ := Option.map_eq_some_iff.mp hs
    rcases h.load hload with ⟨rfl, -⟩ | ⟨d, hd, hcur, hprio, hroot, ⟨rfl, hlive, hl⟩ | ⟨-, hl⟩⟩
    · exact ⟨L, h, ho⟩
    · refine ⟨_, hl, ?_⟩
      obtain ⟨u, rfl⟩ := List.getLast?_eq_some_iff.mp ho
      have hle : z.priority d ≤ minPriority :=
        hl.least d (by rw [hlive]; exact List.mem_append_right _ (List.mem_singleton_self d))
      have hne : z.priority d ≠ minPriority := fun he => hc hcur (by rw [hprio, he])
      rw [hroot]
      refine StableInsert.insert_getLast ?_
      have hmin := hl.rootPriority
      rw [hroot] at hmin
      omega
    · exact ⟨L, hl, by rw [hroot]; exact ho⟩
  | unload current id =>
    obtain rfl := Option.some.inj hs
    rcases h.unload current id with he | ⟨d, -, hd, he⟩
    · rw [he]
      exact ⟨L, h, ho⟩
    · rw [he]
      refine ⟨_, h.destroyDomain hd, ?_⟩
      obtain ⟨u, rfl⟩ := List.getLast?_eq_some_iff.mp ho
      have herase : (u ++ [x.root]).erase d = u.erase d ++ [x.root] := by
        by_cases hdu : d ∈ u
        · exact List.erase_append_left _ hdu
        · rw [List.erase_append_right _ hdu, List.erase_of_not_mem hdu,
            List.erase_of_not_mem (by simpa using hd)]
      rw [herase]
      simp [DomainList.destroyDomain]

theorem step_below (h : Listed x L) {a : Act D} (hs : x.step a = some y) (hy : WellOrdered y) :
    BelowRoot x a := by
  unfold BelowRoot
  split
  · rename_i current prio o
    obtain ⟨⟨z, r⟩, hload, rfl⟩ := Option.map_eq_some_iff.mp hs
    intro hcur hp
    rcases h.load hload with ⟨-, hne⟩ | ⟨d, hd, -, hprio, hroot, ⟨-, hlive, hl⟩ | ⟨hne, -⟩⟩
    · exact hne hcur hp
    · obtain ⟨L', hmodels, -, hlast⟩ := hy
      have hsame : L' = StableInsert.insert z.priority d L :=
        hmodels.unique (i := ()) hl.models
      have hmin : z.priority d = minPriority := by
        rw [hp] at hprio
        exact Int.ofNat_inj.mp hprio.symm
      have hle : ∀ c ∈ L, z.priority c ≤ z.priority d := by
        intro c hc
        rw [hmin]
        exact hl.least c (by rw [hlive]; exact List.mem_append_left _ (h.mem.mp hc))
      rw [hsame, StableInsert.insert_last hle, List.getLast?_concat, hroot] at hlast
      exact hd (by rw [Option.some.inj hlast]; exact h.root)
    · exact hne rfl
  · trivial

end

theorem run_listed {root : D} {x₀ x : DomainList D} (h₀ : init root = some x₀)
    {tr : List (DomainList D × Act D)} (hr : Run step x₀ tr x) : ∃ L, Listed x L := by
  refine hr.invariant (C := fun _ _ => True) (I := fun x => ∃ L, Listed x L)
    ⟨_, init_listed h₀⟩ (fun s a s' hs _ hstep => ?_) (fun _ _ => trivial)
  obtain ⟨L, hl⟩ := hs
  obtain ⟨L', hl', -⟩ := hl.step hstep
  exact ⟨L', hl'⟩

/-- The list is well ordered in every state of a run if and only if no domain is loaded with
the root domain's priority. -/
theorem domain_list_ordered {root : D} {x₀ x : DomainList D} (h₀ : init root = some x₀)
    {tr : List (DomainList D × Act D)} (hr : Run step x₀ tr x) :
    (∀ y, Visited tr x y → WellOrdered y) ↔ ∀ e ∈ tr, BelowRoot e.1 e.2 := by
  refine ⟨fun h e he => ?_, fun hc y hv => ?_⟩
  · obtain ⟨tr', -, hr'⟩ := hr.toVisited (.pre he)
    obtain ⟨L, hl⟩ := run_listed h₀ hr'
    obtain ⟨y, hs, hv⟩ := hr.post_visited he
    exact step_below hl hs (h y hv)
  · have hroot : [root].getLast? = some x₀.root := by
      rw [createDomain_root h₀]
      rfl
    have hall : ∃ L, Listed y L ∧ L.getLast? = some y.root := by
      refine hr.invariant_visited (C := BelowRoot)
        (I := fun x => ∃ L, Listed x L ∧ L.getLast? = some x.root)
        ⟨[root], init_listed h₀, hroot⟩ (fun s a s' hs hc hstep => ?_) hc hv
      obtain ⟨L, hl, hlast⟩ := hs
      exact step_ordered hl hlast hc hstep
    obtain ⟨L, hl, hlast⟩ := hall
    exact ⟨L, hl.models, hl.stable, hlast⟩

/-- Two domains are loaded, the second in front, and the first is unloaded again. -/
theorem domain_list_ordered_run : ∃ x₀ tr x, init (none : Option Bool) = some x₀ ∧
    Run step x₀ tr x ∧ x.live = [none, some true] ∧ ∀ y, Visited tr x y → WellOrdered y := by
  have hrun : ((init (none : Option Bool)).bind fun x₀ => exec step x₀
      [.load none 7 (some (some false)) none, .load none 3 (some (some true)) none,
        .unload none 1]).any fun r =>
      decide ((∀ e ∈ r.1, BelowRoot e.1 e.2) ∧ r.2.live = [none, some true]) := by
    decide +kernel
  rw [Option.any_bind] at hrun
  obtain ⟨x₀, h₀, hexec⟩ := Option.any_eq_true _ _ |>.mp hrun
  obtain ⟨tr, x, hr, hx⟩ := exec_any hexec
  simp only [decide_eq_true_eq] at hx
  exact ⟨x₀, tr, x, h₀, hr, hx.2, (domain_list_ordered h₀ hr).mpr hx.1⟩

/-- A domain of the root domain's priority is loaded, and is behind the root domain. -/
theorem load_behind_root : ∃ x₀ tr x, init false = some x₀ ∧ Run step x₀ tr x ∧
    tr.map Prod.snd = [.load false 1023 (some true) none] ∧
    (x.list.node x.root).next = some true ∧ ¬WellOrdered x := by
  have hrun : ((init false).bind fun x₀ => exec step x₀
      [.load false 1023 (some true) none]).any fun r =>
      decide ((r.2.list.node r.2.root).next = some true) := by
    decide +kernel
  rw [Option.any_bind] at hrun
  obtain ⟨x₀, h₀, hexec⟩ := Option.any_eq_true _ _ |>.mp hrun
  obtain ⟨tr, x, hr, hacts, hx⟩ := exec_any_actions hexec
  simp only [decide_eq_true_eq] at hx
  refine ⟨x₀, tr, x, h₀, hr, hacts, hx, fun ho => ?_⟩
  rw [ho.root_last] at hx
  cases hx

end DomainList

end Xmertl.Xtratum
