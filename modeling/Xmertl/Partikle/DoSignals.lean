import Xmertl.Partikle.SignalMoves

/-!
# Delivery by `do_signals`

A call of `do_signals` runs from the `.gate` on top of its thread's stack until the stack is
back to what was below. In between the handlers run, other threads run, and calls and
interrupts of the thread call `do_signals` again.
-/

namespace Xmertl.Partikle

namespace Signals

open Runs

variable {T : Type} [DecidableEq T]

/-- A call of `do_signals` by `t`, its stack `below` otherwise. -/
structure DoSignals (t : T) (below : List SigFrame) (before begun : Signals T)
    (tr : List (Signals T × SigEvent T)) (after : Signals T) : Prop where
  cur : before.cur = t
  stack : before.stack t = .gate :: below
  enter : before.event (.act .next) = some begun
  run : Run event begun tr after
  inside : ∀ d ∈ tr, below.length < (d.1.stack t).length
  left : (after.stack t).length ≤ below.length

/-- The signals that the call with `below` delivers in a run, in order. -/
def deliveries (t : T) (below : List SigFrame) (tr : List (Signals T × SigEvent T)) :
    List (Fin 32) :=
  tr.reverse.filterMap fun d =>
    if d.1.cur = t ∧ (d.1.stack t).length = below.length + 1 then
      (d.1.delivery d.2).map Prod.fst
    else none

/-- A nested call that was entered with `i` unmasked delivers it, or `sigwait_sys` takes it. -/
def TakenBy (t : T) (below : List SigFrame) (i : Fin 32) (d : Signals T × SigEvent T) : Prop :=
  d.1.cur = t ∧
  ((∃ m, d.1.delivery d.2 = some (i, m) ∧ (unblocked m).Has i ∧
      below.length + 1 < (d.1.stack t).length) ∨
    d.1.sigwaits d.2 = some i)

/-- The event neither goes on with the call's own loop nor installs a mask. -/
def InHandler (t : T) (below : List SigFrame) (d : Signals T × SigEvent T) : Prop :=
  d.1.cur = t → setsMask d.2 = false ∧
    (d.2 = .act .next → below.length + 1 < (d.1.stack t).length)

/-- What a call of `do_signals` does. -/
structure Delivers (t : T) (below : List SigFrame) (before begun : Signals T)
    (tr : List (Signals T × SigEvent T)) (after : Signals T) : Prop where
  once : deliveries t below tr = (List.finRange 32).filter (before.deliverable.Has ·)
  cleared : begun.pending t = before.pending t &&& ~~~before.deliverable
  /-- Of what is pending at some point nothing is lost. -/
  kept : ∀ late d past i, tr = late ++ d :: past → (d.1.pending t).Has i →
    (after.pending t).Has i ∨ ∃ d' ∈ late ++ [d], TakenBy t below i d'
  /-- From the start of a handler, until the thread changes its mask. -/
  blocked : ∀ late d mid start past s m, tr = late ++ d :: mid ++ start :: past →
    start.1.cur = t → (start.1.stack t).length = below.length + 1 →
    start.1.delivery start.2 = some (s, m) → (∀ e ∈ mid, InHandler t below e) →
    ∀ i, (before.mask t).Has i ∨ (start.1.saMask s).Has i ∨ i = s → (d.1.mask t).Has i
  mask : after.mask t = before.mask t
  stack : after.stack t = below

section
variable {x y : Signals T} {t : T} {fs : List SigFrame} {i : Fin 32}

-- ---------------------------------------------------------------------------
-- What is delivered
-- ---------------------------------------------------------------------------

variable {e : SigEvent T} {below above : List SigFrame} {n : Nat} {p m : BitVec 32}
  {past : List (Signals T × SigEvent T)}

omit [DecidableEq T] in
theorem delivery_loop (hx : x.stack x.cur = .loop n p m :: below) :
    x.delivery (.act .next) =
      if h : n < 32 ∧ p &&& 1 ≠ 0 then some (⟨n, h.1⟩, m) else none := by
  unfold delivery
  dsimp only
  rw [hx]

omit [DecidableEq T] in
theorem delivery_of_ne (he : e ≠ .act .next) : x.delivery e = none := by
  unfold delivery
  split
  · exact absurd rfl he
  · rfl

theorem deliveries_cons (t : T) (below : List SigFrame) (x : Signals T) (e : SigEvent T)
    (past : List (Signals T × SigEvent T)) :
    deliveries t below ((x, e) :: past) = deliveries t below past ++
      (if x.cur = t ∧ (x.stack t).length = below.length + 1 then
        (x.delivery e).map Prod.fst else none).toList := by
  unfold deliveries
  rw [List.reverse_cons, List.filterMap_append]
  congr 1

theorem deliveries_quiet (h : x.cur = t → (x.stack t).length = below.length + 1 →
    x.delivery e = none) : deliveries t below ((x, e) :: past) = deliveries t below past := by
  rw [deliveries_cons]
  split
  · rename_i hbase
    rw [h hbase.1 hbase.2]
    exact List.append_nil _
  · exact List.append_nil _

theorem and_one_ne_zero : p &&& 1 ≠ 0 ↔ p.getLsbD 0 = true := by
  have hone : (1 : BitVec 32) = sigBit (0 : Fin 32) := rfl
  rw [show p &&& 1 ≠ 0 ↔ _ from BitVec.ne_zero_iff, hone]
  constructor
  · rintro ⟨i, hi⟩
    obtain ⟨hp, hi⟩ := BitVec.has_and.mp hi
    rw [has_sigBit.mp hi] at hp
    exact hp
  · exact fun h => ⟨0, BitVec.has_and.mpr ⟨h, has_sigBit.mpr rfl⟩⟩

def owed (d : BitVec 32) (n : Nat) : List (Fin 32) := ((List.finRange 32).drop n).filter (d.Has ·)

theorem owed_succ (d : BitVec 32) (hn : n < 32) :
    owed d n = (if d.Has ⟨n, hn⟩ then [⟨n, hn⟩] else []) ++ owed d (n + 1) := by
  unfold owed
  rw [List.drop_eq_getElem_cons (by simpa using hn), List.filter_cons, List.getElem_finRange]
  by_cases h : d.Has ⟨n, hn⟩ <;> simp [h]

theorem owed_done {d : BitVec 32} (h : ¬(n < 32 ∧ d >>> n ≠ 0)) : owed d n = [] := by
  refine List.filter_eq_nil_iff.mpr fun i hi => ?_
  obtain ⟨k, hk, hik⟩ := List.mem_iff_getElem.mp hi
  rw [List.getElem_drop, List.getElem_finRange] at hik
  have hlen : k < 32 - n := by simpa using hk
  have hval : i.val = n + k := by rw [← hik]; rfl
  have hzero : d >>> n = 0 := by
    by_contra hne
    exact h ⟨by omega, hne⟩
  have hbit : (d >>> n).getLsbD k = d.getLsbD i := by
    rw [BitVec.getLsbD_ushiftRight, hval]
  rw [hzero] at hbit
  simpa [BitVec.Has] using hbit.symm

/-- The call's loop is at signal `n`, with `above` on top of it. -/
def At (t : T) (below : List SigFrame) (d m : BitVec 32) (above : List SigFrame) (n : Nat)
    (x : Signals T) : Prop := x.stack t = above ++ .loop n (d >>> n) m :: below

omit [DecidableEq T] in
theorem At.top {d : BitVec 32} {f : SigFrame} {fs : List SigFrame} (h : At t below d m above n x)
    (hx : x.stack t = f :: fs) :
    (above = [] ∧ f = .loop n (d >>> n) m ∧ fs = below) ∨
    ∃ rest, above = f :: rest ∧ fs = rest ++ .loop n (d >>> n) m :: below := by
  unfold At at h
  rw [hx] at h
  cases above with
  | nil => exact .inl ⟨rfl, List.cons.inj h⟩
  | cons g rest =>
    obtain ⟨rfl, hfs⟩ := List.cons.inj h
    exact .inr ⟨rest, rfl, hfs⟩

omit [DecidableEq T] in
theorem At.height {d : BitVec 32} (h : At t below d m above n x) :
    (x.stack t).length = above.length + (below.length + 1) := by
  unfold At at h
  rw [h, List.length_append, List.length_cons]

omit [DecidableEq T] in
theorem At.pop {d : BitVec 32} {f : SigFrame} {fs : List SigFrame} (h : At t below d m above n x)
    (hx : x.stack t = f :: fs) (hf : NoLoop [f]) :
    ∃ rest, above = f :: rest ∧ fs = rest ++ .loop n (d >>> n) m :: below := by
  rcases h.top hx with ⟨-, rfl, -⟩ | hrest
  · exact absurd rfl (hf _ List.mem_cons_self n _ _)
  · exact hrest

/-- The call is not over, and what it has delivered and what it owes are all of `d`. -/
structure Inside (t : T) (below : List SigFrame) (d m : BitVec 32)
    (past : List (Signals T × SigEvent T)) (x : Signals T) (above : List SigFrame) (n : Nat) :
    Prop where
  place : At t below d m above n x
  once : deliveries t below past ++ owed d n = owed d 0

structure Over (t : T) (below : List SigFrame) (d m : BitVec 32)
    (past : List (Signals T × SigEvent T)) (x : Signals T) : Prop where
  stack : x.stack t = below
  mask : x.mask t = m
  once : deliveries t below past = owed d 0

theorem Inside.quiet {d : BitVec 32} {above' : List SigFrame}
    (h : Inside t below d m past x above n) (hy : At t below d m above' n y)
    (he : x.cur = t → above = [] → x.delivery e = none) :
    Inside t below d m ((x, e) :: past) y above' n := by
  refine ⟨hy, ?_⟩
  rw [deliveries_quiet fun hcur hlen => he hcur ?_, h.once]
  have hheight := h.place.height
  exact List.length_eq_zero_iff.mp (by omega)

theorem Inside.event {d : BitVec 32} (h : Inside t below d m past x above n)
    (hs : x.event e = some y) :
    (∃ above' n', Inside t below d m ((x, e) :: past) y above' n') ∨
      Over t below d m ((x, e) :: past) y := by
  cases event_move t hs with
  | other hcur hr =>
    exact .inl ⟨above, n, h.quiet (hr.stack.trans h.place) fun hc _ => delivery_of_ne (hcur hc)⟩
  | calls fs he hcur hloop hstack hmask hpending =>
    have hy : At t below d m (fs ++ above) n y := by
      unfold At
      rw [hstack, h.place, List.append_assoc]
    exact .inl ⟨_, n, h.quiet hy fun _ _ => delivery_of_ne he⟩
  | leaves f fs below' hcur hx hf hloop hwait hstack hmask hpending =>
    obtain ⟨rest, rfl, rfl⟩ := h.place.pop hx hf
    have hy : At t below d m (fs ++ rest) n y := by
      unfold At
      rw [hstack, List.append_assoc]
    exact .inl ⟨_, n, h.quiet hy fun _ hnil => by cases hnil⟩
  | enters below' hcur hx hstack hmask hpending =>
    have hgate : NoLoop [.gate] := noLoop_nil.cons fun _ _ _ h => by cases h
    obtain ⟨rest, rfl, rfl⟩ := h.place.pop hx hgate
    have hy : At t below d m (.loop 0 x.deliverable (x.mask t) :: rest) n y := hstack
    exact .inl ⟨_, n, h.quiet hy fun _ hnil => by cases hnil⟩
  | round k p m' fs below' he hcur hx hk hloop hwait hstack hmask hpending =>
    rcases h.place.top hx with ⟨rfl, hf, rfl⟩ | ⟨rest, rfl, rfl⟩
    · obtain ⟨rfl, rfl, rfl⟩ := SigFrame.loop.inj hf
      have hy : At t below' d m' fs (k + 1) y := by
        unfold At
        rw [hstack, BitVec.shiftRight_add]
      refine .inl ⟨fs, k + 1, hy, ?_⟩
      have honce := h.once
      rw [owed_succ d hk, ← List.append_assoc] at honce
      rw [← honce, deliveries_cons, if_pos ⟨hcur, by rw [hx]; rfl⟩, he,
        delivery_loop (hcur ▸ hx)]
      congr 2
      have hbit : d >>> k &&& 1 ≠ 0 ↔ d.Has ⟨k, hk⟩ := by
        rw [and_one_ne_zero, BitVec.getLsbD_ushiftRight]
        exact Iff.rfl
      by_cases hd : d.Has ⟨k, hk⟩
      · rw [if_pos hd, dif_pos ⟨hk, hbit.mpr hd⟩]
        rfl
      · rw [if_neg hd, dif_neg fun hnot => hd (hbit.mp hnot.2)]
        rfl
    · have hy : At t below d m (fs ++ .loop (k + 1) (p >>> 1) m' :: rest) n y := by
        unfold At
        rw [hstack, List.append_assoc]
        rfl
      exact .inl ⟨_, n, h.quiet hy fun _ hnil => by cases hnil⟩
  | done k p m' below' he hcur hx hk hstack hmask hpending =>
    rcases h.place.top hx with ⟨rfl, hf, rfl⟩ | ⟨rest, rfl, rfl⟩
    · obtain ⟨rfl, rfl, rfl⟩ := SigFrame.loop.inj hf
      refine .inr ⟨hstack, hmask, ?_⟩
      have hnone : x.delivery e = none := by
        rw [he, delivery_loop (hcur ▸ hx), dif_neg]
        rintro ⟨hlt, hbit⟩
        exact hk ⟨hlt, fun hzero => hbit (by rw [hzero]; rfl)⟩
      have honce := h.once
      rw [owed_done hk, List.append_nil] at honce
      rw [deliveries_quiet fun _ _ => hnone, honce]
    · exact .inl ⟨rest, n, h.quiet hstack fun _ hnil => by cases hnil⟩

-- ---------------------------------------------------------------------------
-- What stays pending
-- ---------------------------------------------------------------------------

/-- A nested call has taken `i` and not come to it yet. -/
def Owes (above : List SigFrame) (i : Fin 32) : Prop :=
  ∃ n p m, .loop n p m ∈ above ∧ (p <<< n).Has i ∧ (unblocked m).Has i

def Held (t : T) (below : List SigFrame) (d m : BitVec 32) (i : Fin 32) (x : Signals T) : Prop :=
  (x.pending t).Has i ∨ ∃ above n, At t below d m above n x ∧ Owes above i

theorem Owes.tail {f : SigFrame} (h : Owes (f :: above) i) (hf : NoLoop [f]) : Owes above i := by
  obtain ⟨n, p, m, hmem, hbits⟩ := h
  rcases List.mem_cons.mp hmem with rfl | hmem
  · exact absurd rfl (hf _ List.mem_cons_self n p m)
  · exact ⟨n, p, m, hmem, hbits⟩

theorem Owes.append (h : Owes above i) (fs : List SigFrame) : Owes (fs ++ above) i := by
  obtain ⟨n, p, m, hmem, hbits⟩ := h
  exact ⟨n, p, m, List.mem_append_right fs hmem, hbits⟩

theorem has_shiftLeft : (p <<< n).Has i ↔ n ≤ i.val ∧ p.getLsbD (i.val - n) = true := by
  unfold BitVec.Has
  rw [BitVec.getLsbD_shiftLeft]
  simp [i.isLt]

omit [DecidableEq T] in
theorem deliverable_unblocked (h : x.deliverable.Has i) : (unblocked x.me.sigmask).Has i := by
  unfold deliverable at h
  dsimp only at h
  split at h
  · exact (BitVec.has_and.mp (BitVec.has_and.mp h).1).2
  · exact (BitVec.has_and.mp h).2

omit [DecidableEq T] in
theorem owes_round {k : Nat} {rest : List SigFrame} (hx : x.stack x.cur = .loop k p m :: below)
    (hk : k < 32) (h : Owes (.loop k p m :: rest) i) :
    Owes (.loop (k + 1) (p >>> 1) m :: rest) i ∨
      x.delivery (.act .next) = some (i, m) ∧ (unblocked m).Has i := by
  obtain ⟨n', p', m', hmem, hbits, hmask⟩ := h
  rcases List.mem_cons.mp hmem with heq | hmem
  · obtain ⟨rfl, rfl, rfl⟩ := SigFrame.loop.inj heq
    obtain ⟨hle, hbit⟩ := has_shiftLeft.mp hbits
    by_cases hi : i.val = n'
    · refine .inr ⟨?_, hmask⟩
      rw [hi, Nat.sub_self] at hbit
      rw [delivery_loop hx, dif_pos ⟨hk, and_one_ne_zero.mpr hbit⟩]
      exact congrArg some (Prod.ext (Fin.ext hi.symm) rfl)
    · refine .inl ⟨n' + 1, p' >>> 1, m', List.mem_cons_self,
        has_shiftLeft.mpr ⟨by omega, ?_⟩, hmask⟩
      rw [BitVec.getLsbD_ushiftRight, show 1 + (i.val - (n' + 1)) = i.val - n' by omega]
      exact hbit
  · exact .inl ⟨n', p', m', List.mem_cons_of_mem _ hmem, hbits, hmask⟩

theorem owes_done {k : Nat} {rest : List SigFrame} (hk : ¬(k < 32 ∧ p ≠ 0))
    (h : Owes (.loop k p m :: rest) i) : Owes rest i := by
  obtain ⟨n', p', m', hmem, hbits, hmask⟩ := h
  rcases List.mem_cons.mp hmem with heq | hmem
  · obtain ⟨rfl, rfl, rfl⟩ := SigFrame.loop.inj heq
    obtain ⟨hle, hbit⟩ := has_shiftLeft.mp hbits
    refine absurd ⟨by omega, fun hzero => ?_⟩ hk
    rw [hzero] at hbit
    simp at hbit
  · exact ⟨n', p', m', hmem, hbits, hmask⟩

theorem Held.event {d : BitVec 32} (h : Held t below d m i x) (hat : At t below d m above n x)
    (hs : x.event e = some y) : Held t below d m i y ∨ TakenBy t below i (x, e) := by
  have hmove := event_move t hs
  rcases h with hi | ⟨above, n, hat, howes⟩
  · cases hmove with
    | other hcur hr => exact .inl (.inl (hr.pending i hi))
    | calls fs he hcur hloop hstack hmask hpending =>
      exact (hpending i hi).imp .inl fun hw => ⟨hcur, .inr hw⟩
    | leaves f fs below' hcur hx hf hloop hwait hstack hmask hpending =>
      exact (hpending i hi).imp .inl fun hw => ⟨hcur, .inr hw⟩
    | enters below' hcur hx hstack hmask hpending =>
      have hgate : NoLoop [.gate] := noLoop_nil.cons fun _ _ _ h => by cases h
      obtain ⟨rest, rfl, rfl⟩ := hat.pop hx hgate
      by_cases hd : x.deliverable.Has i
      · refine .inl (.inr ⟨_ :: rest, n, hstack, 0, _, _, List.mem_cons_self, ?_, ?_⟩)
        · exact has_shiftLeft.mpr ⟨Nat.zero_le _, hd⟩
        · rw [← hcur]
          exact deliverable_unblocked hd
      · refine .inl (.inl ?_)
        rw [hpending]
        exact BitVec.has_and.mpr ⟨hi, BitVec.has_not.mpr hd⟩
    | round k p m' fs below' he hcur hx hk hloop hwait hstack hmask hpending =>
      exact .inl (.inl (hpending ▸ hi))
    | done k p m' below' he hcur hx hk hstack hmask hpending =>
      exact .inl (.inl (hpending ▸ hi))
  · cases hmove with
    | other hcur hr => exact .inl (.inr ⟨above, n, hr.stack.trans hat, howes⟩)
    | calls fs he hcur hloop hstack hmask hpending =>
      refine .inl (.inr ⟨fs ++ above, n, ?_, howes.append fs⟩)
      unfold At
      rw [hstack, hat, List.append_assoc]
    | leaves f fs below' hcur hx hf hloop hwait hstack hmask hpending =>
      obtain ⟨rest, rfl, rfl⟩ := hat.pop hx hf
      refine .inl (.inr ⟨fs ++ rest, n, ?_, (howes.tail hf).append fs⟩)
      unfold At
      rw [hstack, List.append_assoc]
    | enters below' hcur hx hstack hmask hpending =>
      have hgate : NoLoop [.gate] := noLoop_nil.cons fun _ _ _ h => by cases h
      obtain ⟨rest, rfl, rfl⟩ := hat.pop hx hgate
      exact .inl (.inr ⟨_ :: rest, n, hstack, (howes.tail hgate).append [_]⟩)
    | round k p m' fs below' he hcur hx hk hloop hwait hstack hmask hpending =>
      rcases hat.top hx with ⟨rfl, -, -⟩ | ⟨rest, rfl, rfl⟩
      · obtain ⟨_, _, _, hmem, -⟩ := howes
        exact absurd hmem List.not_mem_nil
      · rcases owes_round (hcur ▸ hx) hk howes with howes | ⟨hdelivery, hunblocked⟩
        · refine .inl (.inr ⟨fs ++ _ :: rest, n, ?_, howes.append fs⟩)
          unfold At
          rw [hstack, List.append_assoc]
          rfl
        · refine .inr ⟨hcur, .inl ⟨m', he ▸ hdelivery, hunblocked, ?_⟩⟩
          have hheight := hat.height
          rw [List.length_cons] at hheight
          show below.length + 1 < (x.stack t).length
          omega
    | done k p m' below' he hcur hx hk hstack hmask hpending =>
      rcases hat.top hx with ⟨rfl, -, -⟩ | ⟨rest, rfl, rfl⟩
      · obtain ⟨_, _, _, hmem, -⟩ := howes
        exact absurd hmem List.not_mem_nil
      · exact .inl (.inr ⟨rest, n, hstack, owes_done hk howes⟩)

-- ---------------------------------------------------------------------------
-- What is blocked
-- ---------------------------------------------------------------------------

/-- The masks that the frames bring back block what `b` does. -/
def Saves (b : BitVec 32) (above : List SigFrame) : Prop :=
  ∀ f ∈ above, ∀ m, (∃ n p, f = .loop n p m) ∨ (∃ w, f = .sigsuspend m w) →
    ∀ i, b.Has i → m.Has i

theorem Saves.of_plain {b : BitVec 32} (hloop : NoLoop fs) (hwait : NoWait fs) : Saves b fs := by
  rintro f hf m (⟨n, p, rfl⟩ | ⟨w, rfl⟩)
  · exact absurd rfl (hloop _ hf n p m)
  · exact absurd rfl (hwait _ hf m w)

theorem Saves.append {b : BitVec 32} (h : Saves b fs) (h' : Saves b above) :
    Saves b (fs ++ above) := List.forall_mem_append.mpr ⟨h, h'⟩

theorem Saves.loop {b : BitVec 32} (h : Saves b above) (hm : ∀ i, b.Has i → m.Has i) :
    Saves b (.loop n p m :: above) := by
  refine List.forall_mem_cons.mpr ⟨?_, h⟩
  rintro m' (⟨n', p', heq⟩ | ⟨w, heq⟩)
  · obtain ⟨-, -, rfl⟩ := SigFrame.loop.inj heq
    exact hm
  · cases heq

/-- The thread blocks what `b` does, and will when what is above the call's loop is done. -/
structure Blocked (t : T) (below : List SigFrame) (d m b : BitVec 32) (x : Signals T)
    (above : List SigFrame) (n : Nat) : Prop where
  place : At t below d m above n x
  mask : ∀ i, b.Has i → (x.mask t).Has i
  saves : Saves b above

theorem Blocked.event {d b : BitVec 32} (h : Blocked t below d m b x above n)
    (hin : InHandler t below (x, e)) (hs : x.event e = some y) :
    ∃ above', Blocked t below d m b y above' n := by
  have hsaves := h.saves
  cases event_move t hs with
  | other hcur hr => exact ⟨above, hr.stack.trans h.place, hr.mask ▸ h.mask, hsaves⟩
  | calls fs he hcur hloop hstack hmask hpending =>
    obtain ⟨hsame, hwait⟩ := hmask (hin hcur).1
    refine ⟨fs ++ above, ?_, hsame ▸ h.mask, (Saves.of_plain hloop hwait).append hsaves⟩
    unfold At
    rw [hstack, h.place, List.append_assoc]
  | leaves f fs below' hcur hx hf hloop hwait hstack hmask hpending =>
    obtain ⟨rest, rfl, rfl⟩ := h.place.pop hx hf
    obtain ⟨hhead, hrest⟩ := List.forall_mem_cons.mp hsaves
    refine ⟨fs ++ rest, ?_, ?_, (Saves.of_plain hloop hwait).append hrest⟩
    · unfold At
      rw [hstack, List.append_assoc]
    · rcases hmask with hsame | ⟨w, rfl⟩
      · exact hsame ▸ h.mask
      · exact hhead _ (.inr ⟨w, rfl⟩)
  | enters below' hcur hx hstack hmask hpending =>
    have hgate : NoLoop [.gate] := noLoop_nil.cons fun _ _ _ h => by cases h
    obtain ⟨rest, rfl, rfl⟩ := h.place.pop hx hgate
    obtain ⟨-, hrest⟩ := List.forall_mem_cons.mp hsaves
    exact ⟨_ :: rest, hstack, hmask ▸ h.mask, Saves.loop hrest h.mask⟩
  | round k p m' fs below' he hcur hx hk hloop hwait hstack hmask hpending =>
    rcases h.place.top hx with ⟨rfl, -, -⟩ | ⟨rest, rfl, rfl⟩
    · have hheight := h.place.height
      have habove : below.length + 1 < (x.stack t).length := (hin hcur).2 he
      rw [List.length_nil] at hheight
      omega
    · obtain ⟨hhead, hrest⟩ := List.forall_mem_cons.mp hsaves
      have hold := hhead m' (.inl ⟨k, p, rfl⟩)
      refine ⟨fs ++ .loop (k + 1) (p >>> 1) m' :: rest, ?_, fun i hi => ?_,
        (Saves.of_plain hloop hwait).append (Saves.loop hrest hold)⟩
      · unfold At
        rw [hstack, List.append_assoc]
        rfl
      · rw [hmask]
        exact BitVec.has_or.mpr (.inl (BitVec.has_or.mpr (.inl (hold i hi))))
  | done k p m' below' he hcur hx hk hstack hmask hpending =>
    rcases h.place.top hx with ⟨rfl, -, -⟩ | ⟨rest, rfl, rfl⟩
    · have hheight := h.place.height
      have habove : below.length + 1 < (x.stack t).length := (hin hcur).2 he
      rw [List.length_nil] at hheight
      omega
    · obtain ⟨hhead, hrest⟩ := List.forall_mem_cons.mp hsaves
      exact ⟨rest, hstack, hmask ▸ hhead m' (.inl ⟨k, p, rfl⟩), hrest⟩

theorem Blocked.start {d : BitVec 32} {j : Fin 32} (h : At t below d m above n x)
    (hcur : x.cur = t) (hlen : (x.stack t).length = below.length + 1)
    (hdelivery : x.delivery e = some (j, m')) (hs : x.event e = some y) :
    ∃ above' n', Blocked t below d m (m ||| x.saMask j ||| sigBit j) y above' n' := by
  have hheight := h.height
  have hnil : above = [] := List.length_eq_zero_iff.mp (by omega)
  have hx : x.stack t = .loop n (d >>> n) m :: below := by
    rw [h, hnil]
    rfl
  have he : e = .act .next := by
    by_contra hne
    rw [delivery_of_ne hne] at hdelivery
    cases hdelivery
  rw [he, delivery_loop (hcur ▸ hx)] at hdelivery
  cases event_move t hs with
  | other hnot hr => exact absurd he (hnot hcur)
  | calls fs hne => exact absurd he hne
  | leaves f fs below' _ hx' hf =>
    rw [hx] at hx'
    exact absurd (List.cons.inj hx').1.symm (hf _ List.mem_cons_self _ _ _)
  | enters below' _ hx' =>
    rw [hx] at hx'
    cases (List.cons.inj hx').1
  | round k p m'' fs below' _ _ hx' hk hloop hwait hstack hmask hpending =>
    rw [hx] at hx'
    obtain ⟨hf, rfl⟩ := List.cons.inj hx'
    obtain ⟨rfl, rfl, rfl⟩ := SigFrame.loop.inj hf
    split at hdelivery
    · obtain ⟨rfl, -⟩ := Prod.mk.inj (Option.some.inj hdelivery)
      refine ⟨fs, n + 1, ?_, fun i hi => hmask ▸ hi, Saves.of_plain hloop hwait⟩
      unfold At
      rw [hstack, BitVec.shiftRight_add]
    · cases hdelivery
  | done k p m'' below' _ _ hx' hk =>
    rw [hx] at hx'
    obtain ⟨rfl, rfl, rfl⟩ := SigFrame.loop.inj (List.cons.inj hx').1
    split at hdelivery
    · rename_i hbit
      refine absurd ⟨hbit.1, fun hzero => hbit.2 ?_⟩ hk
      rw [hzero]
      rfl
    · cases hdelivery

-- ---------------------------------------------------------------------------
-- The call
-- ---------------------------------------------------------------------------

variable {before begun after : Signals T} {tr : List (Signals T × SigEvent T)}

theorem DoSignals.begun_eq (h : DoSignals t below before begun tr after) :
    begun = (before.setStack below).doSignals := by
  have henter := event_next h.enter
  have hstack := h.stack
  rw [← h.cur] at hstack
  unfold Signals.next at henter
  rw [hstack] at henter
  exact (Option.some.inj henter).symm

theorem DoSignals.begins (h : DoSignals t below before begun tr after) :
    Inside t below before.deliverable (before.mask t) [] begun [] 0 ∧
    begun.pending t = before.pending t &&& ~~~before.deliverable := by
  have hcur : (before.setStack below).cur = t := h.cur
  have hstack := doSignals_stack (before.setStack below)
  have hpending := doSignals_pending (before.setStack below)
  rw [← h.begun_eq, hcur] at hstack hpending
  refine ⟨⟨?_, rfl⟩, hpending⟩
  have hbelow : (before.setStack below).stack t = below := by
    rw [← h.cur]
    exact setStack_self before below
  unfold At
  rw [hstack, hbelow]
  rfl

theorem DoSignals.reaches (h : DoSignals t below before begun tr after)
    (hr : Run event begun past x) (hsub : past <:+ tr) :
    (∃ above n, Inside t below before.deliverable (before.mask t) past x above n) ∨
      Over t below before.deliverable (before.mask t) past x := by
  induction hr with
  | start => exact .inl ⟨[], 0, h.begins.1⟩
  | @next past x e y hr hs ih =>
    rcases ih ((List.suffix_cons _ _).trans hsub) with ⟨above, n, hin⟩ | hover
    · exact hin.event hs
    · have hlt := h.inside (x, e) (hsub.subset List.mem_cons_self)
      rw [hover.stack] at hlt
      exact absurd hlt (Nat.lt_irrefl _)

theorem DoSignals.at_step (h : DoSignals t below before begun tr after)
    {d : Signals T × SigEvent T} (hsub : d :: past <:+ tr) :
    ∃ above n, Inside t below before.deliverable (before.mask t) past d.1 above n := by
  rcases h.reaches (h.run.of_suffix hsub).1 ((List.suffix_cons _ _).trans hsub) with hin | hover
  · exact hin
  · have hlt := h.inside d (hsub.subset List.mem_cons_self)
    rw [hover.stack] at hlt
    exact absurd hlt (Nat.lt_irrefl _)

theorem DoSignals.over (h : DoSignals t below before begun tr after) :
    Over t below before.deliverable (before.mask t) tr after := by
  rcases h.reaches h.run List.suffix_rfl with ⟨above, n, hin⟩ | hover
  · have hheight := hin.place.height
    have hleft := h.left
    omega
  · exact hover

theorem DoSignals.held (h : DoSignals t below before begun tr after)
    {late : List (Signals T × SigEvent T)} (hr : Run event x late y) (hsub : late ++ past <:+ tr)
    (hx : Held t below before.deliverable (before.mask t) i x) :
    Held t below before.deliverable (before.mask t) i y ∨ ∃ d ∈ late, TakenBy t below i d := by
  induction hr with
  | start => exact .inl hx
  | @next late z e y hr hs ih =>
    rcases ih ((List.suffix_cons _ _).trans hsub) with hz | ⟨d, hd, htaken⟩
    · obtain ⟨above, n, hin⟩ := h.at_step hsub
      exact (hz.event hin.place hs).imp_right fun htaken => ⟨_, List.mem_cons_self, htaken⟩
    · exact .inr ⟨d, List.mem_cons_of_mem _ hd, htaken⟩

theorem DoSignals.kept (h : DoSignals t below before begun tr after)
    {late : List (Signals T × SigEvent T)} {d : Signals T × SigEvent T}
    (htr : tr = late ++ d :: past) (hi : (d.1.pending t).Has i) :
    (after.pending t).Has i ∨ ∃ d' ∈ late ++ [d], TakenBy t below i d' := by
  have hrun := h.run
  rw [htr] at hrun
  obtain ⟨w, hpast, hlate⟩ := hrun.split
  have hsub : late ++ d :: past <:+ tr := htr ▸ List.suffix_rfl
  obtain ⟨above, n, hin⟩ := h.at_step ((List.suffix_append _ _).trans hsub)
  rcases Held.event (.inl hi) hin.place hpast.last_step.2 with hw | htaken
  · rcases h.held hlate hsub hw with hheld | ⟨d', hd', htaken⟩
    · refine .inl (hheld.resolve_right ?_)
      rintro ⟨above, n, hat, -⟩
      have hheight := At.height hat
      have hleft := h.left
      omega
    · exact .inr ⟨d', List.mem_append_left _ hd', htaken⟩
  · exact .inr ⟨d, List.mem_append_right _ List.mem_cons_self, htaken⟩

theorem run_blocked {d b : BitVec 32} {mid : List (Signals T × SigEvent T)}
    (hr : Run event x mid y) (hin : ∀ c ∈ mid, InHandler t below c)
    (h : Blocked t below d m b x above n) : ∃ above' n', Blocked t below d m b y above' n' := by
  induction hr with
  | start => exact ⟨above, n, h⟩
  | next hr hs ih =>
    obtain ⟨hhead, hrest⟩ := List.forall_mem_cons.mp hin
    obtain ⟨above', n', hblocked⟩ := ih hrest
    obtain ⟨above'', hblocked'⟩ := hblocked.event hhead hs
    exact ⟨above'', n', hblocked'⟩

theorem DoSignals.blocked (h : DoSignals t below before begun tr after)
    {late mid : List (Signals T × SigEvent T)} {d start : Signals T × SigEvent T} {j : Fin 32}
    (htr : tr = late ++ d :: mid ++ start :: past) (hcur : start.1.cur = t)
    (hlen : (start.1.stack t).length = below.length + 1)
    (hdelivery : start.1.delivery start.2 = some (j, m))
    (hin : ∀ c ∈ mid, InHandler t below c)
    (hi : (before.mask t).Has i ∨ (start.1.saMask j).Has i ∨ i = j) : (d.1.mask t).Has i := by
  have hsub : d :: (mid ++ start :: past) <:+ tr := by
    rw [htr, List.append_assoc]
    exact List.suffix_append _ _
  have hstart : start :: past <:+ tr :=
    (List.suffix_append mid _).trans ((List.suffix_cons _ _).trans hsub)
  obtain ⟨w, hpast, hmid⟩ := (h.run.of_suffix hsub).1.split
  obtain ⟨above, n, hplace⟩ := h.at_step hstart
  obtain ⟨_, _, hblocked⟩ := Blocked.start hplace.place hcur hlen hdelivery hpast.last_step.2
  obtain ⟨_, _, hd⟩ := run_blocked hmid hin hblocked
  refine hd.mask i ?_
  rcases hi with hi | hi | hi
  · exact BitVec.has_or.mpr (.inl (BitVec.has_or.mpr (.inl hi)))
  · exact BitVec.has_or.mpr (.inl (BitVec.has_or.mpr (.inr hi)))
  · exact BitVec.has_or.mpr (.inr (has_sigBit.mpr hi))

/-- Each handler that the call starts can come back to its loop. -/
def HandlersReturn (t : T) (below : List SigFrame) (m : BitVec 32) : Prop :=
  ∀ (x : Signals T) n p y d, x.cur = t → x.stack t = .loop n p m :: below →
    x.delivery (.act .next) = some d → x.event (.act .next) = some y →
    ∃ tr z, Run event y tr z ∧ (∀ c ∈ tr, below.length < (c.1.stack t).length) ∧
      z.cur = t ∧ z.halted = false ∧ z.stack t = .loop (n + 1) (p >>> 1) m :: below

theorem event_loop (hlive : x.halted = false) (hx : x.stack x.cur = .loop n p m :: below) :
    x.event (.act .next) = some ((x.setStack below).round n p m) := by
  unfold event step Signals.next
  dsimp only
  rw [hlive, hx]
  rfl

theorem round_quiet (x : Signals T) (below : List SigFrame) (m : BitVec 32)
    (hn : n < 32 ∧ p ≠ 0) (hbit : p &&& 1 = 0) :
    ((x.setStack below).round n p m).cur = x.cur ∧
    ((x.setStack below).round n p m).halted = x.halted ∧
    ((x.setStack below).round n p m).stack x.cur = .loop (n + 1) (p >>> 1) m :: below := by
  unfold round
  rw [dif_pos hn]
  dsimp only
  rw [if_neg (not_not.mpr hbit)]
  refine ⟨rfl, rfl, ?_⟩
  have hpush := push_self ((x.setStack below).modify fun th => { th with
    sigmask := m ||| (x.setStack below).saMask ⟨n, hn.1⟩ ||| sigBit n }) (.loop (n + 1) (p >>> 1) m)
  exact hpush.trans (congrArg _ (setStack_self x below))

theorem loop_ends (hcur : x.cur = t) (hlive : x.halted = false)
    (hx : x.stack t = .loop n p m :: below) (hn : ¬(n < 32 ∧ p ≠ 0)) :
    ∃ tr y, Run event x tr y ∧ (∀ c ∈ tr, below.length < (c.1.stack t).length) ∧
      y.stack t = below := by
  have hstep := event_loop hlive (hcur ▸ hx)
  refine ⟨_, _, Run.start.next hstep, List.forall_mem_singleton.mpr ?_, ?_⟩
  · rw [hx]
    exact Nat.lt_succ_self _
  · unfold round
    rw [dif_neg hn, ← hcur]
    exact setStack_self x below

theorem loop_returns (hret : HandlersReturn t below m) {k : Nat} (hk : 32 ≤ n + k)
    (hcur : x.cur = t) (hlive : x.halted = false) (hx : x.stack t = .loop n p m :: below) :
    ∃ tr y, Run event x tr y ∧ (∀ c ∈ tr, below.length < (c.1.stack t).length) ∧
      y.stack t = below := by
  -- by induction on the signals that are left
  induction k generalizing n p x with
  | zero => exact loop_ends hcur hlive hx (by omega)
  | succ k ih =>
    have hstep := event_loop hlive (hcur ▸ hx)
    have hinside : below.length < (x.stack t).length := by
      rw [hx]
      exact Nat.lt_succ_self _
    by_cases hn : n < 32 ∧ p ≠ 0
    · cases hdelivery : x.delivery (.act .next) with
      | none =>
        rw [delivery_loop (hcur ▸ hx)] at hdelivery
        have hbit : p &&& 1 = 0 := by
          by_contra hbit
          rw [dif_pos ⟨hn.1, hbit⟩] at hdelivery
          cases hdelivery
        obtain ⟨hcur', hlive', hstack⟩ := round_quiet x below m hn hbit
        rw [hcur] at hcur' hstack
        obtain ⟨tr, y, hr, hall, hy⟩ := ih (by omega) hcur' (hlive'.trans hlive) hstack
        refine ⟨_, y, (Run.start.next hstep).append hr, ?_, hy⟩
        exact List.forall_mem_append.mpr ⟨hall, List.forall_mem_singleton.mpr hinside⟩
      | some d =>
        obtain ⟨tr, z, hr, hall, hcur', hlive', hstack⟩ := hret x n p _ d hcur hx hdelivery hstep
        obtain ⟨tr', y, hr', hall', hy⟩ := ih (by omega) hcur' hlive' hstack
        refine ⟨_, y, ((Run.start.next hstep).append hr).append hr', ?_, hy⟩
        refine List.forall_mem_append.mpr ⟨hall', List.forall_mem_append.mpr ⟨hall, ?_⟩⟩
        exact List.forall_mem_singleton.mpr hinside
    · exact loop_ends hcur hlive hx hn

theorem doSignals_returns (hret : HandlersReturn t below (before.mask t)) (hcur : before.cur = t)
    (hlive : before.halted = false) (hstack : before.stack t = .gate :: below) :
    ∃ begun tr after, DoSignals t below before begun tr after := by
  have henter : before.event (.act .next) = some (before.setStack below).doSignals := by
    unfold event step Signals.next
    dsimp only
    rw [hlive, hcur, hstack]
    rfl
  have hbelow : (before.setStack below).stack t = below := by
    rw [← hcur]
    exact setStack_self before below
  have hbegun := doSignals_stack (before.setStack below)
  rw [show (before.setStack below).cur = t from hcur, hbelow] at hbegun
  have hlive' : (before.setStack below).doSignals.halted = false := by
    unfold doSignals
    dsimp only
    split <;> exact hlive
  obtain ⟨tr, after, hr, hall, hafter⟩ :=
    loop_returns (k := 32) hret (by omega) ((doSignals_cur (before.setStack below)).trans hcur)
      hlive' hbegun
  exact ⟨_, tr, after, hcur, hstack, henter, hr, hall, hafter ▸ le_rfl⟩

end

-- ---------------------------------------------------------------------------
-- One thread by itself
-- ---------------------------------------------------------------------------

/-- What the events of a thread's own change while no other thread runs. -/
structure Own where
  stack : List SigFrame
  mask : BitVec 32
  pending : BitVec 32
  deriving DecidableEq

def Own.put (o : Own) (x : Signals T) : Signals T :=
  { x with
    stack := Function.update x.stack x.cur o.stack
    ret := Function.update x.ret x.cur .ok
    sched := x.sched.modify x.cur fun th => { th with sigmask := o.mask, sigpending := o.pending } }

inductive OwnEvent
  | raise (sig : Fin 32)
  | sigmask (block : Bool) (set : BitVec 32)
  | next

def OwnEvent.event (t : T) : OwnEvent → SigEvent T
  | .raise sig => .act (.call (.kill (some t) sig))
  | .sigmask block set => .act (.call (.sigmask (if block then 0 else 2) (some set)))
  | .next => .act .next

def Own.userLevel (o : Own) : Bool :=
  match o.stack with
  | [] | .handler :: _ | .exit :: _ => true
  | _ => false

theorem signo_lt {n : Nat} {p : BitVec 32} (h : n < 32 ∧ p ≠ 0) : n < 32 := h.1

/-- The event with the handlers of `x`, those of the kernel left out that suspend. -/
def Own.step (x : Signals T) (o : Own) : OwnEvent → Option Own
  | .raise sig =>
    if o.userLevel then some ⟨.gate :: o.stack, o.mask, o.pending ||| sigBit sig⟩ else none
  | .sigmask block set =>
    if o.userLevel then
      some ⟨.gate :: o.stack, if block then o.mask ||| set else o.mask &&& ~~~set, o.pending⟩
    else none
  | .next =>
    match o.stack with
    | .handler :: fs => some ⟨fs, o.mask, o.pending⟩
    | .gate :: fs =>
      let sigpend := o.pending &&& unblocked o.mask
      if x.cancelState x.cur then none
      else some ⟨.loop 0 sigpend o.mask :: fs, o.mask, o.pending &&& ~~~sigpend⟩
    | .loop n p m :: fs =>
      if h : n < 32 ∧ p ≠ 0 then
        let fs := .loop (n + 1) (p >>> 1) m :: fs
        let mask := m ||| x.saMask ⟨n, signo_lt h⟩ ||| sigBit n
        if p &&& 1 = 0 ∨ x.handler ⟨n, signo_lt h⟩ = .sigIgn then some ⟨fs, mask, o.pending⟩
        else if x.handler ⟨n, signo_lt h⟩ = .user then some ⟨.handler :: fs, mask, o.pending⟩
        else none
      else some ⟨fs, m, o.pending⟩
    | _ => none

section
variable {x : Signals T} {o o' : Own}

theorem Own.put_stack (o : Own) (x : Signals T) : (o.put x).stack x.cur = o.stack :=
  Function.update_self ..

theorem Own.put_me (o : Own) (x : Signals T) :
    (o.put x).me = { x.me with sigmask := o.mask, sigpending := o.pending } :=
  modify_me x fun th => { th with sigmask := o.mask, sigpending := o.pending }

theorem Own.put_mask (o : Own) (x : Signals T) : (o.put x).mask x.cur = o.mask :=
  congrArg Thread.sigmask (o.put_me x)

theorem Own.put_pending (o : Own) (x : Signals T) : (o.put x).pending x.cur = o.pending :=
  congrArg Thread.sigpending (o.put_me x)

theorem Own.put_setStack (o : Own) (x : Signals T) (fs : List SigFrame) :
    (o.put x).setStack fs = ({ o with stack := fs } : Own).put x := by
  unfold Own.put setStack
  simp [Signals.cur]

theorem Own.put_modify (o : Own) (x : Signals T) (f g : BitVec 32 → BitVec 32) :
    (o.put x).modify (fun th => { th with
      sigmask := f th.sigmask
      sigpending := g th.sigpending }) = (⟨o.stack, f o.mask, g o.pending⟩ : Own).put x := by
  unfold Own.put Signals.modify
  simp [Signals.cur, Sched.modify]

theorem Own.put_pthreadKill (o : Own) (x : Signals T) (sig : Fin 32)
    (hready : x.me.state = .ready) : (o.put x).sched.pthreadKill x.cur sig =
      ((⟨o.stack, o.mask, o.pending ||| sigBit sig⟩ : Own).put x).sched := by
  let o' : Own := ⟨o.stack, o.mask, o.pending ||| sigBit sig⟩
  have hraise : (o.put x).sched.modify x.cur (·.raise sig) = (o'.put x).sched :=
    congrArg Signals.sched (Own.put_modify o x id (· ||| sigBit sig))
  have hactivate : (o'.put x).sched.activateThread x.cur = (o'.put x).sched := by
    have hstate : ((o'.put x).sched.thread x.cur).state = .ready :=
      (congrArg Thread.state (o'.put_me x)).trans hready
    unfold Sched.activateThread
    rw [hstate]
    rfl
  unfold Sched.pthreadKill
  dsimp only
  rw [hraise, hactivate]
  exact ite_self _

theorem Own.put_push (o : Own) (x : Signals T) (f : SigFrame) :
    (o.put x).push f = (⟨f :: o.stack, o.mask, o.pending⟩ : Own).put x := by
  unfold push
  rw [show (o.put x).stack (o.put x).cur = o.stack from o.put_stack x, Own.put_setStack]

theorem Own.put_round {n : Nat} {p m : BitVec 32} {fs : List SigFrame}
    (hs : Own.step x ⟨.loop n p m :: fs, o.mask, o.pending⟩ .next = some o') :
    ((⟨fs, o.mask, o.pending⟩ : Own).put x).round n p m = o'.put x := by
  have hmask (k : BitVec 32) : ((⟨fs, o.mask, o.pending⟩ : Own).put x).modify
      (fun th => { th with sigmask := k }) = (⟨fs, k, o.pending⟩ : Own).put x :=
    Own.put_modify ⟨fs, o.mask, o.pending⟩ x (fun _ => k) id
  unfold Own.step at hs
  dsimp only at hs
  unfold round
  split at hs
  · rename_i hn
    let k := m ||| x.saMask ⟨n, hn.1⟩ ||| sigBit n
    let f : SigFrame := .loop (n + 1) (p >>> 1) m
    let w := (((⟨fs, o.mask, o.pending⟩ : Own).put x).modify
      fun th => { th with sigmask := k }).push f
    have hw : w = (⟨f :: fs, k, o.pending⟩ : Own).put x :=
      (congrArg (push · f) (hmask k)).trans (Own.put_push _ x f)
    rw [dif_pos hn]
    show (if p &&& 1 ≠ 0 then w.runHandler (w.handler ⟨n, hn.1⟩) else w) = _
    rw [hw]
    by_cases hbit : p &&& 1 = 0
    · rw [if_pos (.inl hbit)] at hs
      rw [if_neg (not_not.mpr hbit), ← Option.some.inj hs]
    · have hhandler : ((⟨f :: fs, k, o.pending⟩ : Own).put x).handler = x.handler := rfl
      rw [if_pos hbit, hhandler]
      split at hs
      · rename_i hign
        rw [hign.resolve_left hbit, ← Option.some.inj hs]
        rfl
      · split at hs
        · rename_i huser
          rw [huser, ← Option.some.inj hs]
          exact Own.put_push _ x .handler
        · cases hs
  · rename_i hn
    rw [dif_neg hn, ← Option.some.inj hs]
    exact hmask m

theorem Own.put_doSignals {fs : List SigFrame} (hcancel : x.cancelState x.cur = false) :
    ((⟨fs, o.mask, o.pending⟩ : Own).put x).doSignals =
      (⟨.loop 0 (o.pending &&& unblocked o.mask) o.mask :: fs, o.mask,
        o.pending &&& ~~~(o.pending &&& unblocked o.mask)⟩ : Own).put x := by
  let z := (⟨fs, o.mask, o.pending⟩ : Own).put x
  have hcancelled : z.cancelState z.cur = false := hcancel
  have hme : z.me = { x.me with sigmask := o.mask, sigpending := o.pending } := Own.put_me _ x
  have hclear := Own.put_modify ⟨fs, o.mask, o.pending⟩ x id
    (· &&& ~~~(o.pending &&& unblocked o.mask))
  show z.doSignals = _
  unfold doSignals
  rw [hcancelled, hme]
  exact (congrArg (push · _) hclear).trans (Own.put_push _ x _)

theorem Own.put_next (hs : o.step x .next = some o') : (o.put x).next = some (o'.put x) := by
  have hstack : (o.put x).stack (o.put x).cur = o.stack := o.put_stack x
  have hpop (fs : List SigFrame) := Own.put_setStack o x fs
  obtain ⟨fs, mask, pending⟩ := o
  unfold Signals.next
  rw [hstack]
  cases fs with
  | nil => cases hs
  | cons f fs =>
    cases f with
    | sigsuspend | scheduling | exit => cases hs
    | handler =>
      rw [← Option.some.inj hs]
      exact congrArg some (hpop fs)
    | gate =>
      unfold Own.step at hs
      dsimp only at hs
      split at hs
      · cases hs
      · rename_i hcancel
        rw [← Option.some.inj hs]
        show some (((Own.put _ x).setStack fs).doSignals) = _
        rw [hpop]
        exact congrArg some (Own.put_doSignals (o := ⟨fs, mask, pending⟩) (by simpa using hcancel))
    | loop n p m =>
      show some (((Own.put _ x).setStack fs).round n p m) = _
      rw [hpop]
      exact congrArg some (Own.put_round (o := ⟨fs, mask, pending⟩) hs)

theorem Own.put_answer (o : Own) (x : Signals T) : (o.put x).answer .ok = o.put x := by
  unfold Own.put answer
  simp [Signals.cur]

theorem syscall_kill (x : Signals T) (t : T) (sig : Fin 32) :
    x.syscall (.kill (some t) sig) = { x with sched := x.sched.pthreadKill t sig }.answer .ok := by
  have hsig : (0 : Int) ≤ (sig : Nat) ∧ ((sig : Nat) : Int) < 32 := by omega
  unfold Signals.syscall pthreadKillSys
  dsimp only
  rw [dif_pos hsig]
  rfl

theorem Own.event_put {e : OwnEvent} (hlive : x.halted = false) (hready : x.me.state = .ready)
    (hs : o.step x e = some o') : (o.put x).event (e.event x.cur) = some (o'.put x) := by
  have hhalted : (o.put x).halted = false := hlive
  have hcall (c : SigCall T) (huser : (o.put x).userLevel = true) :
      (o.put x).event (.act (.call c)) = some (((o.put x).push .gate).syscall c) := by
    show (if (o.put x).halted then none else
      if (o.put x).userLevel then some (((o.put x).push .gate).syscall c) else none) = _
    rw [hhalted, huser, if_neg Bool.false_ne_true, if_pos rfl]
  have huser : (o.put x).userLevel = o.userLevel :=
    congrArg (fun fs => Own.userLevel ⟨fs, o.mask, o.pending⟩) (o.put_stack x)
  have hpush := Own.put_push o x .gate
  cases e with
  | next =>
    show (if (o.put x).halted then none else (o.put x).next) = _
    rw [hhalted]
    exact Own.put_next hs
  | raise sig =>
    unfold Own.step at hs
    dsimp only at hs
    split at hs
    · rename_i hlevel
      have hkill := Own.put_pthreadKill ⟨.gate :: o.stack, o.mask, o.pending⟩ x sig hready
      rw [← Option.some.inj hs]
      show (o.put x).event (.act (.call (.kill (some x.cur) sig))) = _
      rw [hcall _ (huser.trans hlevel), hpush, syscall_kill, hkill]
      exact congrArg some (Own.put_answer ⟨_, o.mask, o.pending ||| sigBit sig⟩ x)
    · cases hs
  | sigmask block set =>
    unfold Own.step at hs
    dsimp only at hs
    split at hs
    · rename_i hlevel
      have hmask (f : BitVec 32 → BitVec 32) :=
        (congrArg (answer · .ok)
          (Own.put_modify ⟨.gate :: o.stack, o.mask, o.pending⟩ x f id)).trans
          (Own.put_answer ⟨_, f o.mask, o.pending⟩ x)
      rw [← Option.some.inj hs]
      show (o.put x).event (.act (.call (.sigmask (if block then 0 else 2) (some set)))) = _
      rw [hcall _ (huser.trans hlevel), hpush]
      cases block with
      | true => exact congrArg some (hmask (· ||| set))
      | false => exact congrArg some (hmask (· &&& ~~~set))
    · cases hs

/-- The steps of a run by itself, in `x`. -/
def Own.steps (x : Signals T) (tr : List (Own × OwnEvent)) : List (Signals T × SigEvent T) :=
  tr.map fun d => (d.1.put x, d.2.event x.cur)

theorem Own.run_put {tr : List (Own × OwnEvent)} (hlive : x.halted = false)
    (hready : x.me.state = .ready) (hr : Run (Own.step x) o tr o') :
    Run event (o.put x) (Own.steps x tr) (o'.put x) := by
  induction hr with
  | start => exact .start
  | next _ hs ih => exact ih.next (Own.event_put hlive hready hs)

theorem Own.doSignals {setup acts : List OwnEvent}
    {p : Own → List (Own × OwnEvent) → Own → Bool} (hlive : x.halted = false)
    (hready : x.me.state = .ready)
    (h : (exec (Own.step x) o setup).any fun r => (Own.step x r.2 .next).any fun begun =>
      (exec (Own.step x) begun acts).any fun r' => decide (r.2.stack = [.gate] ∧
        (∀ d ∈ r'.1, 0 < d.1.stack.length) ∧ r'.2.stack = []) && p r.2 r'.1 r'.2) :
    ∃ tr₀ before begun tr after, Run event (o.put x) tr₀ (Own.put before x) ∧
      DoSignals x.cur [] (before.put x) (Own.put begun x) (Own.steps x tr) (Own.put after x) ∧
      p before tr after = true := by
  obtain ⟨tr₀, before, hbefore, h⟩ := exec_any h
  obtain ⟨begun, henter, h⟩ := (Option.any_eq_true _ _).mp h
  obtain ⟨tr, after, hafter, h⟩ := exec_any h
  obtain ⟨hcall, hp⟩ := Bool.and_eq_true_iff.mp h
  obtain ⟨hstack, hinside, hleft⟩ := of_decide_eq_true hcall
  refine ⟨_, before, begun, tr, after, Own.run_put hlive hready hbefore, ?_, hp⟩
  refine ⟨rfl, (before.put_stack x).trans hstack, Own.event_put hlive hready henter,
    Own.run_put hlive hready hafter, ?_, ?_⟩
  · refine List.forall_mem_map.mpr fun d hd => ?_
    rw [d.1.put_stack x]
    exact hinside d hd
  · rw [after.put_stack x, hleft]

end

-- ---------------------------------------------------------------------------
-- A handler that takes a signal out of the mask
-- ---------------------------------------------------------------------------

/-- Two READY threads; signal 6 has a handler of the application. -/
def oneHandler : Signals (Option Bool) :=
  { twoThreads with handler := fun i => if i = 6 then .user else .sigIgn }

theorem oneHandler_put : (⟨[], 0, 0⟩ : Own).put oneHandler = oneHandler := by
  unfold Own.put oneHandler twoThreads start
  simp [Sched.modify]

end Signals

end Xmertl.Partikle
