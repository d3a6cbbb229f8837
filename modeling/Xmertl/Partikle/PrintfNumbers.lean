import Xmertl.Partikle.Vsnprintf

/-!
# Numbers there and back

What `__v_printf` writes for an integer, `strtol` and `strtoul` read as that integer, whatever
the flags, the width and the precision.
-/

namespace Xmertl.Partikle.Stdarg

open Stdlib Numerals

-- ---------------------------------------------------------------------------
-- The digits
-- ---------------------------------------------------------------------------

theorem digitValue_digitChar (upCase : Bool) {d : Nat} (hd : d < 36) :
    digitValue (digitChar upCase d) = d := by
  have hall : ∀ upCase : Bool, ∀ i : Fin 36, digitValue (digitChar upCase i) = i := by
    decide +kernel
  exact hall upCase ⟨d, hd⟩

theorem ltostrLoop_digits {base : Nat} (hbase : 2 ≤ base) (upCase : Bool) (room i : Nat)
    (tmp : List UInt8) (hi : i < base ^ room) : ltostrLoop base upCase room i tmp =
      ((Nat.digits base i).map (digitChar upCase)).reverse ++ tmp := by
  induction room generalizing i tmp with
  | zero =>
    obtain rfl : i = 0 := by simpa using hi
    simp [ltostrLoop]
  | succ room ih =>
    unfold ltostrLoop
    by_cases hzero : i = 0
    · simp [hzero]
    · rw [if_neg hzero, Nat.digits_def' (by omega) (by omega),
        ih _ _ ((Nat.div_lt_iff_lt_mul (by omega)).mpr (by rwa [← Nat.pow_succ]))]
      simp

theorem ltostr_digits {base : Nat} (hbase : 2 ≤ base) (hbase' : base ≤ 36) (upCase : Bool)
    {i : Nat} (hi : i < 2 ^ 32) : Digits base (ltostr bufRoom i base upCase) ∧
      Stdlib.number base (ltostr bufRoom i base upCase) = i := by
  have hguard : ¬(base = 0 ∨ base > 36) := by omega
  unfold ltostr
  dsimp only
  rw [if_neg hguard]
  by_cases hzero : i = 0
  · rw [if_pos hzero, hzero]
    refine ⟨⟨by simp, ?_⟩, rfl⟩
    simp only [List.mem_singleton, forall_eq]
    show 0 < base
    omega
  · have hpow : i < base ^ (bufRoom - 1) := by
      have htwo : 2 ^ 32 ≤ 2 ^ (bufRoom - 1) := Nat.pow_le_pow_right (by decide) (by decide)
      exact hi.trans_le (htwo.trans (Nat.pow_le_pow_left hbase _))
    have hval {d : Nat} (hd : d ∈ Nat.digits base i) : digitValue (digitChar upCase d) = d :=
      digitValue_digitChar upCase ((Nat.digits_lt_base (by omega) hd).trans_le hbase')
    rw [if_neg hzero, ltostrLoop_digits hbase upCase _ _ _ hpow, List.append_nil]
    refine ⟨⟨?_, ?_⟩, ?_⟩
    · simp [Nat.digits_eq_nil_iff_eq_zero, hzero]
    · intro c hc
      obtain ⟨d, hd, rfl⟩ := List.mem_map.mp (List.mem_reverse.mp hc)
      rw [hval hd]
      exact Nat.digits_lt_base (by omega) hd
    · have hmap : (Nat.digits base i).map (digitValue ∘ digitChar upCase) = Nat.digits base i :=
        (List.map_congr_left fun d hd => hval hd).trans (List.map_id _)
      rw [Stdlib.number, List.map_reverse, List.map_map, hmap, value_digits]

-- ---------------------------------------------------------------------------
-- The layout
-- ---------------------------------------------------------------------------

variable {o : Out} {spec : Spec} {t : Text}

def blanks (n : Nat) : List UInt8 := List.replicate n ' '.toUInt8

def zeros (n : Nat) : List UInt8 := List.replicate n '0'.toUInt8

/-- Of a text, what is written in front of the zeros, and what behind them. -/
def Text.head (t : Text) : List UInt8 := t.s.take t.todo

def Text.body (t : Text) : List UInt8 := (t.s.drop t.todo).take (t.sz.toNat - t.todo)

theorem not_padded {sz : BitVec 32} (h : sz.toNat < 2 ^ 31) : (0 - sz).toInt.toNat = 0 := by
  have hneg : (0 : BitVec 32) - sz = -sz := BitVec.zero_sub sz
  rw [hneg, BitVec.toInt_eq_toNat_cond, BitVec.toNat_neg]
  split <;> omega

/-- Blanks, the sign or prefix, zeros, the rest and blanks; the zeros are those of `0` and of the
precision. -/
theorem printOut_text (spec : Spec) (o : Out) (ht : t.Sound) : ∃ a z b, (printOut spec t o).text =
      o.text ++ (blanks a ++ t.head ++ zeros z ++ t.body ++ blanks b) ∧
    (spec.padwith ≠ '0'.toUInt8 → spec.preci = 0 → t.sz.toNat < 2 ^ 31 → z = 0) ∧
    (spec.dot = true → 0 < spec.preci.toInt → t.sz.toNat = t.todo → 0 < z) := by
  have hhead (o : Out) : (o.put t.s (BitVec.ofNat 32 t.todo)).text = o.text ++ t.head := by
    rw [Out.text_put, ht.todo_toNat, Text.head]
  have hbody (o : Out) : (o.put (t.s.drop t.todo) (t.sz - BitVec.ofNat 32 t.todo)).text =
      o.text ++ t.body := by
    rw [Out.text_put, ht.rest, Text.body]
  have hpads (o : Out) (len : BitVec 32) {c : UInt8} (hc : c ≠ '0'.toUInt8) :
      (o.pad len c).text = o.text ++ blanks len.toInt.toNat := by
    rw [Out.text_pad, padLine, if_neg hc, blanks]
  have hblanks (o : Out) (len : BitVec 32) : (o.pad len ' '.toUInt8).text =
      o.text ++ blanks len.toInt.toNat := hpads o len (by decide)
  have hzeros (o : Out) (len : BitVec 32) : (o.pad len '0'.toUInt8).text =
      o.text ++ zeros len.toInt.toNat := Out.text_pad o len _
  have hnone (h : t.todo = 0) : t.head = [] := by rw [Text.head, h, List.take_zero]
  have hite (o : Out) : (if t.todo ≠ 0 then o.put t.s (BitVec.ofNat 32 t.todo) else o).text =
      o.text ++ t.head := by
    by_cases h : t.todo = 0
    · rw [if_neg (not_not.mpr h), hnone h, List.append_nil]
    · rw [if_pos h, hhead]
  have hsz : (t.sz - BitVec.ofNat 32 t.todo).toNat = t.sz.toNat - t.todo := ht.rest
  unfold printOut
  split
  · rename_i hplain
    refine ⟨0, 0, 0, ?_, fun _ _ _ => rfl, fun _ hpreci => absurd hpreci (by simp [hplain.2])⟩
    have hsplit : t.s.take t.sz.toNat = t.head ++ t.body := by
      rw [Text.head, Text.body, ← List.take_add, Nat.add_sub_cancel' ht.todo]
    rw [Out.text_put, hsplit]
    simp [blanks, zeros]
  · dsimp only
    generalize t.sz - BitVec.ofNat 32 t.todo = sz at hbody hsz
    generalize spec.width - BitVec.ofNat 32 t.todo = width
    have hnothing (hpreci : spec.preci = 0) (hlen : t.sz.toNat < 2 ^ 31) :
        (spec.preci - sz).toInt.toNat = 0 := by
      rw [hpreci]
      exact not_padded (by omega)
    have hsome (hpreci : 0 < spec.preci.toInt) (hlen : t.sz.toNat = t.todo) :
        0 < (spec.preci - sz).toInt.toNat := by
      have hzero : sz = 0 := BitVec.eq_of_toNat_eq (by rw [hsz, hlen]; simp)
      have hsub : spec.preci - 0 = spec.preci := BitVec.sub_zero _
      rw [hzero, hsub]
      omega
    split
    · split
      · refine ⟨(width - vs spec.preci sz).toInt.toNat, (spec.preci - sz).toInt.toNat, 0, ?_,
          fun _ => hnothing, fun _ => hsome⟩
        rw [hbody, hzeros, hite, hblanks]
        simp [blanks]
      · rename_i hdot
        by_cases hpad : spec.padwith = '0'.toUInt8
        · refine ⟨0, (width - sz).toInt.toNat, 0, ?_, fun h => absurd hpad h,
            fun h => absurd h hdot⟩
          simp only [hpad, and_true, and_not_self, if_false]
          rw [hbody, hzeros, hite]
          simp [blanks]
        · refine ⟨(width - sz).toInt.toNat, 0, 0, ?_, fun _ _ _ => rfl, fun h => absurd h hdot⟩
          simp only [hpad, and_false, not_false_eq_true, and_true, if_false]
          rw [hbody, hite, hpads _ _ hpad]
          simp [blanks, zeros]
    · refine ⟨0, (spec.preci - sz).toInt.toNat, (width - vs spec.preci sz).toInt.toNat, ?_,
        fun _ => hnothing, fun _ => hsome⟩
      rw [hblanks, hbody, hzeros, hite]
      simp [blanks]

variable {r : Radix} {number : Nat}

theorem digitsText_parts (spec : Spec) (hr : 2 ≤ r.base) (hr' : r.base ≤ 36)
    (hpre : r.pre.length ≤ 2) (hnumber : number < 2 ^ 32) :
    (number = 0 ∧ (digitsText spec r number).todo = 0 ∧ (digitsText spec r number).body = [] ∧
      spec.dot = true ∧ (digitsText spec r number).sz = 0) ∨
    ((digitsText spec r number).todo = r.pre.length ∧
      (digitsText spec r number).head = r.pre ∧
      (digitsText spec r number).body = ltostr bufRoom number r.base r.upcase) := by
  obtain ⟨hdigits, hvalue⟩ := ltostr_digits hr hr' r.upcase hnumber
  have hlen := ltostr_length number r.base r.upcase
  unfold digitsText
  dsimp only
  generalize ltostr bufRoom number r.base r.upcase = digits at hdigits hvalue hlen
  by_cases hzero : spec.dot = true ∧ digits.length = 1 ∧ nth digits 0 = '0'.toUInt8
  · rw [if_pos hzero]
    obtain ⟨hdot, hone, hfirst⟩ := hzero
    obtain ⟨c, rfl⟩ := List.length_eq_one_iff.mp hone
    obtain rfl : c = '0'.toUInt8 := hfirst
    have hsz : (if spec.preci = 0 ∨ r.pre ≠ [] then 0 else r.pre.length) = 0 := by
      split
      · rfl
      · rename_i h
        rw [not_not.mp fun hne => h (.inr hne)]
        rfl
    refine .inl ⟨hvalue.symm, rfl, ?_, hdot, congrArg (BitVec.ofNat 32) hsz⟩
    rw [Text.body, hsz]
    rfl
  · rw [if_neg hzero]
    refine .inr ⟨rfl, List.take_left, ?_⟩
    rw [Text.body, List.drop_left, BitVec.toNat_ofNat, Nat.mod_eq_of_lt (by omega),
      Nat.add_sub_cancel_left, List.take_length]

theorem signed_parts (ht : t.Sound) (hlen : t.s.length ≤ 124) (htodo : t.todo = 0) (c : UInt8) :
    (t.signed c).head = [c] ∧ (t.signed c).body = t.body ∧
      (t.sz = 0 → (t.signed c).sz.toNat = (t.signed c).todo) := by
  have hsz := ht.sz
  have hone : (t.sz + 1).toNat = t.sz.toNat + 1 := by
    rw [BitVec.toNat_add]
    show (t.sz.toNat + 1) % 2 ^ 32 = _
    omega
  unfold Text.head Text.body Text.signed
  dsimp only
  rw [htodo, if_neg (by decide), hone]
  refine ⟨rfl, rfl, fun h => ?_⟩
  rw [h]
  rfl

/-- A sign as it is written; a blank is one for `strtol` as well. -/
def Sgn (minus : Bool) (sgn : List UInt8) : Prop :=
  if minus then sgn = ['-'.toUInt8]
  else sgn = [] ∨ sgn = ['+'.toUInt8] ∨ sgn = [' '.toUInt8]

theorem numText_parts (spec : Spec) (r : Radix) (hr : 2 ≤ r.base) (hr' : r.base ≤ 36)
    (hpre : r.pre = []) (minus : Bool) (hnumber : number < 2 ^ 32) :
    Sgn minus (numText spec r minus number).head ∧
    ((numText spec r minus number).body = ltostr bufRoom number r.base r.upcase ∨
      number = 0 ∧ (numText spec r minus number).body = [] ∧ spec.dot = true ∧
        (numText spec r minus number).sz.toNat = (numText spec r minus number).todo) := by
  have hpre2 : r.pre.length ≤ 2 := by simp [hpre]
  obtain ⟨hsound, hlen⟩ := digitsText_sound spec r hpre2 number
  have hparts := digitsText_parts spec hr hr' hpre2 hnumber
  have htodo : (digitsText spec r number).todo = 0 := by
    rcases hparts with ⟨-, h, -⟩ | ⟨h, -⟩
    · exact h
    · rw [h, hpre, List.length_nil]
  have hsigned (c : UInt8) : ((digitsText spec r number).signed c).head = [c] ∧
      (((digitsText spec r number).signed c).body = ltostr bufRoom number r.base r.upcase ∨
        number = 0 ∧ ((digitsText spec r number).signed c).body = [] ∧ spec.dot = true ∧
          ((digitsText spec r number).signed c).sz.toNat =
            ((digitsText spec r number).signed c).todo) := by
    obtain ⟨hhead, hbody, hsz⟩ := signed_parts hsound hlen htodo c
    rw [hbody]
    exact ⟨hhead, hparts.elim (fun h => .inr ⟨h.1, h.2.2.1, h.2.2.2.1, hsz h.2.2.2.2⟩)
      fun h => .inl h.2.2⟩
  unfold numText Sgn
  dsimp only
  cases minus with
  | true =>
    rw [if_pos rfl, if_pos rfl]
    exact hsigned _
  | false =>
    rw [if_neg (by decide), if_neg (by decide)]
    split
    · refine ⟨.inr ?_, (hsigned _).2⟩
      rw [(hsigned _).1]
      split
      · exact .inl rfl
      · exact .inr rfl
    · refine ⟨.inl ?_, hparts.elim (fun h => .inr ⟨h.1, h.2.2.1, h.2.2.2.1, ?_⟩)
        fun h => .inl h.2.2⟩
      · rw [Text.head, htodo, List.take_zero]
      · rw [htodo, h.2.2.2.2]
        rfl

-- ---------------------------------------------------------------------------
-- Reading the layout
-- ---------------------------------------------------------------------------

variable {b : Nat} {ds sgn : List UInt8}

theorem skipSpace_blanks (a : Nat) (w : List UInt8) : skipSpace (blanks a ++ w) = skipSpace w := by
  induction a with
  | zero => rfl
  | succ a ih => exact ih

theorem Digits.zeros (hb : 2 ≤ b) (h : Digits b ds) (z : Nat) : Digits b (zeros z ++ ds) := by
  refine ⟨List.append_ne_nil_of_right_ne_nil _ h.1, fun c hc => ?_⟩
  rcases List.mem_append.mp hc with hc | hc
  · rw [List.eq_of_mem_replicate hc]
    exact Nat.lt_of_lt_of_le (by decide) hb
  · exact h.2 c hc

theorem digits_zero (hb : 2 ≤ b) : Digits b ['0'.toUInt8] := by
  refine ⟨by simp, fun c hc => ?_⟩
  rw [List.mem_singleton.mp hc]
  exact Nat.lt_of_lt_of_le (by decide) hb

theorem number_zeros (z : Nat) : Stdlib.number b (zeros z ++ ds) = Stdlib.number b ds := by
  have hmap : (zeros z).map digitValue = List.replicate z 0 := by
    rw [Stdarg.zeros, List.map_replicate]
    rfl
  rw [Stdlib.number, List.map_append, hmap, value_replicate_append, Stdlib.number]

theorem digitValue_blanks {c : UInt8} {k : Nat} (h : c ∈ blanks k) : digitValue c = 36 := by
  rw [List.eq_of_mem_replicate h]
  rfl

theorem run_blanks (hb : b ≤ 36) (h : Digits b ds) (k : Nat) : run b (ds ++ blanks k) = ds := by
  rw [run, List.takeWhile_append_of_pos fun c hc => decide_eq_true (h.2 c hc)]
  cases k with
  | zero => exact List.append_nil ds
  | succ k =>
    have hblank : digitValue ' '.toUInt8 = 36 := rfl
    rw [blanks, List.replicate_succ, List.takeWhile_cons_of_neg (by rw [hblank]; simp; omega),
      List.append_nil]

theorem not_prefixed (hb : 2 ≤ b) (h : Digits b ds) (k : Nat) : ¬Prefixed b (ds ++ blanks k) := by
  rintro ⟨hbase, -, hx, -⟩
  have hbound : b = 16 := by omega
  have hval := digitValue_ex hx
  rw [nth, List.getD_eq_getElem?_getD] at hval
  cases hget : (ds ++ blanks k)[1]? with
  | none =>
    rw [hget] at hval
    exact absurd hval (by decide)
  | some c =>
    rw [hget, Option.getD_some] at hval
    rcases List.mem_append.mp (List.mem_of_getElem? hget) with hc | hc
    · have hlt := h.2 c hc
      omega
    · have hblank := digitValue_blanks hc
      omega

theorem longest_digits (hb : 2 ≤ b) (hb' : b ≤ 36) (h : Digits b ds) (k : Nat) :
    LongestPrefix (fun text => ∃ n, Numeral b text n) (ds ++ blanks k) ds := by
  have hplain : plainBase b (ds ++ blanks k) = b := if_pos (by omega)
  have hrun := run_blanks hb' h k
  have hlongest := longest_plain (.inr ⟨hb, hb'⟩) (not_prefixed hb h k)
    (by rw [hplain, hrun]; exact h.1)
  rwa [hplain, hrun] at hlongest

theorem longest_signed {t ds : List UInt8} {base n : Nat}
    (hsgn : sgn = [] ∧ sign t = (false, t) ∨ sgn = ['+'.toUInt8] ∨ sgn = ['-'.toUInt8])
    (h : LongestPrefix (fun text => ∃ n, Numeral base text n) t ds) (hn : Numeral base ds n) :
    LongestPrefix (Readable base) (sgn ++ t) (sgn ++ ds) ∧
      Subject base (sgn ++ ds) (sgn = ['-'.toUInt8]) n := by
  have hsign : sign (sgn ++ t) = (decide (sgn = ['-'.toUInt8]), t) := by
    rcases hsgn with ⟨rfl, hsign⟩ | rfl | rfl
    · exact hsign
    · rfl
    · rfl
  obtain ⟨pre, hpre, hiff⟩ := sign_spec base (sgn ++ t)
  rw [hsign] at hpre hiff
  obtain rfl := List.append_cancel_right hpre
  have hstart := (List.prefix_append_right_inj sgn).mpr h.start
  refine ⟨⟨⟨_, n, (hiff _ hstart _ n).mpr ⟨ds, rfl, rfl, hn⟩⟩, hstart, ?_⟩,
    (hiff _ hstart _ n).mpr ⟨ds, rfl, rfl, hn⟩⟩
  rintro text ⟨neg, m, hm⟩ hs
  obtain ⟨v, rfl, -, hv⟩ := (hiff text hs neg m).mp hm
  exact (h.append sgn).longest _ ⟨v, rfl, m, hv⟩ hs

theorem unreadable {base : Nat} {t : List UInt8} (h : ∀ c ∈ t, 36 ≤ digitValue c) :
    ∀ text, text <+: skipSpace t → ¬Readable base text := by
  rintro text hs ⟨neg, n, hn⟩
  have hsub : ∀ c ∈ text, 36 ≤ digitValue c := fun c hc =>
    h c ((List.dropWhile_suffix _).subset (hs.subset hc))
  have hhead {v : List UInt8} (hv : Numeral base v n) (hin : ∀ c ∈ v, c ∈ text) : False := by
    cases v with
    | nil => exact hv.ne_nil rfl
    | cons c v =>
      have hlt : digitValue c < 36 := hv.head
      have hge := hsub c (hin c List.mem_cons_self)
      omega
  cases hn with
  | unsigned hv => exact hhead hv fun _ => id
  | plus hv | minus hv => exact hhead hv fun _ => List.mem_cons_of_mem _

theorem skipSpace_start {c : UInt8} {w : List UInt8} (h : isspace c = false) :
    skipSpace (c :: w) = c :: w := List.dropWhile_cons_of_neg (by rw [h]; decide)

theorem blanks_succ (a : Nat) : blanks (a + 1) = blanks a ++ [' '.toUInt8] := List.replicate_succ'

theorem zeros_succ (z : Nat) : zeros (z + 1) = zeros z ++ ['0'.toUInt8] := List.replicate_succ'

theorem zeros_cons (z : Nat) : zeros (z + 1) = '0'.toUInt8 :: zeros z := List.replicate_succ

theorem strtol_digits {s : List UInt8} (hs : s = [] ∨ s = ['+'.toUInt8] ∨ s = ['-'.toUInt8])
    (hd : Digits 10 ds) (a k : Nat) :
    (Stdlib.strtol (blanks a ++ (s ++ (ds ++ blanks k))) none 10).1.toInt =
      clamp (s = ['-'.toUInt8]) (Stdlib.number 10 ds) := by
  have halnum : digitValue (nth (ds ++ blanks k) 0) < 36 := by
    rw [← nth_zero_start (List.prefix_append ds _) hd.1]
    exact hd.head.trans (by decide)
  obtain ⟨hskip, hsign⟩ := skip_alnum halnum
  have hstart : skipSpace (blanks a ++ (s ++ (ds ++ blanks k))) = s ++ (ds ++ blanks k) := by
    rw [skipSpace_blanks]
    rcases hs with rfl | rfl | rfl
    · exact hskip
    · exact skipSpace_start rfl
    · exact skipSpace_start rfl
  obtain ⟨htext, hsub⟩ := longest_signed (hs.imp_left fun h => ⟨h, hsign⟩)
    (longest_digits (by decide) (by decide) hd k) (.digits (by decide) (by decide) hd)
  rw [← hstart] at htext
  exact (strtol_reads (.inr (by decide)) _ none htext hsub).1

theorem strtol_layout {minus : Bool} (hsgn : Sgn minus sgn) (hd : Digits 10 ds ∨ ds = [])
    (a z k : Nat) : (Stdlib.strtol (blanks a ++ sgn ++ zeros z ++ ds ++ blanks k) none 10).1.toInt =
      clamp minus (Stdlib.number 10 ds) := by
  have hread (hd : Digits 10 (zeros z ++ ds)) :
      (Stdlib.strtol (blanks a ++ (sgn ++ ((zeros z ++ ds) ++ blanks k))) none 10).1.toInt =
        clamp minus (Stdlib.number 10 ds) := by
    unfold Sgn at hsgn
    split at hsgn
    · rename_i hm
      rw [strtol_digits (.inr (.inr hsgn)) hd, number_zeros, hsgn, hm]
      rfl
    · rename_i hm
      rw [Bool.not_eq_true] at hm
      rw [hm]
      rcases hsgn with rfl | rfl | rfl
      · rw [strtol_digits (.inl rfl) hd, number_zeros]
        rfl
      · rw [strtol_digits (.inr (.inl rfl)) hd, number_zeros]
        rfl
      · have hread := strtol_digits (.inl rfl) hd (a + 1) k
        rw [List.nil_append, number_zeros] at hread
        rw [← List.append_assoc (blanks a), ← blanks_succ, hread]
        rfl
  simp only [List.append_assoc] at hread ⊢
  by_cases hnone : z = 0 ∧ ds = []
  · obtain ⟨rfl, rfl⟩ := hnone
    have hall : ∀ c ∈ blanks a ++ (sgn ++ (zeros 0 ++ ([] ++ blanks k))), 36 ≤ digitValue c := by
      intro c hc
      simp only [zeros, List.replicate_zero, List.nil_append, List.mem_append] at hc
      rcases hc with hc | hc | hc
      · exact (digitValue_blanks hc).ge
      · unfold Sgn at hsgn
        split at hsgn
        · rw [hsgn] at hc
          rw [List.mem_singleton.mp hc]
          decide
        · rcases hsgn with rfl | rfl | rfl
          · cases hc
          · rw [List.mem_singleton.mp hc]
            decide
          · rw [List.mem_singleton.mp hc]
            decide
      · exact (digitValue_blanks hc).ge
    have hzero : Stdlib.strtol (blanks a ++ (sgn ++ (zeros 0 ++ ([] ++ blanks k)))) none 10 =
        (0, _) :=
      strtol_none (.inr (by decide)) _ none (unreadable hall)
    rw [hzero]
    show (0 : BitVec 32).toInt = clamp minus 0
    cases minus <;> decide
  · refine hread ?_
    rcases hd with hd | rfl
    · exact Digits.zeros (by decide) hd z
    · cases z with
      | zero => exact absurd ⟨rfl, rfl⟩ hnone
      | succ z =>
        rw [List.append_nil, zeros_succ]
        exact Digits.zeros (by decide) (digits_zero (by decide)) z

theorem strtoul_digits (hb : 2 ≤ b) (hb' : b ≤ 36) (hd : Digits b ds)
    (hn : Stdlib.number b ds < 2 ^ 32) (a k : Nat) :
    (Stdlib.strtoul (blanks a ++ (ds ++ blanks k)) none (BitVec.ofNat 32 b)).1 =
      BitVec.ofNat 32 (Stdlib.number b ds) := by
  have halnum : digitValue (nth (ds ++ blanks k) 0) < 36 := by
    rw [← nth_zero_start (List.prefix_append ds _) hd.1]
    exact hd.head.trans_le hb'
  obtain ⟨hskip, hsign⟩ := skip_alnum halnum
  obtain ⟨htext, hsub⟩ := longest_signed (.inl ⟨rfl, hsign⟩) (longest_digits hb hb' hd k)
    (.digits hb hb' hd)
  have hstart : skipSpace (blanks a ++ (ds ++ blanks k)) = ds ++ blanks k := by
    rw [skipSpace_blanks, hskip]
  rw [List.nil_append, ← hstart] at htext
  rw [strtoul_reads (.inr ⟨hb, hb'⟩) _ none htext hsub, if_neg (by omega)]
  rfl

theorem strtoul_hex {x : UInt8} (hx : ex x) (hd : Digits 16 ds) (hn : Stdlib.number 16 ds < 2 ^ 32)
    (a k : Nat) : (Stdlib.strtoul (blanks a ++ ('0'.toUInt8 :: x :: (ds ++ blanks k))) none 16).1 =
      BitVec.ofNat 32 (Stdlib.number 16 ds) := by
  have hrun := run_blanks (by decide) hd k
  have hlongest := longest_prefixed hx (by rw [hrun]; exact hd.1) (.inr rfl)
  rw [hrun] at hlongest
  obtain ⟨hskip, hsign⟩ := skip_alnum
    (show digitValue (nth ('0'.toUInt8 :: x :: (ds ++ blanks k)) 0) < 36 from
      (by decide : digitValue '0'.toUInt8 < 36))
  obtain ⟨htext, hsub⟩ := longest_signed (.inl ⟨rfl, hsign⟩) hlongest (.hexadecimal hx hd)
  have hstart : skipSpace (blanks a ++ ('0'.toUInt8 :: x :: (ds ++ blanks k))) =
      '0'.toUInt8 :: x :: (ds ++ blanks k) := by
    rw [skipSpace_blanks, hskip]
  rw [List.nil_append, ← hstart] at htext
  have hread := strtoul_reads (.inr (by decide)) _ none htext hsub
  rw [if_neg (by omega)] at hread
  exact congrArg Prod.fst hread

theorem strtoul_layout (hb : 2 ≤ b) (hb' : b ≤ 36) (hd : Digits b ds ∨ ds = [])
    (hn : Stdlib.number b ds < 2 ^ 32) (a z k : Nat) :
    (Stdlib.strtoul (blanks a ++ (zeros z ++ ds ++ blanks k)) none (BitVec.ofNat 32 b)).1 =
      BitVec.ofNat 32 (Stdlib.number b ds) := by
  by_cases hnone : z = 0 ∧ ds = []
  · obtain ⟨rfl, rfl⟩ := hnone
    have hall : ∀ c ∈ blanks a ++ (zeros 0 ++ [] ++ blanks k), 36 ≤ digitValue c := by
      intro c hc
      simp only [zeros, List.replicate_zero, List.nil_append, List.mem_append] at hc
      exact hc.elim (fun h => (digitValue_blanks h).ge) fun h => (digitValue_blanks h).ge
    rw [strtoul_none (.inr ⟨hb, hb'⟩) _ none (unreadable hall)]
    rfl
  · have hall : Digits b (zeros z ++ ds) := by
      rcases hd with hd | rfl
      · exact Digits.zeros hb hd z
      · cases z with
        | zero => exact absurd ⟨rfl, rfl⟩ hnone
        | succ z =>
          rw [List.append_nil, zeros_succ]
          exact Digits.zeros hb (digits_zero hb) z
    have hread := strtoul_digits hb hb' hall (by rwa [number_zeros]) a k
    rwa [number_zeros] at hread

-- ---------------------------------------------------------------------------
-- A directive and what is read
-- ---------------------------------------------------------------------------

def writesBase (ch : UInt8) : Nat :=
  if ch = 'b'.toUInt8 then 2
  else if ch = 'o'.toUInt8 then 8
  else if ch = 'x'.toUInt8 ∨ ch = 'X'.toUInt8 ∨ ch = 'p'.toUInt8 then 16
  else 10

def Unsigned (ch : UInt8) : Prop :=
  ch = 'u'.toUInt8 ∨ ch = 'b'.toUInt8 ∨ ch = 'o'.toUInt8 ∨ ch = 'x'.toUInt8 ∨ ch = 'X'.toUInt8 ∨
    ch = 'p'.toUInt8

def Signed (ch : UInt8) : Prop := ch = 'd'.toUInt8 ∨ ch = 'i'.toUInt8

variable {ch : UInt8} {v : BitVec 32} {args : List Arg}

theorem number_word (hlong : spec.long = 0 ∨ spec.long = 1) (inSign : Bool) (v : BitVec 32)
    (args : List Arg) :
    Stdarg.number spec inSign (.word v :: args) =
      some (inSign && v.slt 0, (if inSign && v.slt 0 then -v else v).toNat, args) := by
  rcases hlong with h | h <;> (unfold Stdarg.number; rw [h]; rfl)

theorem radix_unsigned (hch : Unsigned ch) (hlong : spec.long = 0 ∨ spec.long = 1) :
    ∃ r spec', radix ch spec = some (r, spec') ∧ (spec'.long = 0 ∨ spec'.long = 1) ∧
      r.base = writesBase ch ∧ r.inSign = false ∧
      (r.pre = [] ∨ r.base = 8 ∧ r.pre = ['0'.toUInt8] ∨
        r.base = 16 ∧ ∃ x, ex x ∧ r.pre = ['0'.toUInt8, x]) := by
  have hhex (k : Int) (x : UInt8) (hx : ex x) :
      (if k ≠ 0 then ['0'.toUInt8, x] else []) = [] ∨
        16 = 8 ∧ (if k ≠ 0 then ['0'.toUInt8, x] else []) = ['0'.toUInt8] ∨
        16 = 16 ∧ ∃ y, ex y ∧ (if k ≠ 0 then ['0'.toUInt8, x] else []) = ['0'.toUInt8, y] := by
    split
    · exact .inr (.inr ⟨rfl, x, hx, rfl⟩)
    · exact .inl rfl
  rcases hch with rfl | rfl | rfl | rfl | rfl | rfl
  · exact ⟨_, _, rfl, hlong, rfl, rfl, .inl rfl⟩
  · exact ⟨_, _, rfl, hlong, rfl, rfl, .inl rfl⟩
  · refine ⟨_, _, rfl, hlong, rfl, rfl, ?_⟩
    dsimp only
    split
    · exact .inr (.inl ⟨rfl, rfl⟩)
    · exact .inl rfl
  · exact ⟨_, _, rfl, hlong, rfl, rfl, hhex _ _ (.inl rfl)⟩
  · exact ⟨_, _, rfl, hlong, rfl, rfl, hhex _ _ (.inr rfl)⟩
  · exact ⟨_, _, rfl, .inr rfl, rfl, rfl, .inr (.inr ⟨rfl, 'x'.toUInt8, .inl rfl, rfl⟩)⟩

theorem radix_signed (hch : Signed ch) : radix ch spec = some (⟨10, true, false, []⟩, spec) := by
  rcases hch with rfl | rfl <;> rfl

theorem convert_number {spec' : Spec} {minus : Bool} {n : Nat} (hch : Signed ch ∨ Unsigned ch)
    (hradix : radix ch spec = some (r, spec')) (o : Out)
    (hnumber : Stdarg.number spec' r.inSign (.word v :: args) = some (minus, n, args)) :
    convert ch spec (.word v :: args) o =
      some (printOut spec' (numText spec' r minus n) o, args) := by
  have hother : ch ≠ 'c'.toUInt8 ∧ ch ≠ '%'.toUInt8 ∧ ch ≠ 's'.toUInt8 ∧
      ¬(ch = 'f'.toUInt8 ∨ ch = 'g'.toUInt8) := by
    rcases hch with (rfl | rfl) | (rfl | rfl | rfl | rfl | rfl | rfl) <;> decide
  obtain ⟨hc, hpercent, hs, hf⟩ := hother
  unfold convert
  rw [if_neg hc, if_neg hpercent, if_neg hs, if_neg hf, hradix]
  dsimp only
  rw [hnumber]
  rfl

theorem vPrintfLoop_passed (format : Ptr) (args : List Arg) (o : Out) :
    vPrintfLoop format.length format args o = some (o.len, o) := by
  induction format with
  | nil => rfl
  | cons ch format ih => exact ih

theorem vPrintf_directive {format : Ptr} {args args' rest : List Arg}
    (hdir : directive .none 0 format args = some (.conv ch spec [] args'))
    (hconvert : convert ch spec args' ⟨[], 0⟩ = some (o, rest)) :
    vPrintf ('%'.toUInt8 :: format) args = some (o.len, o) := by
  unfold vPrintf vPrintfLoop
  rw [if_pos rfl, hdir]
  dsimp only
  rw [hconvert]
  exact vPrintfLoop_passed format rest o

theorem clamp_word (v : BitVec 32) :
    clamp (true && v.slt 0) (if true && v.slt 0 then -v else v).toNat = v.toInt := by
  have hmin : LONG_MIN.toInt = -2147483648 := by decide
  have hmax : LONG_MAX.toInt = 2147483647 := by decide
  have hv := v.isLt
  have hslt : v.slt 0 = decide (2147483648 ≤ v.toNat) := by
    rw [BitVec.slt_eq_decide, BitVec.toInt_eq_toNat_cond]
    refine decide_eq_decide.mpr ?_
    rw [BitVec.ofNat_eq_ofNat, BitVec.toInt_zero]
    split <;> omega
  rw [Bool.true_and, hslt, BitVec.toInt_eq_toNat_cond]
  unfold clamp
  rw [hmin, hmax]
  by_cases hneg : 2147483648 ≤ v.toNat
  · rw [decide_eq_true hneg, if_pos rfl, if_pos rfl, BitVec.toNat_neg, if_neg (by omega)]
    omega
  · rw [decide_eq_false hneg, if_neg (by decide), if_neg (by decide), if_pos (by omega)]
    omega

theorem signed_reads (spec : Spec) (v : BitVec 32) :
    (Stdlib.strtol (printOut spec (numText spec ⟨10, true, false, []⟩ (true && v.slt 0)
      (if true && v.slt 0 then -v else v).toNat) ⟨[], 0⟩).text none 10).1 = v := by
  have hlt := (if true && v.slt 0 then -v else v).isLt
  have hread := clamp_word v
  generalize (true && v.slt 0) = minus at hlt hread ⊢
  generalize (if minus then -v else v).toNat = n at hlt hread ⊢
  obtain ⟨hdigits, hvalue⟩ := ltostr_digits (by decide : 2 ≤ 10) (by decide) false hlt
  have hsound := numText_sound spec ⟨10, true, false, []⟩ (by decide) minus n
  obtain ⟨hsgn, hbody⟩ := numText_parts spec ⟨10, true, false, []⟩ (by decide) (by decide) rfl minus
    hlt
  obtain ⟨a, z, k, htext, -⟩ := printOut_text spec ⟨[], 0⟩ hsound
  refine BitVec.eq_of_toInt_eq ?_
  rw [htext, Out.text, List.flatten_nil, List.nil_append, ← hread]
  rcases hbody with hbody | ⟨rfl, hbody, -⟩
  · rw [strtol_layout hsgn (.inl (hbody ▸ hdigits)), hbody, hvalue]
  · rw [strtol_layout hsgn (.inr hbody), hbody]
    rfl

theorem unsigned_reads (spec : Spec) {number : Nat} (hr : 2 ≤ r.base) (hr' : r.base ≤ 36)
    (hsign : r.inSign = false)
    (hpre : r.pre = [] ∨ r.base = 8 ∧ r.pre = ['0'.toUInt8] ∨
      r.base = 16 ∧ ∃ x, ex x ∧ r.pre = ['0'.toUInt8, x]) (hnumber : number < 2 ^ 32) :
    (Stdlib.strtoul (printOut spec (numText spec r false number) ⟨[], 0⟩).text none
      (BitVec.ofNat 32 r.base)).1 = BitVec.ofNat 32 number := by
  have hpre2 : r.pre.length ≤ 2 := by
    rcases hpre with h | ⟨-, h⟩ | ⟨-, x, -, h⟩ <;> simp [h]
  have hnum : numText spec r false number = digitsText spec r number := by
    unfold numText
    dsimp only
    rw [if_neg (by decide), if_neg fun h => absurd (hsign.symm.trans h.1) (by decide)]
  rw [hnum]
  obtain ⟨hdigits, hvalue⟩ := ltostr_digits hr hr' r.upcase hnumber
  obtain ⟨a, z, k, htext, -⟩ :=
    printOut_text spec ⟨[], 0⟩ (digitsText_sound spec r hpre2 number).1
  rw [htext, Out.text, List.flatten_nil, List.nil_append]
  simp only [List.append_assoc]
  rcases digitsText_parts spec hr hr' hpre2 hnumber with
    ⟨rfl, htodo, hbody, -⟩ | ⟨-, hhead, hbody⟩
  · have hhead : (digitsText spec r 0).head = [] := by rw [Text.head, htodo, List.take_zero]
    have hread := strtoul_layout hr hr' (.inr (Eq.refl [])) (show 0 < 2 ^ 32 by decide) a z k
    rw [List.append_assoc] at hread
    rw [hhead, hbody, List.nil_append, hread]
    rfl
  · rw [hhead, hbody]
    generalize ltostr bufRoom number r.base r.upcase = ds at hdigits hvalue
    rcases hpre with h | ⟨hbase, h⟩ | ⟨hbase, x, hx, h⟩
    · have hread := strtoul_layout hr hr' (.inl hdigits) (by rwa [hvalue]) a z k
      rw [List.append_assoc] at hread
      rw [h, List.nil_append, hread, hvalue]
    · have hread := strtoul_layout hr hr' (.inl hdigits) (by rwa [hvalue]) a (z + 1) k
      rw [List.append_assoc, zeros_cons, List.cons_append] at hread
      rw [h, List.singleton_append, hread, hvalue]
    · rw [hbase] at hdigits hvalue ⊢
      have hread := strtoul_hex hx (Digits.zeros (by decide) hdigits z)
        (by rwa [number_zeros, hvalue]) a k
      rw [List.append_assoc, number_zeros, hvalue] at hread
      rw [h]
      exact hread

/-- Whatever stands between the `%` and the conversion of an `int` or `long`: the text that is
written is read as the number again, a signed one by `strtol` in base 10 and an unsigned one by
`strtoul` in the base of its conversion. -/
theorem printf_reads {format : Ptr} {args rest : List Arg}
    (hdir : directive .none 0 format args = some (.conv ch spec [] (.word v :: rest)))
    (hlong : spec.long = 0 ∨ spec.long = 1) :
    (Signed ch → ∃ n o, vPrintf ('%'.toUInt8 :: format) args = some (n, o) ∧
      (Stdlib.strtol o.text none 10).1 = v) ∧
    (Unsigned ch → ∃ n o, vPrintf ('%'.toUInt8 :: format) args = some (n, o) ∧
      (Stdlib.strtoul o.text none (BitVec.ofNat 32 (writesBase ch))).1 = v) := by
  constructor
  · intro hch
    have hconvert := convert_number (.inl hch) (radix_signed hch) ⟨[], 0⟩
      (number_word hlong true v rest)
    exact ⟨_, _, vPrintf_directive hdir hconvert, signed_reads spec v⟩
  · intro hch
    obtain ⟨r, spec', hradix, hlong', hbase, hsign, hpre⟩ := radix_unsigned hch hlong
    have hnumber : Stdarg.number spec' r.inSign (.word v :: rest) =
        some (false, v.toNat, rest) := by
      rw [hsign]
      exact number_word hlong' false v rest
    have hconvert := convert_number (.inr hch) hradix ⟨[], 0⟩ hnumber
    refine ⟨_, _, vPrintf_directive hdir hconvert, ?_⟩
    have hbounds : 2 ≤ writesBase ch ∧ writesBase ch ≤ 36 := by
      unfold writesBase
      repeat' split
      all_goals decide
    rw [← hbase] at hbounds ⊢
    have hread := unsigned_reads spec' hbounds.1 hbounds.2 hsign hpre v.isLt
    rwa [BitVec.ofNat_toNat, BitVec.setWidth_eq] at hread

/-- A number with a sign, a width and a precision, and one with a prefix. -/
theorem printf_reads_example :
    (∃ n o, vPrintf ("%+-9.5d".toList.map Char.toUInt8) [.word (-42)] = some (n, o) ∧
      (Stdlib.strtol o.text none 10).1 = -42) ∧
    ∃ n o, vPrintf ("%#010lX".toList.map Char.toUInt8) [.word 0xbeef] = some (n, o) ∧
      (Stdlib.strtoul o.text none 16).1 = 0xbeef := by
  have hsigned : directive .none 0 ("+-9.5d".toList.map Char.toUInt8) [.word (-42)] =
      some (.conv 'd'.toUInt8 { Spec.none with left := true, sign := true, dot := true, width := 9, preci := 5 }
        [] [.word (-42)]) := by decide +kernel
  have hhex : directive .none 0 ("#010lX".toList.map Char.toUInt8) [.word 0xbeef] =
      some (.conv 'X'.toUInt8 { Spec.none with padwith := '0'.toUInt8, hash := -1, long := 1, width := 10 }
        [] [.word 0xbeef]) := by decide +kernel
  exact ⟨(printf_reads hsigned (.inl rfl)).1 (.inl rfl),
    (printf_reads hhex (.inr rfl)).2 (.inr (.inr (.inr (.inr (.inl rfl)))))⟩

end Xmertl.Partikle.Stdarg
