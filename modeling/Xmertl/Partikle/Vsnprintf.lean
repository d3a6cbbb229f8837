import Mathlib.Data.List.GetD
import Xmertl.Partikle.Stdarg

/-!
# Output into a string of a given size

`__v_printf` counts what it passes to `put`, and `swrite` keeps of it what the string has
room for.
-/

namespace Xmertl.Partikle.Stdarg

open Stdlib

variable {o o' : Out} {spec : Spec} {t : Text} {s : List UInt8} {sz n : BitVec 32}
  {format : Ptr} {args args' : List Arg}

/-- All that has been passed to `put`. -/
def Out.text (o : Out) : List UInt8 := o.writes.flatten

def Out.Counted (o : Out) : Prop := o.len = BitVec.ofNat 32 o.text.length

-- ---------------------------------------------------------------------------
-- The count
-- ---------------------------------------------------------------------------

theorem Out.text_put (o : Out) (s : List UInt8) (sz : BitVec 32) :
    (o.put s sz).text = o.text ++ s.take sz.toNat := by
  simp [text, put]

theorem padLines_flatten (padwith : UInt8) (len : Nat) :
    (padLines padwith len).flatten = padLine padwith len := by
  have hlines : (List.replicate (len / 16) (padLine padwith 16)).flatten =
      padLine padwith (len / 16 * 16) := by
    rw [padLine, List.flatten_replicate_replicate, padLine]
  rw [padLines, List.flatten_append, hlines]
  split
  · rw [List.flatten_nil, List.append_nil]
    congr 1
    omega
  · rw [List.flatten_singleton, padLine, padLine, List.replicate_append_replicate, padLine]
    congr 1
    omega

theorem Out.text_pad (o : Out) (len : BitVec 32) (padwith : UInt8) :
    (o.pad len padwith).text = o.text ++ padLine padwith len.toInt.toNat := by
  rw [text, pad, List.flatten_append, padLines_flatten, ← text]

theorem Out.Counted.put (h : o.Counted) (hsz : sz.toNat ≤ s.length) : (o.put s sz).Counted := by
  have hlen : (o.put s sz).text.length = o.text.length + sz.toNat := by
    rw [Out.text_put, List.length_append, List.length_take, Nat.min_eq_left hsz]
  rw [Counted, hlen, BitVec.ofNat_add, BitVec.ofNat_toNat, BitVec.setWidth_eq, ← h]
  rfl

theorem Out.Counted.pad (h : o.Counted) (len : BitVec 32) (padwith : UInt8) :
    (o.pad len padwith).Counted := by
  have hlen : (o.pad len padwith).text.length = o.text.length + len.toInt.toNat := by
    rw [Out.text_pad, List.length_append, padLine, List.length_replicate]
  rw [Counted, hlen, BitVec.ofNat_add, ← h]
  rfl

/-- A text that holds what is to be written of it. -/
structure Text.Sound (t : Text) : Prop where
  todo : t.todo ≤ t.sz.toNat
  sz : t.sz.toNat ≤ t.s.length

theorem Text.Sound.todo_toNat (h : t.Sound) : (BitVec.ofNat 32 t.todo).toNat = t.todo := by
  have hsz := t.sz.isLt
  have htodo := h.todo
  rw [BitVec.toNat_ofNat, Nat.mod_eq_of_lt (by omega)]

theorem Text.Sound.rest (h : t.Sound) : (t.sz - BitVec.ofNat 32 t.todo).toNat =
    t.sz.toNat - t.todo := by
  have hsz := t.sz.isLt
  have htodo := h.todo
  rw [BitVec.toNat_sub, h.todo_toNat]
  omega

theorem Out.Counted.printOut (h : o.Counted) (ht : t.Sound) : (printOut spec t o).Counted := by
  have hput {o : Out} (h : o.Counted) : (o.put t.s (BitVec.ofNat 32 t.todo)).Counted :=
    h.put (by rw [ht.todo_toNat]; exact ht.todo.trans ht.sz)
  have hrest {o : Out} (h : o.Counted) :
      (o.put (t.s.drop t.todo) (t.sz - BitVec.ofNat 32 t.todo)).Counted :=
    h.put (by have hsz := ht.sz; rw [ht.rest, List.length_drop]; omega)
  have hite {p : Prop} [Decidable p] {o : Out} (h : o.Counted) :
      (if p then o.put t.s (BitVec.ofNat 32 t.todo) else o).Counted := by
    split
    · exact hput h
    · exact h
  unfold Stdarg.printOut
  split
  · exact h.put ht.sz
  · dsimp only
    split
    · split
      · exact hrest ((hite (h.pad _ _)).pad _ _)
      · exact hrest (hite ((hite h).pad _ _))
    · exact (hrest ((hite h).pad _ _)).pad _ _

theorem strText_sound (spec : Spec) (s : Option CString) : (strText spec s).Sound := by
  refine ⟨Nat.zero_le _, ?_⟩
  have hmod := Nat.mod_le ((s.map Subtype.val).getD nullText).length (2 ^ 32)
  unfold strText
  dsimp only
  split
  · rename_i hlt
    have hle := hlt.2
    rw [gt_iff_lt, BitVec.lt_def, BitVec.toNat_ofNat] at hle
    exact hle.le.trans hmod
  · rwa [BitVec.toNat_ofNat]

theorem ltostrLoop_length {base : Nat} {upCase : Bool} (room i : Nat) (tmp : List UInt8) :
    (ltostrLoop base upCase room i tmp).length ≤ room + tmp.length := by
  induction room generalizing i tmp with
  | zero => exact (Nat.zero_add _).ge
  | succ room ih =>
    unfold ltostrLoop
    split
    · omega
    · refine (ih _ _).trans ?_
      rw [List.length_cons]
      omega

theorem ltostr_length (i base : Nat) (upCase : Bool) : (ltostr bufRoom i base upCase).length ≤ 122 := by
  unfold ltostr
  dsimp only
  split
  · decide
  · exact ltostrLoop_length _ _ _

theorem digitsText_sound (spec : Spec) (r : Radix) (hr : r.pre.length ≤ 2) (number : Nat) :
    (digitsText spec r number).Sound ∧ (digitsText spec r number).s.length ≤ 124 := by
  have hlen := ltostr_length number r.base r.upcase
  have hsmall {k : Nat} (hk : k ≤ 124) : (BitVec.ofNat 32 k).toNat = k := by
    rw [BitVec.toNat_ofNat, Nat.mod_eq_of_lt (by omega)]
  unfold digitsText
  dsimp only
  generalize ltostr bufRoom number r.base r.upcase = digits at hlen
  have hall : (r.pre ++ digits).length = r.pre.length + digits.length := List.length_append
  split
  · have hle : (if spec.preci = 0 ∨ r.pre ≠ [] then 0 else r.pre.length) ≤ r.pre.length := by
      split <;> omega
    exact ⟨⟨Nat.zero_le _, by rw [hsmall (by omega), hall]; omega⟩, by dsimp only; omega⟩
  · exact ⟨⟨by rw [hsmall (by omega)]; exact Nat.le_add_right .., by rw [hsmall (by omega), hall]⟩,
      by dsimp only; omega⟩

theorem Text.Sound.signed (h : t.Sound) (hlen : t.s.length ≤ 124) (c : UInt8) :
    (t.signed c).Sound := by
  have hsz := h.sz
  have htodo := h.todo
  have hone : (t.sz + 1).toNat = t.sz.toNat + 1 := by
    rw [BitVec.toNat_add]
    show (t.sz.toNat + 1) % 2 ^ 32 = _
    omega
  refine ⟨?_, ?_⟩
  · show (if t.todo ≠ 0 then t.todo else 1) ≤ (t.sz + 1).toNat
    rw [hone]
    split <;> omega
  · show (t.sz + 1).toNat ≤ (c :: t.s).length
    rw [hone, List.length_cons]
    omega

theorem numText_sound (spec : Spec) (r : Radix) (hr : r.pre.length ≤ 2) (minus : Bool) (number : Nat) :
    (numText spec r minus number).Sound := by
  obtain ⟨hsound, hlen⟩ := digitsText_sound spec r hr number
  unfold numText
  dsimp only
  split
  · exact hsound.signed hlen _
  · split
    · exact hsound.signed hlen _
    · exact hsound

theorem radix_pre {ch : UInt8} {r : Radix} {spec' : Spec} (h : radix ch spec = some (r, spec')) :
    r.pre.length ≤ 2 := by
  unfold radix at h
  dsimp only at h
  repeat' split at h
  all_goals cases h
  all_goals simp

theorem Out.Counted.convert {ch : UInt8} (h : o.Counted)
    (hc : convert ch spec args o = some (o', args')) : o'.Counted := by
  unfold Stdarg.convert at hc
  split at hc
  · obtain ⟨⟨v, rest⟩, -, hc⟩ := Option.bind_eq_some_iff.mp hc
    obtain rfl := congrArg Prod.fst (Option.some.inj hc)
    exact h.put le_rfl
  split at hc
  · obtain rfl := congrArg Prod.fst (Option.some.inj hc)
    exact h.put le_rfl
  split at hc
  · obtain ⟨⟨s, rest⟩, -, hc⟩ := Option.bind_eq_some_iff.mp hc
    obtain rfl := congrArg Prod.fst (Option.some.inj hc)
    exact h.printOut (strText_sound spec s)
  split at hc
  · cases hc
  split at hc
  · rename_i r spec' hradix
    obtain ⟨⟨minus, number, rest⟩, -, hc⟩ := Option.bind_eq_some_iff.mp hc
    obtain rfl := congrArg Prod.fst (Option.some.inj hc)
    exact h.printOut (numText_sound _ r (radix_pre hradix) minus number)
  · obtain rfl := congrArg Prod.fst (Option.some.inj hc)
    exact h

theorem skipTo_le (format : Ptr) : skipTo format ≤ format.length :=
  (List.takeWhile_prefix _).length_le

theorem vPrintfLoop_counted (skip : Nat) (h : o.Counted)
    (hr : vPrintfLoop skip format args o = some (n, o')) :
    o'.Counted ∧ (n = -1 ∨ n = o'.len) := by
  induction format generalizing skip args o with
  | nil =>
    have heq : (o.len, o) = (n, o') := Option.some.inj (by cases skip <;> exact hr)
    obtain ⟨rfl, rfl⟩ := Prod.mk.inj heq
    exact ⟨h, .inr rfl⟩
  | cons ch format ih =>
    cases skip with
    | succ skip => exact ih skip h hr
    | zero =>
      unfold vPrintfLoop at hr
      split at hr
      · split at hr
        · cases hr
        · obtain ⟨rfl, rfl⟩ := Prod.mk.inj (Option.some.inj hr)
          exact ⟨h, .inl rfl⟩
        · split at hr
          · cases hr
          · rename_i hconvert
            exact ih _ (h.convert hconvert) hr
      · refine ih _ (h.put ?_) hr
        have hle := skipTo_le format
        rw [BitVec.toNat_ofNat, List.length_cons]
        exact (Nat.mod_le _ _).trans (Nat.succ_le_succ hle)

theorem vPrintf_counted (h : vPrintf format args = some (n, o)) :
    o.Counted ∧ (n = -1 ∨ n = o.len) := vPrintfLoop_counted 0 (show Out.Counted ⟨[], 0⟩ from rfl) h

-- ---------------------------------------------------------------------------
-- The string
-- ---------------------------------------------------------------------------

/-- The string has the first `limit` bytes of `pre`, and is as it was behind them and the NUL. -/
structure Keeps (limit : Nat) (mem₀ : Mem) (pre : List UInt8) (mem : Mem) (len : Nat) : Prop where
  count : len = min pre.length limit
  bytes : ∀ i < len, mem i = nth pre i
  behind : ∀ i, len < i → mem i = mem₀ i
  untouched : limit = 0 → mem = mem₀

variable {mem₀ mem : Mem} {pre ptr : List UInt8} {len size : BitVec 32}

theorem nth_append_left {i : Nat} (h : i < pre.length) : nth (pre ++ ptr) i = nth pre i := by
  rw [nth, List.getD_append _ _ _ _ h, nth]

theorem nth_append_right {i : Nat} (h : pre.length ≤ i) :
    nth (pre ++ ptr) i = nth ptr (i - pre.length) := by
  rw [nth, List.getD_append_right _ _ _ _ h, nth]

theorem Keeps.swrite (h : Keeps size.toNat mem₀ pre mem len.toNat) (hptr : ptr.length < 2 ^ 32) :
    ∃ mem' len', swrite ⟨some mem, len, size⟩ ptr = ⟨some mem', len', size⟩ ∧
      Stdarg.swrite ⟨none, len, size⟩ ptr = ⟨none, len', size⟩ ∧
      Keeps size.toNat mem₀ (pre ++ ptr) mem' len'.toNat := by
  have hle : len.toNat ≤ size.toNat := h.count.trans_le (Nat.min_le_right _ _)
  have htmp : (size - len).toNat = size.toNat - len.toNat := BitVec.toNat_sub_of_le hle
  have hnmemb : (BitVec.ofNat 32 ptr.length).toNat = ptr.length := by
    rw [BitVec.toNat_ofNat, Nat.mod_eq_of_lt hptr]
  unfold Stdarg.swrite
  dsimp only
  by_cases hroom : size - len > 0
  · rw [if_pos hroom, if_pos hroom]
    rw [gt_iff_lt, BitVec.lt_def, htmp] at hroom
    have hfull : len.toNat = pre.length := by
      have hlen := h.count
      have hpos : 0 < size.toNat - len.toNat := hroom
      omega
    generalize hn : (if BitVec.ofNat 32 ptr.length > size - len then size - len
      else BitVec.ofNat 32 ptr.length) = n
    have hnat : n.toNat = min ptr.length (size.toNat - len.toNat) := by
      rw [← hn]
      split
      · rename_i hgt
        rw [gt_iff_lt, BitVec.lt_def, hnmemb, htmp] at hgt
        rw [htmp, Nat.min_eq_right hgt.le]
      · rename_i hgt
        rw [gt_iff_lt, BitVec.lt_def, hnmemb, htmp] at hgt
        rw [hnmemb, Nat.min_eq_left (Nat.le_of_not_lt hgt)]
    have hsum : (len + n).toNat = len.toNat + n.toNat := by
      have hsize := size.isLt
      rw [BitVec.toNat_add, Nat.mod_eq_of_lt (by omega)]
    refine ⟨Function.update (memcpy mem len.toNat ptr n.toNat) (len + n).toNat 0, len + n, rfl, rfl,
      ?_, fun i hi => ?_, fun i hi => ?_, fun hzero => by omega⟩
    · rw [hsum, hnat, List.length_append]
      omega
    · rw [hsum] at hi
      rw [Function.update_of_ne (by omega)]
      unfold memcpy
      by_cases hin : len.toNat ≤ i
      · rw [if_pos ⟨hin, hi⟩, nth_append_right (by omega), hfull]
      · rw [if_neg fun hc => hin hc.1, nth_append_left (by omega)]
        exact h.bytes i (by omega)
    · rw [hsum] at hi
      rw [Function.update_of_ne (by omega)]
      unfold memcpy
      rw [if_neg (by omega)]
      exact h.behind i (by omega)
  · rw [if_neg hroom, if_neg hroom]
    rw [gt_iff_lt, BitVec.lt_def, htmp] at hroom
    have hlen := h.count
    have hfull : len.toNat = size.toNat := by
      have hzero : ¬0 < size.toNat - len.toNat := hroom
      omega
    refine ⟨mem, len, rfl, rfl, ?_, fun i hi => ?_, h.behind, h.untouched⟩
    · rw [List.length_append]
      omega
    · rw [nth_append_left (by omega)]
      exact h.bytes i hi

theorem Keeps.writes (h : Keeps size.toNat mem₀ pre mem len.toNat) (ws : List (List UInt8))
    (hws : (pre ++ ws.flatten).length < 2 ^ 32) :
    ∃ mem' len', ws.foldl Stdarg.swrite ⟨some mem, len, size⟩ = ⟨some mem', len', size⟩ ∧
      ws.foldl Stdarg.swrite ⟨none, len, size⟩ = ⟨none, len', size⟩ ∧
      Keeps size.toNat mem₀ (pre ++ ws.flatten) mem' len'.toNat := by
  induction ws generalizing pre mem len with
  | nil => exact ⟨mem, len, rfl, rfl, by rwa [List.flatten_nil, List.append_nil]⟩
  | cons ptr ws ih =>
    rw [List.flatten_cons, ← List.append_assoc] at hws ⊢
    have hshort : ptr.length < 2 ^ 32 := by
      simp only [List.length_append] at hws
      omega
    obtain ⟨mem', len', hsome, hnone, hnext⟩ := h.swrite hshort
    rw [List.foldl_cons, List.foldl_cons, hsome, hnone]
    exact ih hnext hws

theorem vsnprintf_eq (h : vPrintf format args = some (n, o)) (str : Option Mem)
    (size : BitVec 32) : vsnprintf str size format args =
      let sd := o.writes.foldl swrite ⟨str, 0, if size ≠ 0 then size - 1 else 0⟩
      let last := if size ≠ -1 ∧ n ≥ size then size - 1 else n
      some (n, if size ≠ 0 ∧ 0 ≤ n.toInt then sd.str.map fun mem => Function.update mem last.toNat 0
        else sd.str) := by
  unfold vsnprintf
  rw [h, Option.bind_eq_bind, Option.bind_some]
  dsimp only
  split <;> rfl

theorem toNat_pred (hsize : size ≠ 0) : (size - 1).toNat = size.toNat - 1 := by
  have hpos : size.toNat ≠ 0 := fun heq => hsize (BitVec.eq_of_toNat_eq heq)
  have hone : (1 : BitVec 32).toNat = 1 := rfl
  rw [BitVec.toNat_sub_of_le (BitVec.le_def.mpr (by omega)), hone]

theorem last_toNat {k : Nat} (hk : k < 2 ^ 31) (hn : n.toNat = k) (hsize : size ≠ 0) :
    (if size ≠ -1 ∧ n ≥ size then size - 1 else n).toNat = min k (size.toNat - 1) := by
  have hpos : size.toNat ≠ 0 := fun heq => hsize (BitVec.eq_of_toNat_eq heq)
  split
  · rename_i hcut
    have hle : size.toNat ≤ n.toNat := BitVec.le_def.mp hcut.2
    rw [toNat_pred hsize]
    omega
  · rename_i hfits
    have hlt : n.toNat < size.toNat := by
      by_cases hall : size = -1
      · rw [hall]
        show n.toNat < 4294967295
        omega
      · exact Nat.lt_of_not_le fun hle => hfits ⟨hall, BitVec.le_def.mpr hle⟩
    omega

/-- For a text that an `int` can count: `vsnprintf` answers how long the text is, whatever the
string has room for, and leaves the start of the text and a NUL in the string; nothing from
`size` on changes, also where the format breaks off. -/
theorem vsnprintf_truncates (h : vPrintf format args = some (n, o)) (hlen : o.text.length < 2 ^ 31)
    (mem₀ : Mem) (size : BitVec 32) :
    (n = -1 ∨ n.toNat = o.text.length) ∧ vsnprintf none size format args = some (n, none) ∧
    ∃ mem, vsnprintf (some mem₀) size format args = some (n, some mem) ∧
      (∀ i, size.toNat ≤ i → mem i = mem₀ i) ∧
      (n ≠ -1 → size ≠ 0 → (∀ i < min o.text.length (size.toNat - 1), mem i = nth o.text i) ∧
        mem (min o.text.length (size.toNat - 1)) = 0) := by
  obtain ⟨hcounted, hn⟩ := vPrintf_counted h
  have hvalue : n = -1 ∨ n.toNat = o.text.length := by
    refine hn.imp_right fun heq => ?_
    rw [heq, hcounted, BitVec.toNat_ofNat, Nat.mod_eq_of_lt (by omega)]
  refine ⟨hvalue, ?_⟩
  rw [vsnprintf_eq h, vsnprintf_eq h]
  dsimp only
  have hstart (limit : BitVec 32) : Keeps limit.toNat mem₀ [] mem₀ (0 : BitVec 32).toNat :=
    ⟨(Nat.zero_min _).symm, fun i hi => absurd hi (Nat.not_lt_zero i), fun _ _ => rfl, fun _ => rfl⟩
  obtain ⟨mem, len, hsome, hnone, hkeeps⟩ := (hstart (if size ≠ 0 then size - 1 else 0)).writes
    o.writes (by rw [List.nil_append]; exact hlen.trans (by decide))
  rw [List.nil_append, ← Out.text] at hkeeps
  rw [hsome, hnone]
  refine ⟨by split <;> rfl, ?_⟩
  by_cases hsize : size = 0
  · rw [if_neg fun hc => hc.1 hsize]
    rw [hsize] at hkeeps
    exact ⟨mem, rfl, fun i _ => congrFun (hkeeps.untouched rfl) i, fun _ hne => absurd hsize hne⟩
  · have hlimit := toNat_pred hsize
    have hpos : size.toNat ≠ 0 := fun heq => hsize (BitVec.eq_of_toNat_eq heq)
    rw [if_pos hsize] at hkeeps
    have hcount := hkeeps.count
    rw [hlimit] at hcount
    rcases hvalue with hfail | hok
    · rw [if_neg fun hc => absurd hc.2 (by rw [hfail]; decide)]
      exact ⟨mem, rfl, fun i hi => hkeeps.behind i (by omega), fun hne => absurd hfail hne⟩
    · have hint : 0 ≤ n.toInt := by
        rw [BitVec.toInt_eq_toNat_of_lt (by omega)]
        exact Int.natCast_nonneg _
      rw [if_pos ⟨hsize, hint⟩]
      rw [last_toNat hlen hok hsize]
      refine ⟨Function.update mem (min o.text.length (size.toNat - 1)) 0, rfl, fun i hi => ?_,
        fun _ _ => ⟨fun i hi => ?_, Function.update_self ..⟩⟩
      · rw [Function.update_of_ne (by omega)]
        exact hkeeps.behind i (by omega)
      · rw [Function.update_of_ne (by omega)]
        exact hkeeps.bytes i (by omega)

def exampleFormat : Ptr := "<%5d>".toList.map Char.toUInt8

def exampleOut : Out := ⟨["<".toList.map Char.toUInt8, "  ".toList.map Char.toUInt8,
  "-".toList.map Char.toUInt8, "42".toList.map Char.toUInt8, ">".toList.map Char.toUInt8], 7⟩

/-- Seven characters for a string of four bytes. -/
theorem vsnprintf_truncates_example : vPrintf exampleFormat [.word (-42)] = some (7, exampleOut) ∧
    ∃ mem, vsnprintf (some fun _ => 255) 4 exampleFormat [.word (-42)] = some (7, some mem) ∧
      (∀ i < 3, mem i = nth exampleOut.text i) ∧ mem 3 = 0 ∧ mem 4 = 255 := by
  have hprint : vPrintf exampleFormat [.word (-42)] = some (7, exampleOut) := by decide +kernel
  obtain ⟨-, -, mem, hmem, hbehind, hstart⟩ :=
    vsnprintf_truncates hprint (by decide) (fun _ => 255) 4
  obtain ⟨hbytes, hnul⟩ := hstart (by decide) (by decide)
  exact ⟨hprint, mem, hmem, hbytes, hnul, hbehind 4 (by decide)⟩

end Xmertl.Partikle.Stdarg
