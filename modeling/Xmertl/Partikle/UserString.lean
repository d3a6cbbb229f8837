import Mathlib.Data.List.TakeWhile
import Xmertl.Partikle.Strncpy

/-!
# Words of a string

`strtok` of the user library with the functions that it is made of, on the memory that it
changes: the calls after each other find the words between the delimiters, each of which is a
string of its own in the end.
-/

namespace Xmertl.Partikle.UserString

open Strncpy

/-- `for (i = 0; *s; ++s) ++i`, with so many rounds at most. -/
def strlenLoop (byte : Addr → UInt8) : Nat → Addr → Nat → Option Nat
  | 0, _, _ => none
  | k + 1, s, i => if byte s ≠ 0 then strlenLoop byte k (s + 1) (i + 1) else some i

def strlen (byte : Addr → UInt8) (s : Addr) : Option (BitVec 32) :=
  if s = 0 then some 0 else (strlenLoop byte (2 ^ 32) s 0).map (BitVec.ofNat 32)

/-- The loops of `strspn` and `strcspn`, over the bytes that they go on with. -/
def spanLoop (byte : Addr → UInt8) (a : UInt8 → Bool) : Nat → Addr → Nat → Option Nat
  | 0, _, _ => none
  | k + 1, s, l =>
    if byte s ≠ 0 then if a (byte s) then spanLoop byte a k (s + 1) (l + 1) else some l else some l

/-- The `for` loop over a set of `al` bytes. -/
def among (byte : Addr → UInt8) (set : Addr) (al : Int) (c : UInt8) : Bool :=
  (List.range al.toNat).any fun i => c == byte (nth set i)

def strspn (byte : Addr → UInt8) (s accept : Addr) : Option (BitVec 32) := do
  let al ← strlen byte accept
  (spanLoop byte (among byte accept al.toInt) (2 ^ 32) s 0).map (BitVec.ofNat 32)

def strcspn (byte : Addr → UInt8) (s reject : Addr) : Option (BitVec 32) := do
  let al ← strlen byte reject
  (spanLoop byte (fun c => !among byte reject al.toInt c) (2 ^ 32) s 0).map (BitVec.ofNat 32)

/-- What is returned, with the memory and `*ptrptr` after it. -/
def strtokR (m : Mem) (s delim ptr : Addr) : Option (Addr × Mem × Addr) := do
  let s := if s = 0 then ptr else s
  let s := s + (← strspn m.byte s delim)
  if m.byte s ≠ 0 then
    let tmp := s
    let s := s + (← strcspn m.byte s delim)
    if m.byte s ≠ 0 then return (tmp, m.put s 0, s + 1) else return (tmp, m, s)
  else return (0, m, s)

/-- Calls of `strtok`, the first for the string and the others for NULL. -/
def strtokCalls (delim : Addr) : Nat → Addr → Mem → Addr → Option (List Addr × Mem)
  | 0, _, m, _ => some ([], m)
  | n + 1, s, m, strtokPos => do
    let (tmp, m, strtokPos) ← strtokR m s delim strtokPos
    let (rest, m) ← strtokCalls delim n 0 m strtokPos
    return (tmp :: rest, m)

-- ---------------------------------------------------------------------------
-- What it is to do
-- ---------------------------------------------------------------------------

/-- The string at `p` has these bytes. -/
inductive Text (byte : Addr → UInt8) : Addr → List UInt8 → Prop
  | nul (h : byte p = 0) : Text byte p []
  | cons (h : byte p = c) (hc : c ≠ 0) (ht : Text byte (p + 1) t) : Text byte p (c :: t)

def words (set t : List UInt8) : List (List UInt8) :=
  (t.splitOnP (· ∈ set)).filter (· ≠ [])

-- ---------------------------------------------------------------------------
-- Strings
-- ---------------------------------------------------------------------------

variable {byte byte' : Addr → UInt8} {m m' : Mem} {p q s delim pos : Addr} {c : UInt8}
  {t xs ys set : List UInt8} {i j k n l : Nat}

theorem nth_nth : nth (nth p i) j = nth p (i + j) := by
  rw [nth, nth, nth, BitVec.ofNat_add, BitVec.add_assoc]

theorem nth_ne_zero (hp : p ≠ 0) (h : p.toNat + i < 2 ^ 32) : nth p i ≠ 0 := by
  intro h0
  have hn : (nth p i).toNat = 0 := by rw [h0]; rfl
  have hpos : p.toNat ≠ 0 := fun h => hp (BitVec.eq_of_toNat_eq h)
  rw [nth, BitVec.toNat_add, BitVec.toNat_ofNat] at hn
  omega

theorem Text.append (h : Text byte p (xs ++ ys)) : Text byte (nth p xs.length) ys := by
  induction xs generalizing p with
  | nil => rwa [List.length_nil, nth_zero]
  | cons c xs ih =>
    cases h with
    | cons _ _ ht => exact nth_succ ▸ ih ht

theorem Text.head (h : Text byte p t) : byte p = t.headD 0 := by
  cases h with
  | nul h => exact h
  | cons h _ _ => exact h

theorem Text.nonzero (h : Text byte p t) : ∀ c ∈ t, c ≠ 0 := by
  induction h with
  | nul => simp
  | cons _ hc _ ih => exact List.forall_mem_cons.mpr ⟨hc, ih⟩

theorem Text.getElem (h : Text byte p t) (hi : i < t.length) : byte (nth p i) = t[i] := by
  induction h generalizing i with
  | nul => exact absurd hi (Nat.not_lt_zero i)
  | cons h _ _ ih =>
    cases i with
    | zero => rwa [nth_zero]
    | succ i => rw [← nth_succ, ih (Nat.lt_of_succ_lt_succ hi)]; rfl

theorem Text.of_bytes (hb : ∀ i (h : i < t.length), byte (nth p i) = t[i]) (hc : ∀ c ∈ t, c ≠ 0)
    (hnul : byte (nth p t.length) = 0) : Text byte p t := by
  induction t generalizing p with
  | nil => exact .nul (nth_zero (p := p) ▸ hnul)
  | cons c t ih =>
    refine .cons ?_ (hc c List.mem_cons_self) (ih ?_ ?_ ?_)
    · simpa [nth_zero] using hb 0 (Nat.succ_pos _)
    · intro i hi
      rw [nth_succ, hb (i + 1) (Nat.succ_lt_succ hi)]
      rfl
    · exact fun c h => hc c (List.mem_cons_of_mem _ h)
    · rwa [nth_succ]

theorem strlenLoop_eq (h : Text byte p t) (hk : t.length < k) :
    strlenLoop byte k p i = some (i + t.length) := by
  induction h generalizing k i with
  | nul h =>
    obtain ⟨k, rfl⟩ := Nat.exists_eq_succ_of_ne_zero (Nat.ne_of_gt hk)
    rw [strlenLoop, if_neg (not_not.mpr h)]
    rfl
  | @cons p c t h hc _ ih =>
    obtain ⟨k, rfl⟩ := Nat.exists_eq_succ_of_ne_zero (Nat.ne_zero_of_lt hk)
    rw [strlenLoop, if_pos (h ▸ hc), ih (Nat.lt_of_succ_lt_succ hk), List.length_cons]
    congr 1
    omega

theorem strlen_eq (h : Text byte p t) (hp : p ≠ 0) (hl : t.length < 2 ^ 32) :
    strlen byte p = some (BitVec.ofNat 32 t.length) := by
  rw [strlen, if_neg hp, strlenLoop_eq h hl, Option.map_some, Nat.zero_add]

theorem spanLoop_eq {a : UInt8 → Bool} (h : Text byte p t) (hk : t.length < k) :
    spanLoop byte a k p l = some (l + (t.takeWhile a).length) := by
  induction h generalizing k l with
  | nul h =>
    obtain ⟨k, rfl⟩ := Nat.exists_eq_succ_of_ne_zero (Nat.ne_of_gt hk)
    rw [spanLoop, if_neg (not_not.mpr h)]
    rfl
  | @cons p c t h hc _ ih =>
    obtain ⟨k, rfl⟩ := Nat.exists_eq_succ_of_ne_zero (Nat.ne_zero_of_lt hk)
    rw [spanLoop, if_pos (h ▸ hc), h, List.takeWhile_cons]
    split
    · rw [ih (Nat.lt_of_succ_lt_succ hk), List.length_cons]
      congr 1
      omega
    · rfl

theorem among_eq (h : Text byte delim set) (hl : set.length < 2 ^ 31) :
    among byte delim (BitVec.ofNat 32 set.length).toInt = fun c => decide (c ∈ set) := by
  have hint : (BitVec.ofNat 32 set.length).toInt.toNat = set.length := by
    rw [BitVec.toInt_eq_toNat_of_lt (by rw [BitVec.toNat_ofNat]; omega), BitVec.toNat_ofNat]
    omega
  funext c
  rw [among, hint, Bool.eq_iff_iff, List.any_eq_true, decide_eq_true_iff, List.mem_iff_getElem]
  constructor
  · rintro ⟨i, hi, hc⟩
    exact ⟨i, List.mem_range.mp hi, by rw [← h.getElem]; exact (beq_iff_eq.mp hc).symm⟩
  · rintro ⟨i, hi, rfl⟩
    exact ⟨i, List.mem_range.mpr hi, beq_iff_eq.mpr (h.getElem hi).symm⟩

-- ---------------------------------------------------------------------------
-- Words
-- ---------------------------------------------------------------------------

@[simp] theorem words_nil : words set [] = [] := rfl

theorem words_delim (hc : c ∈ set) : words set (c :: t) = words set t := by
  have hsplit := List.splitOnP_append_cons_of_forall_mem (p := (· ∈ set)) (List.forall_mem_nil _) c
    (by simpa) t
  rw [List.nil_append] at hsplit
  rw [words, hsplit, List.filter_cons_of_neg (by simp), words]

theorem words_lead (h : ∀ c ∈ xs, c ∈ set) : words set (xs ++ ys) = words set ys := by
  induction xs with
  | nil => rfl
  | cons c xs ih =>
    obtain ⟨hc, hxs⟩ := List.forall_mem_cons.mp h
    rw [List.cons_append, words_delim hc, ih hxs]

theorem words_last (hne : xs ≠ []) (h : ∀ c ∈ xs, c ∉ set) : words set xs = [xs] := by
  rw [words, List.splitOnP_eq_singleton (by simpa using h)]
  simp [hne]

theorem words_first (hne : xs ≠ []) (h : ∀ c ∈ xs, c ∉ set) (hc : c ∈ set) :
    words set (xs ++ c :: ys) = xs :: words set ys := by
  rw [words, List.splitOnP_append_cons_of_forall_mem (by simpa using h) c (by simpa), words]
  simp [hne]

theorem strspn_eq (h : Text byte p t) (hd : Text byte delim set) (hne : delim ≠ 0)
    (ht : t.length < 2 ^ 32) (hset : set.length < 2 ^ 31) :
    strspn byte p delim = some (BitVec.ofNat 32 (t.takeWhile (· ∈ set)).length) := by
  rw [strspn, strlen_eq hd hne (by omega), Option.bind_eq_bind, Option.bind_some,
    among_eq hd hset, spanLoop_eq h ht, Option.map_some, Nat.zero_add]

theorem strcspn_eq (h : Text byte p t) (hd : Text byte delim set) (hne : delim ≠ 0)
    (ht : t.length < 2 ^ 32) (hset : set.length < 2 ^ 31) :
    strcspn byte p delim = some (BitVec.ofNat 32 (t.takeWhile (· ∉ set)).length) := by
  rw [strcspn, strlen_eq hd hne (by omega), Option.bind_eq_bind, Option.bind_some,
    among_eq hd hset, spanLoop_eq h ht, Option.map_some, Nat.zero_add]
  simp

theorem first_delim (set t : List UInt8) : ∃ ys, t = t.takeWhile (· ∉ set) ++ ys ∧
    (∀ c ∈ t.takeWhile (· ∉ set), c ∉ set) ∧ (ys = [] ∨ ∃ d rest, ys = d :: rest ∧ d ∈ set) := by
  induction t with
  | nil => exact ⟨[], rfl, by simp, .inl rfl⟩
  | cons c t ih =>
    rw [List.takeWhile_cons]
    by_cases hc : c ∈ set
    · exact ⟨c :: t, by simp [hc], by simp [hc], .inr ⟨c, t, rfl, hc⟩⟩
    · obtain ⟨ys, ht, hnone, hys⟩ := ih
      have hkeep : decide (c ∉ set) = true := decide_eq_true hc
      rw [if_pos hkeep]
      exact ⟨ys, by rw [List.cons_append, ← ht], List.forall_mem_cons.mpr ⟨hc, hnone⟩, hys⟩

theorem lead_delims (set t : List UInt8) : ∃ ys, t = t.takeWhile (· ∈ set) ++ ys ∧
    (∀ c ∈ t.takeWhile (· ∈ set), c ∈ set) ∧ (ys = [] ∨ ∃ c rest, ys = c :: rest ∧ c ∉ set) := by
  induction t with
  | nil => exact ⟨[], rfl, by simp, .inl rfl⟩
  | cons c t ih =>
    rw [List.takeWhile_cons]
    by_cases hc : c ∈ set
    · obtain ⟨ys, ht, hall, hys⟩ := ih
      rw [if_pos (decide_eq_true hc)]
      exact ⟨ys, by rw [List.cons_append, ← ht], List.forall_mem_cons.mpr ⟨hc, hall⟩, hys⟩
    · exact ⟨c :: t, by simp [hc], by simp [hc], .inr ⟨c, t, rfl, hc⟩⟩

-- ---------------------------------------------------------------------------
-- A call
-- ---------------------------------------------------------------------------

/-- What a call starts in, with a string `t` to go on in at `q` and the delimiters clear of
it. -/
structure Ready (m : Mem) (q delim : Addr) (t set : List UInt8) : Prop where
  text : Text m.byte q t
  start_ne : q ≠ 0
  length : q.toNat + t.length < 2 ^ 32
  delims : Text m.byte delim set
  delim_ne : delim ≠ 0
  count : set.length < 2 ^ 31
  apart : ∀ i < t.length, ∀ j ≤ set.length, nth q i ≠ nth delim j

/-- Nothing but delimiters of the string has been overwritten. -/
def Cut (m m' : Mem) (q : Addr) (t set : List UInt8) : Prop :=
  ∀ a, m'.byte a = m.byte a ∨ m'.byte a = 0 ∧ ∃ i c, t[i]? = some c ∧ c ∈ set ∧ a = nth q i

theorem Text.congr (h : Text byte p t)
    (hb : ∀ i ≤ t.length, byte' (nth p i) = byte (nth p i)) : Text byte' p t := by
  refine .of_bytes (fun i hi => ?_) h.nonzero ?_
  · rw [hb i (Nat.le_of_lt hi), h.getElem hi]
  · have hend : Text byte p (t ++ []) := by rwa [List.append_nil]
    rw [hb _ (Nat.le_refl _)]
    exact hend.append.head

theorem Ready.drop (h : Ready m q delim t set) (hk : k ≤ t.length) :
    Ready m (nth q k) delim (t.drop k) set where
  text := by
    have hsplit : t = t.take k ++ t.drop k := (List.take_append_drop k t).symm
    have htext := h.text
    rw [hsplit] at htext
    simpa [List.length_take, Nat.min_eq_left hk] using htext.append
  start_ne := nth_ne_zero h.start_ne (by have := h.length; omega)
  length := by
    have hl := h.length
    rw [nth, BitVec.toNat_add, BitVec.toNat_ofNat, List.length_drop]
    omega
  delims := h.delims
  delim_ne := h.delim_ne
  count := h.count
  apart i hi j hj := by
    rw [nth_nth]
    rw [List.length_drop] at hi
    exact h.apart (k + i) (by omega) j hj

theorem Ready.put (h : Ready m q delim t set) (hi : i < k) (hk : k ≤ t.length) :
    Ready (m.put (nth q i) 0) (nth q k) delim (t.drop k) set := by
  have hl := h.length
  have hd := h.drop hk
  refine ⟨hd.text.congr fun j hj => ?_, hd.start_ne, hd.length, h.delims.congr fun j hj => ?_,
    hd.delim_ne, hd.count, hd.apart⟩
  · rw [List.length_drop] at hj
    rw [nth_nth]
    exact put_nth_of_ne (by omega) (by omega) (by omega)
  · exact put_of_ne (h.apart i (by omega) j hj).symm

theorem strtokR_eq (hs : (if s = 0 then pos else s) = q)
    (hspan : strspn m.byte q delim = some (BitVec.ofNat 32 i))
    (hcspan : strcspn m.byte (nth q i) delim = some (BitVec.ofNat 32 j)) :
    strtokR m s delim pos =
      if m.byte (nth q i) ≠ 0 then
        if m.byte (nth q (i + j)) ≠ 0 then
          some (nth q i, m.put (nth q (i + j)) 0, nth q (i + j + 1))
        else some (nth q i, m, nth q (i + j))
      else some (0, m, nth q i) := by
  have hq : q + BitVec.ofNat 32 i = nth q i := rfl
  have hj : nth q i + BitVec.ofNat 32 j = nth q (i + j) := nth_nth
  have hnext : nth q (i + j) + 1 = nth q (i + j + 1) := nth_nth
  simp only [strtokR, hs, hspan, hcspan, hq, hj, hnext, Option.bind_eq_bind, Option.bind_some,
    Option.pure_def]

theorem strtokR_word (h : Ready m q delim t set) (hs : (if s = 0 then pos else s) = q) :
    (words set t = [] ∧ strtokR m s delim pos = some (0, m, nth q t.length)) ∨
    ∃ w a k m', words set t = w :: words set (t.drop k) ∧ k ≤ t.length ∧
      (a + w.length < k ∨ t.drop k = [] ∧ a + w.length = k) ∧
      strtokR m s delim pos = some (nth q a, m', nth q k) ∧ Text m'.byte (nth q a) w ∧
      Ready m' (nth q k) delim (t.drop k) set ∧ Cut m m' q t set := by
  have hl := h.length
  have hspan := strspn_eq h.text h.delims h.delim_ne (by omega) h.count
  obtain ⟨body, ht, hlead, hbody⟩ := lead_delims set t
  generalize t.takeWhile (· ∈ set) = lead at ht hlead hspan
  subst ht
  rw [List.length_append] at hl
  have hword : words set (lead ++ body) = words set body := words_lead hlead
  have htext : Text m.byte (nth q lead.length) body := h.text.append
  have hcspan := strcspn_eq htext h.delims h.delim_ne (by omega) h.count
  rw [hword, strtokR_eq hs hspan hcspan]
  rcases hbody with rfl | ⟨c, rest, rfl, hc⟩
  · have hnul : m.byte (nth q lead.length) = 0 := htext.head
    rw [if_neg (not_not.mpr hnul), List.append_nil]
    exact .inl ⟨rfl, rfl⟩
  · right
    have hstart : m.byte (nth q lead.length) ≠ 0 := by
      rw [htext.head]
      exact htext.nonzero c List.mem_cons_self
    have hw : (c :: rest).takeWhile (· ∉ set) ≠ [] := by simp [hc]
    obtain ⟨ys, ht, hnone, hys⟩ := first_delim set (c :: rest)
    generalize (c :: rest).takeWhile (· ∉ set) = w at ht hnone hw ⊢
    rw [ht] at htext hl h ⊢
    have hbehind : Text m.byte (nth q (lead.length + w.length)) ys := nth_nth ▸ htext.append
    rw [if_pos hstart]
    rcases hys with rfl | ⟨d, more, rfl, hd⟩
    · -- the string ends with the word
      have hnul : m.byte (nth q (lead.length + w.length)) = 0 := hbehind.head
      rw [if_neg (not_not.mpr hnul)]
      rw [List.append_nil] at htext h hl ⊢
      have hdrop : (lead ++ w).drop (lead.length + w.length) = [] := by simp
      refine ⟨w, lead.length, lead.length + w.length, m, ?_, by simp, .inr ⟨hdrop, rfl⟩, rfl, htext,
        h.drop (by simp), fun a => .inl rfl⟩
      rw [words_last hw hnone, hdrop]
      rfl
    · have hdelim : m.byte (nth q (lead.length + w.length)) ≠ 0 := by
        rw [hbehind.head]
        exact hbehind.nonzero d List.mem_cons_self
      rw [if_pos hdelim]
      have hdrop : (lead ++ (w ++ d :: more)).drop (lead.length + w.length + 1) = more := by
        have hsplit : lead ++ (w ++ d :: more) = lead ++ w ++ [d] ++ more := by simp
        rw [hsplit]
        exact List.drop_left' (by simp [Nat.add_assoc])
      have hk : lead.length + w.length + 1 ≤ (lead ++ (w ++ d :: more)).length := by
        simp only [List.length_append, List.length_cons]
        omega
      have hat : (lead ++ (w ++ d :: more))[lead.length + w.length]? = some d := by simp
      refine ⟨w, lead.length, lead.length + w.length + 1, _, ?_, hk, .inl (Nat.lt_succ_self _), rfl,
        ?_, h.put (Nat.lt_succ_self _) hk, fun a => ?_⟩
      · rw [words_first hw hnone hd, hdrop]
      · rw [List.length_append] at hl
        refine .of_bytes (fun i hi => ?_) (fun c hc => ?_) ?_
        · rw [nth_nth, put_nth_of_ne (by omega) (by omega) (by omega), ← nth_nth,
            htext.getElem (by rw [List.length_append]; omega), List.getElem_append_left hi]
        · exact htext.nonzero c (List.mem_append_left _ hc)
        · rw [nth_nth]
          exact put_self
      · by_cases ha : a = nth q (lead.length + w.length)
        · exact .inr ⟨ha ▸ put_self, _, d, hat, hd, ha⟩
        · exact .inl (put_of_ne ha)

theorem Cut.drop (h : Cut m m' (nth q k) (t.drop k) set) : Cut m m' q t set := by
  intro a
  refine (h a).imp_right fun ⟨hzero, i, c, hi, hc, ha⟩ => ⟨hzero, k + i, c, ?_, hc, ?_⟩
  · rwa [List.getElem?_drop] at hi
  · rw [ha, nth_nth]

theorem Cut.trans {m'' : Mem} (h : Cut m m' q t set) (h' : Cut m' m'' q t set) :
    Cut m m'' q t set := by
  intro a
  rcases h' a with ha | ha
  · rw [ha]
    exact h a
  · exact .inr ha

theorem Text.cut {w : List UInt8} (hw : Text m.byte (nth q i) w)
    (h : Cut m m' (nth q k) (t.drop k) set) (hl : q.toNat + t.length < 2 ^ 32) (hk : k ≤ t.length)
    (hbefore : i + w.length < k ∨ t.drop k = [] ∧ i + w.length = k) : Text m'.byte (nth q i) w := by
  refine hw.congr fun j hj => ?_
  rcases h (nth (nth q i) j) with ha | ⟨-, n, c, hn, -, ha⟩
  · exact ha
  · rcases hbefore with hlt | ⟨hnil, -⟩
    · -- the byte that is cut lies behind
      have hlen := (List.getElem?_eq_some_iff.mp hn).1
      rw [List.length_drop] at hlen
      rw [nth_nth, nth_nth, nth_inj (by omega) (by omega)] at ha
      omega
    · rw [hnil] at hn
      cases hn

theorem strtokCalls_words (h : Ready m q delim t set) (hs : (if s = 0 then pos else s) = q)
    (n : Nat) : ∃ toks m', strtokCalls delim n s m pos = some (toks, m') ∧ toks.length = n ∧
      Cut m m' q t set ∧ ∀ k < n,
        (∀ w, (words set t)[k]? = some w → ∃ p, p ≠ 0 ∧ toks[k]? = some p ∧ Text m'.byte p w) ∧
        ((words set t)[k]? = none → toks[k]? = some 0) := by
  induction n generalizing m q s pos t with
  | zero =>
    exact ⟨[], m, rfl, rfl, fun a => .inl rfl, fun k hk => absurd hk (Nat.not_lt_zero k)⟩
  | succ n ih =>
    have hl := h.length
    rcases strtokR_word h hs with
      ⟨hnone, hcall⟩ | ⟨w, a, k, m₁, hword, hk, hbefore, hcall, hw, h₁, hcut⟩
    · obtain ⟨toks, m', hcalls, hlen, hcut, hrest⟩ := ih (h.drop (Nat.le_refl _)) (if_pos rfl)
      refine ⟨0 :: toks, m', ?_, by rw [List.length_cons, hlen], hcut.drop, fun i hi => ?_⟩
      · simp only [strtokCalls, hcall, hcalls, Option.bind_eq_bind, Option.bind_some,
          Option.pure_def]
      rw [hnone]
      cases i with
      | zero => simp
      | succ i => simpa using hrest i (Nat.lt_of_succ_lt_succ hi)
    · obtain ⟨toks, m', hcalls, hlen, hcut', hrest⟩ := ih h₁ (if_pos rfl)
      refine ⟨nth q a :: toks, m', ?_, by rw [List.length_cons, hlen], hcut.trans hcut'.drop,
        fun i hi => ?_⟩
      · simp only [strtokCalls, hcall, hcalls, Option.bind_eq_bind, Option.bind_some,
          Option.pure_def]
      rw [hword]
      cases i with
      | zero =>
        have hp : nth q a ≠ 0 := nth_ne_zero h.start_ne (by omega)
        have hstays : Text m'.byte (nth q a) w := hw.cut hcut' hl hk hbefore
        refine ⟨fun w' hw' => ⟨nth q a, hp, rfl, ?_⟩, fun hnone => by cases hnone⟩
        obtain rfl := Option.some.inj hw'
        exact hstays
      | succ i => simpa using hrest i (Nat.lt_of_succ_lt_succ hi)

/-- For a string that `strtok` is called with and called with NULL again, with delimiters that
are clear of it: the calls return the words of the text one after the other, and NULL from
then on. Each word is a string of its own when the calls are over, and nothing but delimiters
of the text has been overwritten. -/
theorem strtok_words {text : List UInt8} (hs : Text m.byte s text) (hne : s ≠ 0)
    (hl : s.toNat + text.length < 2 ^ 32) (hd : Text m.byte delim set) (hdne : delim ≠ 0)
    (hset : set.length < 2 ^ 31)
    (hapart : ∀ i < text.length, ∀ j ≤ set.length, nth s i ≠ nth delim j) (pos : Addr) (n : Nat) :
    ∃ toks m', strtokCalls delim n s m pos = some (toks, m') ∧ toks.length = n ∧
      Cut m m' s text set ∧ ∀ k < n,
        (∀ w, (words set text)[k]? = some w → ∃ p, p ≠ 0 ∧ toks[k]? = some p ∧ Text m'.byte p w) ∧
        ((words set text)[k]? = none → toks[k]? = some 0) :=
  strtokCalls_words ⟨hs, hne, hl, hd, hdne, hset, hapart⟩ (if_neg hne) n

/-- ",ab c", and the delimiters, a blank and a comma. -/
def sample : Mem where
  byte a := (([0x20, 0x2C, 0] : List UInt8)[a.toNat - 0x80]?).getD
    ((([0x2C, 0x61, 0x62, 0x20, 0x63] : List UInt8)[a.toNat - 0x100]?).getD 0)
  written := []

theorem strtok_words_two : ∃ (m' : Mem) (toks : List Addr),
    Text sample.byte 0x100 [0x2C, 0x61, 0x62, 0x20, 0x63] ∧
      strtokCalls 0x80 3 0x100 sample 0 = some (toks, m') ∧
      (∃ p, toks[0]? = some p ∧ Text m'.byte p [0x61, 0x62]) ∧
      (∃ p, toks[1]? = some p ∧ Text m'.byte p [0x63]) ∧ toks[2]? = some 0 := by
  have hs : Text sample.byte 0x100 [0x2C, 0x61, 0x62, 0x20, 0x63] :=
    .of_bytes (by decide +kernel) (by decide +kernel) (by decide +kernel)
  have hd : Text sample.byte 0x80 [0x20, 0x2C] :=
    .of_bytes (by decide +kernel) (by decide +kernel) (by decide +kernel)
  have hapart : ∀ i < 5, ∀ j ≤ 2, nth 0x100 i ≠ nth 0x80 j := by decide +kernel
  obtain ⟨toks, m', hcalls, -, -, hwords⟩ := strtok_words hs (by decide) (by decide) hd (by decide)
    (by decide) hapart 0 3
  have hw : words [0x20, 0x2C] [0x2C, 0x61, 0x62, 0x20, 0x63] = [[0x61, 0x62], [0x63]] := by
    decide +kernel
  rw [hw] at hwords
  obtain ⟨p, -, hp⟩ := (hwords 0 (by decide)).1 _ rfl
  obtain ⟨q, -, hq⟩ := (hwords 1 (by decide)).1 _ rfl
  exact ⟨m', toks, hs, hcalls, ⟨p, hp⟩, ⟨q, hq⟩, (hwords 2 (by decide)).2 rfl⟩

end Xmertl.Partikle.UserString
