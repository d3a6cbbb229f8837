import Mathlib.Data.List.TakeWhile
import Mathlib.Logic.Function.Basic
import Xmertl.Lib.Returns
import Xmertl.Lib.Runs

/-!
# The console buffer

`xmprintf.c`: domains leave texts in a buffer, and the kernel prints what is in it when it
comes to it. A result is `none` where a buffer is accessed outside its bounds.
-/

namespace Xmertl.Xtratum

open Runs TotalCorrectness

def maxPrintkbuf : Nat := 2000

/-- `printkptr` is counted from the start of `in_printkbuf`. -/
structure PrintkBuf where
  inPrintkbuf : Nat → UInt8
  printkptr : Nat
  xmprint : Bool
  outPrintkbuf : Nat → UInt8

namespace PrintkBuf

def init : PrintkBuf := ⟨fun _ => 0, 0, false, fun _ => 0⟩

def get (buf : Nat → UInt8) (i : Nat) : Option UInt8 :=
  if i < maxPrintkbuf then some (buf i) else none

def put (buf : Nat → UInt8) (i : Nat) (c : UInt8) : Option (Nat → UInt8) :=
  if i < maxPrintkbuf then some (Function.update buf i c) else none

def store (buf : Nat → UInt8) (i : Nat) : List UInt8 → Option (Nat → UInt8)
  | [] => some buf
  | c :: text => do store (← put buf i c) (i + 1) text

def region (buf : Nat → UInt8) (i : Nat) : Nat → Option (List UInt8)
  | 0 => some []
  | n + 1 => do return (← get buf i) :: (← region buf (i + 1) n)

def string (buf : Nat → UInt8) : Nat → Nat → Option (List UInt8)
  | 0, _ => none
  | n + 1, i => do
    let c ← get buf i
    if c = 0 then return [] else return c :: (← string buf n (i + 1))

def textOf (str : Nat → UInt8) (n : Nat) : List UInt8 := (List.range n).map str

def fillPrintk (b : PrintkBuf) (str : Nat → UInt8) (length : Int) : Option (Int × PrintkBuf) := do
  let room : Int := maxPrintkbuf - b.printkptr - 30
  let i := if length > room then room else length
  if i ≤ 0 then return (0, b)
  let buf ← store b.inPrintkbuf b.printkptr (textOf str i.toNat)
  let printkptr := b.printkptr + i.toNat
  let buf ← put buf printkptr 0
  return (i, { b with inPrintkbuf := buf, printkptr, xmprint := true })

def writePrintkbuf (b : PrintkBuf) : Option (List UInt8 × PrintkBuf) := do
  let outPrintkbuf ← store b.outPrintkbuf 0 (← region b.inPrintkbuf 0 (b.printkptr + 1))
  let inPrintkbuf ← put b.inPrintkbuf 0 0
  let text ← string outPrintkbuf maxPrintkbuf 0
  return (text, { inPrintkbuf, printkptr := 0, xmprint := false, outPrintkbuf })

section
variable {buf : Nat → UInt8} {str : Nat → UInt8} {text : List UInt8} {i n : Nat} {c : UInt8}

theorem textOf_succ : textOf str (n + 1) = textOf str n ++ [str n] := by
  simp [textOf, List.range_succ]

theorem textOf_update : textOf (Function.update buf n c) n = textOf buf n := by
  refine List.map_congr_left fun k hk => ?_
  have hlt := List.mem_range.mp hk
  rw [Function.update_of_ne (by omega)]

theorem takeWhile_append_nul :
    (text ++ [0]).takeWhile (· ≠ 0) = text.takeWhile (· ≠ 0) := by
  induction text with
  | nil => rfl
  | cons c text ih =>
    by_cases hc : c = 0
    · simp [hc]
    · simp only [List.cons_append, List.takeWhile_cons, ih]

theorem store_spec (h : i + text.length ≤ maxPrintkbuf) : Returns (store buf i text) fun buf' =>
    textOf buf' (i + text.length) = textOf buf i ++ text := by
  induction text generalizing buf i with
  | nil => exact .pure (by simp)
  | cons c text ih =>
    rw [List.length_cons] at h
    have hi : i < maxPrintkbuf := by omega
    refine Returns.bind_eq (if_pos hi) ((ih (i := i + 1) (by omega)).mono fun buf' hb => ?_)
    have hlen : i + (c :: text).length = i + 1 + text.length := by
      rw [List.length_cons]
      omega
    rw [hlen, hb, textOf_succ, textOf_update, Function.update_self, List.append_assoc]
    rfl

theorem region_eq (h : i + n ≤ maxPrintkbuf) :
    region buf i n = some (textOf (fun k => buf (i + k)) n) := by
  induction n generalizing i with
  | zero => rfl
  | succ n ih =>
    have hi : i < maxPrintkbuf := by omega
    have hget : get buf i = some (buf i) := if_pos hi
    rw [region, hget, ih (by omega), textOf, textOf, List.range_succ_eq_map]
    simp [Function.comp_def, Nat.add_assoc, Nat.add_comm 1]

theorem string_eq {k : Nat} (hk : n ≤ k) (h : i + n ≤ maxPrintkbuf)
    (hz : 0 ∈ textOf (fun j => buf (i + j)) n) :
    string buf k i = some ((textOf (fun j => buf (i + j)) n).takeWhile (· ≠ 0)) := by
  induction n generalizing i k with
  | zero => simp [textOf] at hz
  | succ n ih =>
    obtain ⟨k, rfl⟩ := Nat.exists_eq_add_of_lt hk
    have hi : i < maxPrintkbuf := by omega
    have hget : get buf i = some (buf i) := if_pos hi
    have hsplit : textOf (fun j => buf (i + j)) (n + 1) =
        buf i :: textOf (fun j => buf (i + 1 + j)) n := by
      simp [textOf, List.range_succ_eq_map, Function.comp_def, Nat.add_assoc, Nat.add_comm 1]
    rw [hsplit] at hz ⊢
    rw [string, hget, Option.bind_eq_bind, Option.bind_some]
    by_cases hc : buf i = 0
    · simp [hc]
    · have hz' : 0 ∈ textOf (fun j => buf (i + 1 + j)) n :=
        (List.mem_cons.mp hz).resolve_left fun he => hc he.symm
      rw [if_neg hc, ih (by omega) (by omega) hz']
      simp [hc]

/-- The bytes before `printkptr` are `taken`, and the margin behind it is free. -/
structure Holds (b : PrintkBuf) (taken : List UInt8) : Prop where
  room : b.printkptr + 30 ≤ maxPrintkbuf
  taken : textOf b.inPrintkbuf b.printkptr = taken
  nul : b.inPrintkbuf b.printkptr = 0

variable {b : PrintkBuf} {taken : List UInt8} {length : Int}

@[simp] theorem length_textOf : (textOf str n).length = n := by simp [textOf]

theorem Holds.init : init.Holds [] := ⟨by decide, rfl, rfl⟩

theorem Holds.empty {f : Bool} {out : Nat → UInt8} : Holds ⟨Function.update buf 0 0, 0, f, out⟩ [] where
  room := Nat.le_of_ble_eq_true rfl
  taken := rfl
  nul := Function.update_self 0 0 buf

theorem fillPrintk_spec (h : b.Holds taken) : Returns (b.fillPrintk str length) fun q =>
    q.2.Holds (taken ++ textOf str q.1.toNat) := by
  have hroom := h.room
  rw [fillPrintk]
  generalize hi : (if length > (maxPrintkbuf : Int) - b.printkptr - 30 then
    (maxPrintkbuf : Int) - b.printkptr - 30 else length) = i
  dsimp only
  split
  · exact .pure (by simpa [textOf] using h)
  · have hle : b.printkptr + i.toNat + 30 ≤ maxPrintkbuf := by
      split at hi <;> omega
    refine Returns.bind (store_spec (by simp; omega)) fun buf hbuf => ?_
    refine Returns.bind_eq (if_pos (by omega)) (.pure ⟨hle, ?_, Function.update_self ..⟩)
    rw [length_textOf, h.taken] at hbuf
    rw [← hbuf]
    exact textOf_update

theorem writePrintkbuf_spec (h : b.Holds taken) : Returns b.writePrintkbuf fun q =>
    q.1 = taken.takeWhile (· ≠ 0) ∧ q.2.Holds [] := by
  have hroom := h.room
  have htext : textOf (fun k => b.inPrintkbuf (0 + k)) (b.printkptr + 1) = taken ++ [0] := by
    simp only [Nat.zero_add]
    rw [textOf_succ, h.taken, h.nul]
  refine Returns.bind_eq ((region_eq (by omega)).trans (congrArg some htext)) ?_
  have hlen : (taken ++ [0]).length = b.printkptr + 1 := by
    rw [← htext, length_textOf]
  refine Returns.bind (store_spec (by omega)) fun out hout => ?_
  have hall : textOf (fun j => out (0 + j)) (b.printkptr + 1) = taken ++ [0] := by
    rw [hlen] at hout
    simpa [textOf] using hout
  have hput : put b.inPrintkbuf 0 0 = some _ := if_pos (by decide)
  refine Returns.bind_eq hput ?_
  refine Returns.bind_eq (string_eq (n := b.printkptr + 1) (by omega) (by omega) ?_) ?_
  · rw [hall]
    exact List.mem_append_right _ List.mem_cons_self
  · rw [hall, takeWhile_append_nul]
    exact .pure ⟨rfl, .empty⟩

end

end PrintkBuf

-- ---------------------------------------------------------------------------
-- Runs
-- ---------------------------------------------------------------------------

inductive PrintCall
  | fill (str : Nat → UInt8) (length : Int)
  | write

/-- The buffer, what has been accepted since it was last printed, what was accepted for each
time before, and what has been printed. -/
structure Console where
  buf : PrintkBuf
  taken : List UInt8
  took : List (List UInt8)
  printed : List UInt8

def NulsLast (text : List UInt8) : Prop := ∀ c ∈ text.dropWhile (· ≠ 0), c = 0

namespace Console

open PrintkBuf

def init : Console := ⟨PrintkBuf.init, [], [], []⟩

/-- What `fill_printk` accepts is what it says that it does. -/
def call (x : Console) : PrintCall → Option Console
  | .fill str length => do
    let (i, buf) ← x.buf.fillPrintk str length
    return { x with buf, taken := x.taken ++ textOf str i.toNat }
  | .write => do
    let (text, buf) ← x.buf.writePrintkbuf
    return { buf, taken := [], took := x.took ++ [x.taken], printed := x.printed ++ text }

structure Inv (x : Console) : Prop where
  buf : x.buf.Holds x.taken
  printed : x.printed = (x.took.map fun t => t.takeWhile (· ≠ 0)).flatten

section
variable {x : Console} {c : PrintCall} {tr : List (Console × PrintCall)} {text : List UInt8}
  {texts : List (List UInt8)}

theorem Inv.call (h : x.Inv) : Returns (x.call c) Inv := by
  cases c with
  | fill str length =>
    exact (fillPrintk_spec h.buf).bind fun q hq => .pure ⟨hq, h.printed⟩
  | write =>
    refine (writePrintkbuf_spec h.buf).bind fun q ⟨htext, hq⟩ => .pure ⟨hq, ?_⟩
    simp [h.printed, htext]

theorem inv_of_run (hr : Run Console.call init tr x) : x.Inv :=
  hr.invariant (C := fun _ _ => True) ⟨.init, rfl⟩
    (fun _ _ _ hx _ hstep => hx.call.of_eq hstep) fun _ _ => trivial

theorem flatten_parts (texts : List (List UInt8)) {f g : List UInt8 → List UInt8}
    (h : ∀ t, List.Sublist (f t) (g t)) :
    (texts.map f).flatten = (texts.map g).flatten ↔ ∀ t ∈ texts, f t = g t := by
  refine ⟨fun he => ?_, fun he => by rw [List.map_congr_left he]⟩
  induction texts with
  | nil => simp
  | cons t texts ih =>
    have hrest : List.Sublist (texts.map f).flatten (texts.map g).flatten := by
      clear ih he
      induction texts with
      | nil => exact List.Sublist.refl _
      | cons u texts ih => exact (h u).append ih
    simp only [List.map_cons, List.flatten_cons] at he
    have hlen := congrArg List.length he
    simp only [List.length_append] at hlen
    have h₁ := (h t).length_le
    have h₂ := hrest.length_le
    have ht : f t = g t := (h t).eq_of_length (by omega)
    rw [ht] at he
    exact List.forall_mem_cons.mpr ⟨ht, ih (List.append_cancel_left he)⟩

theorem filter_takeWhile : (text.takeWhile (· ≠ 0)).filter (· ≠ 0) = text.takeWhile (· ≠ 0) :=
  List.filter_eq_self.mpr fun _ hc => List.mem_takeWhile_imp (p := fun c => decide (c ≠ 0)) hc

theorem takeWhile_eq_filter :
    text.takeWhile (· ≠ 0) = text.filter (· ≠ 0) ↔ NulsLast text := by
  have hsplit : text.filter (· ≠ 0) =
      text.takeWhile (· ≠ 0) ++ (text.dropWhile (· ≠ 0)).filter (· ≠ 0) := by
    conv_lhs => rw [← List.takeWhile_append_dropWhile (p := (· ≠ 0)) (l := text)]
    rw [List.filter_append, filter_takeWhile]
  rw [hsplit, List.self_eq_append_right, List.filter_eq_nil_iff, NulsLast]
  simp

/-- Every access is inside the two buffers. What has been printed is what had been accepted,
its NULs aside, exactly when in no text printed at once anything stood behind a NUL, and
with its NULs exactly when there were none. -/
theorem console_prints_iff (hr : Run Console.call init tr x) :
    (∀ c, (x.call c).isSome) ∧
      (x.printed = x.took.flatten.filter (· ≠ 0) ↔ ∀ t ∈ x.took, NulsLast t) ∧
      (x.printed = x.took.flatten ↔ ∀ t ∈ x.took, 0 ∉ t) := by
  have hinv := inv_of_run hr
  refine ⟨fun c => ?_, ?_, ?_⟩
  · obtain ⟨y, hy, -⟩ := hinv.call (c := c)
    exact Option.isSome_of_eq_some hy
  · have hsub (t : List UInt8) : List.Sublist (t.takeWhile (· ≠ 0)) (t.filter (· ≠ 0)) := by
      have hsub := (List.takeWhile_sublist (l := t) (· ≠ 0)).filter (· ≠ 0)
      rwa [filter_takeWhile] at hsub
    have hparts := flatten_parts x.took hsub
    rw [hinv.printed, List.filter_flatten, hparts]
    simp only [takeWhile_eq_filter]
  · have hparts := flatten_parts x.took (g := id) fun t =>
      List.takeWhile_sublist (l := t) (· ≠ 0)
    rw [List.map_id] at hparts
    rw [hinv.printed, hparts]
    refine forall₂_congr fun t _ => ?_
    rw [id, List.takeWhile_eq_self_iff]
    simp only [decide_eq_true_eq]
    exact ⟨fun hall hz => hall 0 hz rfl, fun hz c hc he => hz (he ▸ hc)⟩

def oneText : List PrintCall := [.fill (fun k => if k = 0 then 97 else 0) 1, .write]

theorem console_prints_run : ∃ tr x, Run Console.call init tr x ∧ x.took = [[97]] ∧
    (∀ c, (x.call c).isSome) ∧
      (x.printed = x.took.flatten.filter (· ≠ 0) ↔ ∀ t ∈ x.took, NulsLast t) ∧
      (x.printed = x.took.flatten ↔ ∀ t ∈ x.took, 0 ∉ t) := by
  have hrun : (exec Console.call init oneText).any fun q => decide (q.2.took = [[97]]) := by
    decide +kernel
  obtain ⟨tr, x, hr, hx⟩ := exec_any hrun
  exact ⟨tr, x, hr, of_decide_eq_true hx, console_prints_iff hr⟩

/-- Two texts of the serial domain: 'a' and 'b', each with its NUL. -/
def twoTexts : List PrintCall :=
  [.fill (fun k => if k = 0 then 97 else 0) 2, .fill (fun k => if k = 0 then 98 else 0) 2, .write]

/-- All four bytes are accepted, and only 'a' is printed. -/
theorem second_text_lost : ∃ tr x, Run Console.call init tr x ∧ x.took = [[97, 0, 98, 0]] ∧
    x.printed = [97] ∧ x.printed ≠ x.took.flatten.filter (· ≠ 0) ∧ x.printed ≠ x.took.flatten := by
  have hrun : (exec Console.call init twoTexts).any fun q =>
      decide (q.2.took = [[97, 0, 98, 0]] ∧ q.2.printed = [97]) := by
    decide +kernel
  obtain ⟨tr, x, hr, hx⟩ := exec_any hrun
  obtain ⟨htook, hprinted⟩ := of_decide_eq_true hx
  refine ⟨tr, x, hr, htook, hprinted, ?_, ?_⟩
  · rw [htook, hprinted]
    decide
  · rw [htook, hprinted]
    decide

end

end Console

end Xmertl.Xtratum
