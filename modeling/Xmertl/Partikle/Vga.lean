import Mathlib.Data.Int.Order.Basic
import Mathlib.Logic.Function.Basic

/-!
# The text terminal

`vga.c`, with the `memcpy` of `string.c` that scrolls the screen. A result is `none` where the
text buffer is accessed outside its bounds. What the screen is to show is a sheet with a row for
each line, of which it has the last ones.
-/

namespace Xmertl.Partikle.Vga

def columns : Nat := 80

def lines : Nat := 25

def textAttribute : UInt8 := 7

def bufferSize : Nat := columns * lines * 2

abbrev Buffer := Nat → UInt8

namespace Buffer

def get (b : Buffer) (i : Int) : Option UInt8 :=
  if 0 ≤ i ∧ i < bufferSize then some (b i.toNat) else none

def put (b : Buffer) (i : Int) (c : UInt8) : Option Buffer :=
  if 0 ≤ i ∧ i < bufferSize then some (Function.update b i.toNat c) else none

def memcpy (b : Buffer) (dst src : Int) : Nat → Option Buffer
  | 0 => some b
  | count + 1 => do (← b.put dst (← b.get src)).memcpy (dst + 1) (src + 1) count

/-- A loop that stores `ATTRIBUTE << 8` in the `unsigned short`s from `pos` on. -/
def blank (b : Buffer) (pos : Int) : Nat → Option Buffer
  | 0 => some b
  | n + 1 => do (← (← b.put (2 * pos) 0).put (2 * pos + 1) textAttribute).blank (pos + 1) n

end Buffer

structure Terminal where
  buffer : Buffer
  xpos : Int
  ypos : Int
  /-- CURSOR_LOC_H and CURSOR_LOC_L, START_ADDR_H and START_ADDR_L of the controller. -/
  cursorLocH : UInt8
  cursorLocL : UInt8
  startAddrH : UInt8
  startAddrL : UInt8

namespace Terminal

def vgaSetStartAddr (t : Terminal) (addr : Int) : Terminal :=
  { t with startAddrH := .ofInt (addr >>> (8 : Nat)), startAddrL := .ofInt addr }

def vgaSetCursorPos (t : Terminal) (pos : Int) : Terminal :=
  { t with cursorLocH := .ofInt (pos >>> (8 : Nat)), cursorLocL := .ofInt pos }

def cursor (t : Terminal) : Nat := t.cursorLocH.toNat * 256 + t.cursorLocL.toNat

def clrTerminal (t : Terminal) : Option Terminal := do
  let buffer ← t.buffer.blank 0 (columns * lines)
  return ({ t with buffer, xpos := 0, ypos := 0 }.vgaSetStartAddr 0).vgaSetCursorPos 0

def newline (t : Terminal) : Option Terminal := do
  let t := { t with xpos := 0, ypos := t.ypos + 1 }
  let t ←
    if t.ypos = (lines : Int) then do
      let buffer ← t.buffer.memcpy 0 (columns * 2) ((lines - 1) * columns * 2)
      let buffer ← buffer.blank ((lines - 1) * columns) columns
      pure { t with buffer, ypos := t.ypos - 1 }
    else pure t
  return t.vgaSetCursorPos (t.xpos + t.ypos * columns)

/-- `xpos` goes on, or the line is full. -/
def forward (t : Terminal) (n : Int) : Option Terminal :=
  let t := { t with xpos := t.xpos + n }
  if t.xpos ≥ (columns : Int) then t.newline else some (t.vgaSetCursorPos (t.xpos + t.ypos * columns))

def putcharTerminal (t : Terminal) (c : UInt8) : Option Terminal :=
  if c = 9 then t.forward 3
  else if c = 10 ∨ c = 13 then t.newline
  else do
    let buffer ← t.buffer.put ((t.xpos + t.ypos * columns) * 2) c
    let buffer ← buffer.put ((t.xpos + t.ypos * columns) * 2 + 1) textAttribute
    { t with buffer }.forward 1

def printScreen (t : Terminal) (str : List UInt8) : Option Terminal :=
  str.foldlM putcharTerminal t

end Terminal

-- ---------------------------------------------------------------------------
-- The text
-- ---------------------------------------------------------------------------

/-- A text in rows of 80 cells, and where it goes on. Below that row there is nothing. -/
structure Sheet where
  cell : Nat → Nat → UInt8
  row : Nat
  col : Nat
  col_lt : col < columns
  blank : ∀ r, row < r → ∀ x, cell r x = 0

theorem columns_pos : 0 < columns := by decide

namespace Sheet

def empty : Sheet where
  cell _ _ := 0
  row := 0
  col := 0
  col_lt := columns_pos
  blank _ _ _ := rfl

def newline (s : Sheet) : Sheet where
  cell := s.cell
  row := s.row + 1
  col := 0
  col_lt := columns_pos
  blank r hr := s.blank r (Nat.lt_of_succ_lt hr)

theorem blank_write (s : Sheet) (c : UInt8) (r : Nat) (hr : s.row < r) (x : Nat) :
    (if r = s.row ∧ x = s.col then c else s.cell r x) = 0 := by
  rw [if_neg fun h => Nat.ne_of_gt hr h.1, s.blank r hr]

def write (s : Sheet) (c : UInt8) : Sheet where
  cell r x := if r = s.row ∧ x = s.col then c else s.cell r x
  row := s.row
  col := s.col
  col_lt := s.col_lt
  blank := s.blank_write c

def forward (s : Sheet) (n : Nat) : Sheet :=
  if h : s.col + n < columns then { s with col := s.col + n, col_lt := h } else s.newline

/-- A tab advances three cells, a newline or a carriage return begins a row. -/
def put (s : Sheet) (c : UInt8) : Sheet :=
  if c = 9 then s.forward 3
  else if c = 10 ∨ c = 13 then s.newline
  else (s.write c).forward 1

def text (str : List UInt8) : Sheet := str.foldl put empty

/-- The first of the last 25 rows. -/
def top (s : Sheet) : Nat := s.row + 1 - lines

end Sheet

/-- The buffer has the last rows, in the attribute of the terminal. -/
structure Holds (b : Buffer) (s : Sheet) : Prop where
  cell : ∀ y < lines, ∀ x < columns, b ((x + y * columns) * 2) = s.cell (s.top + y) x
  attr : ∀ y < lines, ∀ x < columns, b ((x + y * columns) * 2 + 1) = textAttribute

/-- The terminal shows the last rows of the text, its cursor at the end, on the screen and where
the controller has it. -/
structure Shows (t : Terminal) (s : Sheet) : Prop where
  holds : Holds t.buffer s
  xpos : t.xpos = s.col
  ypos : t.ypos = (s.row - s.top : Nat)
  xpos_lt : s.col < columns
  ypos_lt : s.row - s.top < lines
  cursor : t.cursor = s.col + (s.row - s.top) * columns

section
variable {b : Buffer} {t : Terminal} {s : Sheet} {i k n pos dst : Nat} {c : UInt8}

-- ---------------------------------------------------------------------------
-- The loops over the buffer
-- ---------------------------------------------------------------------------

namespace Buffer

theorem get_natCast (h : i < bufferSize) : b.get i = some (b i) := by
  rw [get, if_pos ⟨by omega, by omega⟩, Int.toNat_natCast]

theorem put_natCast (h : i < bufferSize) : b.put i c = some (Function.update b i c) := by
  rw [put, if_pos ⟨by omega, by omega⟩, Int.toNat_natCast]

theorem memcpy_eq (b : Buffer) (dst k n : Nat) (hk : 0 < k) (h : dst + k + n ≤ bufferSize) :
    ∃ b', b.memcpy (dst : Int) ((dst + k : Nat) : Int) n = some b' ∧
      ∀ i, b' i = if dst ≤ i ∧ i < dst + n then b (i + k) else b i := by
  induction n generalizing b dst with
  | zero => exact ⟨b, rfl, fun i => (if_neg (by omega)).symm⟩
  | succ n ih =>
    let b₁ : Buffer := Function.update b dst (b (dst + k))
    obtain ⟨b', hb', hi⟩ := ih b₁ (dst + 1) (by omega)
    refine ⟨b', ?_, fun i => ?_⟩
    · rw [memcpy, get_natCast (by omega)]
      simp only [Option.bind_eq_bind, Option.bind_some, put_natCast (c := b (dst + k))
        (show dst < bufferSize by omega)]
      rw [show dst + 1 + k = dst + k + 1 by omega] at hb'
      exact hb'
    · have hsrc : ∀ j, dst < j → b₁ j = b j := fun j hj => Function.update_of_ne (by omega) _ _
      rw [hi i]
      by_cases hdst : i = dst
      · rw [hdst, if_neg (by omega), if_pos (by omega)]
        exact Function.update_self ..
      · by_cases hin : dst ≤ i ∧ i < dst + (n + 1)
        · rw [if_pos (by omega), if_pos hin, hsrc (i + k) (by omega)]
        · rw [if_neg (by omega), if_neg hin]
          exact Function.update_of_ne hdst _ _

theorem blank_eq (b : Buffer) (pos n : Nat) (h : (pos + n) * 2 ≤ bufferSize) :
    ∃ b', b.blank (pos : Int) n = some b' ∧ ∀ i, b' i =
      if 2 * pos ≤ i ∧ i < 2 * (pos + n) then (if i % 2 = 0 then 0 else textAttribute) else b i := by
  induction n generalizing b pos with
  | zero => exact ⟨b, rfl, fun i => (if_neg (by omega)).symm⟩
  | succ n ih =>
    let b₀ : Buffer := Function.update b (2 * pos) 0
    let b₁ : Buffer := Function.update b₀ (2 * pos + 1) textAttribute
    obtain ⟨b', hb', hi⟩ := ih b₁ (pos + 1) (by omega)
    refine ⟨b', ?_, fun i => ?_⟩
    · have heven : b.put (2 * pos : Nat) 0 = some b₀ := put_natCast (by omega)
      have hodd : b₀.put (2 * pos + 1 : Nat) textAttribute = some b₁ := put_natCast (by omega)
      rw [Int.natCast_mul] at heven
      rw [Int.natCast_add, Int.natCast_mul] at hodd
      rw [blank, show (2 : Int) * pos = (2 : Nat) * (pos : Int) from rfl, heven]
      simp only [Option.bind_eq_bind, Option.bind_some]
      rw [show (1 : Int) = (1 : Nat) from rfl, hodd]
      exact hb'
    · rw [hi i]
      have hodd : b₁ (2 * pos + 1) = textAttribute := Function.update_self ..
      have heven : b₁ (2 * pos) = 0 := by
        rw [show b₁ (2 * pos) = b₀ (2 * pos) from Function.update_of_ne (by omega) _ _]
        exact Function.update_self ..
      by_cases hlater : 2 * (pos + 1) ≤ i ∧ i < 2 * (pos + 1 + n)
      · rw [if_pos hlater, if_pos (show 2 * pos ≤ i ∧ i < 2 * (pos + (n + 1)) by omega)]
      · rw [if_neg hlater]
        by_cases hin : 2 * pos ≤ i ∧ i < 2 * (pos + (n + 1))
        · rw [if_pos hin]
          rcases show i = 2 * pos ∨ i = 2 * pos + 1 by omega with rfl | rfl
          · rw [heven, if_pos (by omega)]
          · rw [hodd, if_neg (by omega)]
        · rw [if_neg hin]
          exact (Function.update_of_ne (by omega) _ _).trans (Function.update_of_ne (by omega) _ _)

end Buffer

theorem cursor_vgaSetCursorPos (hn : n < 65536) : (t.vgaSetCursorPos (n : Int)).cursor = n := by
  have hhigh : ((n : Int) >>> (8 : Nat)) = ((n / 256 : Nat) : Int) := by
    rw [Int.shiftRight_eq_div_pow]
    rfl
  have hbyte (m : Nat) : (UInt8.ofInt (m : Int)).toNat = m % 256 := by
    rw [UInt8.ofInt, UInt8.toNat_ofNat']
    omega
  unfold Terminal.cursor Terminal.vgaSetCursorPos
  dsimp only
  rw [hhigh, hbyte, hbyte]
  omega

-- ---------------------------------------------------------------------------
-- One character
-- ---------------------------------------------------------------------------

theorem Sheet.top_le (s : Sheet) : s.top ≤ s.row := by
  unfold Sheet.top lines
  omega

theorem Sheet.row_lt (s : Sheet) : s.row - s.top < lines := by
  unfold Sheet.top lines
  omega

theorem Holds.write (h : Holds b s) (c : UInt8) :
    Holds (Function.update (Function.update b ((s.col + (s.row - s.top) * columns) * 2) c)
      ((s.col + (s.row - s.top) * columns) * 2 + 1) textAttribute) (s.write c) := by
  have hcol := s.col_lt
  have htop := s.top_le
  constructor
  · intro y hy x hx
    rw [Function.update_of_ne (by omega)]
    show _ = if s.top + y = s.row ∧ x = s.col then c else s.cell (s.top + y) x
    by_cases hcell : s.top + y = s.row ∧ x = s.col
    · rw [if_pos hcell, hcell.2, show y = s.row - s.top by omega]
      exact Function.update_self ..
    · rw [if_neg hcell, Function.update_of_ne ?_, h.cell y hy x hx]
      unfold columns at *
      omega
  · intro y hy x hx
    by_cases hcell : (x + y * columns) * 2 + 1 = (s.col + (s.row - s.top) * columns) * 2 + 1
    · rw [hcell]
      exact Function.update_self ..
    · rw [Function.update_of_ne hcell, Function.update_of_ne (by omega), h.attr y hy x hx]

theorem Holds.newline (h : Holds b s) (hrow : s.row + 1 < lines) : Holds b s.newline := by
  have htop : s.newline.top = s.top := by
    unfold Sheet.top Sheet.newline lines at *
    dsimp only
    omega
  refine ⟨fun y hy x hx => ?_, h.attr⟩
  rw [htop]
  exact h.cell y hy x hx

theorem Holds.scroll {b' : Buffer} (h : Holds b s) (hrow : lines ≤ s.row + 1)
    (hcopy : ∀ i, i < 24 * 160 → b' i = b (i + 160))
    (hblank : ∀ x < columns, b' ((x + 24 * columns) * 2) = 0 ∧
      b' ((x + 24 * columns) * 2 + 1) = textAttribute) : Holds b' s.newline := by
  have htop : s.newline.top = s.top + 1 := by
    unfold Sheet.top Sheet.newline lines at *
    dsimp only
    omega
  have hrow : s.row < s.top + 1 + 24 := by
    have := s.row_lt
    unfold lines at this
    omega
  constructor
  · intro y hy x hx
    rw [htop]
    by_cases hlast : y = 24
    · rw [hlast, (hblank x hx).1]
      exact (s.blank _ hrow x).symm
    · have hcell := h.cell (y + 1) (by unfold lines at *; omega) x hx
      unfold columns lines at *
      rw [hcopy _ (by omega), show (x + y * 80) * 2 + 160 = (x + (y + 1) * 80) * 2 by omega, hcell,
        show s.top + (y + 1) = s.top + 1 + y by omega]
      rfl
  · intro y hy x hx
    by_cases hlast : y = 24
    · rw [hlast, (hblank x hx).2]
    · have hattr := h.attr (y + 1) (by unfold lines at *; omega) x hx
      unfold columns lines at *
      rw [hcopy _ (by omega), show (x + y * 80) * 2 + 1 + 160 = (x + (y + 1) * 80) * 2 + 1 by omega,
        hattr]

theorem Holds.shows (h : Holds t.buffer s) (hx : t.xpos = s.col)
    (hy : t.ypos = (s.row - s.top : Nat)) :
    Shows (t.vgaSetCursorPos (t.xpos + t.ypos * columns)) s where
  holds := h
  xpos := hx
  ypos := hy
  xpos_lt := s.col_lt
  ypos_lt := s.row_lt
  cursor := by
    have hcol := s.col_lt
    have hrow := s.row_lt
    have hpos : t.xpos + t.ypos * columns = (s.col + (s.row - s.top) * columns : Nat) := by
      rw [hx, hy, Int.natCast_add, Int.natCast_mul]
    rw [hpos, cursor_vgaSetCursorPos]
    unfold columns lines at *
    omega

theorem newline_shows (h : Holds t.buffer s) (hy : t.ypos = (s.row - s.top : Nat)) :
    ∃ t', t.newline = some t' ∧ Shows t' s.newline := by
  have htop : s.newline.top = s.row + 2 - lines := rfl
  unfold Terminal.newline
  by_cases hrow : s.row + 1 < lines
  · have hypos : t.ypos + 1 = (s.newline.row - s.newline.top : Nat) := by
      show _ = ((s.row + 1 - s.newline.top : Nat) : Int)
      unfold Sheet.top lines at *
      omega
    have hne : ¬t.ypos + 1 = (lines : Int) := by
      unfold Sheet.top lines at *
      omega
    simp only [if_neg hne, Option.bind_eq_bind]
    exact ⟨_, rfl, Holds.shows (t := { t with xpos := 0, ypos := t.ypos + 1 }) (h.newline hrow) rfl
      hypos⟩
  · have hypos : t.ypos + 1 - 1 = (s.newline.row - s.newline.top : Nat) := by
      show _ = ((s.row + 1 - s.newline.top : Nat) : Int)
      unfold Sheet.top lines at *
      omega
    have heq : t.ypos + 1 = (lines : Int) := by
      unfold Sheet.top lines at *
      omega
    obtain ⟨b₁, hb₁, hcopy⟩ := t.buffer.memcpy_eq 0 (columns * 2) ((lines - 1) * columns * 2)
      (by decide) (by decide)
    obtain ⟨b₂, hb₂, hblank⟩ := b₁.blank_eq ((lines - 1) * columns) columns (by decide)
    have hb₁ : t.buffer.memcpy 0 (columns * 2) ((lines - 1) * columns * 2) = some b₁ := hb₁
    have hb₂ : b₁.blank ((lines - 1) * columns) columns = some b₂ := hb₂
    simp only [if_pos heq, hb₁, hb₂, Option.bind_eq_bind, Option.bind_some]
    have hscroll : Holds b₂ s.newline := by
      refine h.scroll (Nat.le_of_not_lt hrow) (fun i hi => ?_) fun x hx => ?_
      · unfold columns lines at *
        rw [hblank, if_neg (by omega), hcopy, if_pos (by omega)]
      · unfold columns lines at *
        rw [hblank, hblank, if_pos (by omega), if_pos (by omega), if_pos (by omega),
          if_neg (by omega)]
        exact ⟨rfl, rfl⟩
    exact ⟨_, rfl, Holds.shows (t := { t with buffer := b₂, xpos := 0, ypos := t.ypos + 1 - 1 })
      hscroll rfl hypos⟩

theorem forward_shows (h : Holds t.buffer s) (hx : t.xpos = s.col)
    (hy : t.ypos = (s.row - s.top : Nat)) :
    ∃ t', t.forward n = some t' ∧ Shows t' (s.forward n) := by
  unfold Terminal.forward Sheet.forward
  dsimp only
  by_cases hfull : s.col + n < columns
  · rw [if_neg (by omega), dif_pos hfull]
    exact ⟨_, rfl, Holds.shows (t := { t with xpos := t.xpos + n })
      (s := { s with col := s.col + n, col_lt := hfull }) ⟨h.cell, h.attr⟩
      (by rw [Int.natCast_add, ← hx]) hy⟩
  · rw [if_pos (by omega), dif_neg hfull]
    exact newline_shows (t := { t with xpos := t.xpos + n }) h hy

theorem putchar_shows (h : Shows t s) (c : UInt8) :
    ∃ t', t.putcharTerminal c = some t' ∧ Shows t' (s.put c) := by
  unfold Terminal.putcharTerminal Sheet.put
  by_cases htab : c = 9
  · rw [if_pos htab, if_pos htab]
    exact forward_shows h.holds h.xpos h.ypos
  · rw [if_neg htab, if_neg htab]
    by_cases hnewline : c = 10 ∨ c = 13
    · rw [if_pos hnewline, if_pos hnewline]
      exact newline_shows h.holds h.ypos
    · rw [if_neg hnewline, if_neg hnewline]
      have hpos : (t.xpos + t.ypos * columns) * 2 =
          ((s.col + (s.row - s.top) * columns) * 2 : Nat) := by
        rw [h.xpos, h.ypos]
        push_cast
        rfl
      have hlt : (s.col + (s.row - s.top) * columns) * 2 + 1 < bufferSize := by
        have hcol := h.xpos_lt
        have hrow := h.ypos_lt
        unfold bufferSize columns lines at *
        omega
      have hbyte := Buffer.put_natCast (b := t.buffer) (c := c) (Nat.lt_of_succ_lt hlt)
      have hattr := Buffer.put_natCast (c := textAttribute) hlt
        (b := Function.update t.buffer ((s.col + (s.row - s.top) * columns) * 2) c)
      rw [hpos]
      rw [Int.natCast_add] at hattr
      simp only [hbyte, Option.bind_eq_bind, Option.bind_some]
      rw [show (1 : Int) = (1 : Nat) from rfl, hattr]
      exact forward_shows (t := { t with buffer := _ }) (h.holds.write c) h.xpos h.ypos

-- ---------------------------------------------------------------------------
-- Whole texts
-- ---------------------------------------------------------------------------

theorem clr_shows (t : Terminal) : ∃ t', t.clrTerminal = some t' ∧ Shows t' .empty := by
  obtain ⟨b, hb, hblank⟩ := t.buffer.blank_eq 0 (columns * lines) (by decide)
  have hb : t.buffer.blank 0 (columns * lines) = some b := hb
  have hholds : Holds b .empty := by
    constructor
    · intro y hy x hx
      unfold columns lines at *
      rw [hblank, if_pos (by omega), if_pos (by omega)]
      rfl
    · intro y hy x hx
      unfold columns lines at *
      rw [hblank, if_pos (by omega), if_neg (by omega)]
  unfold Terminal.clrTerminal
  rw [hb]
  exact ⟨_, rfl, Holds.shows (s := .empty)
    (t := { t with buffer := b, xpos := 0, ypos := 0 }.vgaSetStartAddr 0) hholds rfl rfl⟩

theorem printScreen_shows (h : Shows t s) (str : List UInt8) :
    ∃ t', t.printScreen str = some t' ∧ Shows t' (str.foldl Sheet.put s) := by
  induction str generalizing t s with
  | nil => exact ⟨t, rfl, h⟩
  | cons c str ih =>
    obtain ⟨t₁, ht₁, h₁⟩ := putchar_shows h c
    obtain ⟨t', ht', h'⟩ := ih h₁
    refine ⟨t', ?_, h'⟩
    rw [Terminal.printScreen, List.foldlM_cons, ht₁]
    exact ht'

theorem prints_shows (h : Shows t s) (strs : List (List UInt8)) :
    ∃ t', strs.foldlM Terminal.printScreen t = some t' ∧
      Shows t' (strs.flatten.foldl Sheet.put s) := by
  induction strs generalizing t s with
  | nil => exact ⟨t, rfl, h⟩
  | cons str strs ih =>
    obtain ⟨t₁, ht₁, h₁⟩ := printScreen_shows h str
    obtain ⟨t', ht', h'⟩ := ih h₁
    refine ⟨t', ?_, ?_⟩
    · rw [List.foldlM_cons, ht₁]
      exact ht'
    · rw [List.flatten_cons, List.foldl_append]
      exact h'

/-- Whatever is printed, in any number of calls, the accesses are inside the buffer and the
terminal shows the last rows of the text. -/
theorem screen_shows_text (t : Terminal) (strs : List (List UInt8)) :
    ∃ t', (do strs.foldlM Terminal.printScreen (← t.clrTerminal)) = some t' ∧
      Shows t' (.text strs.flatten) := by
  obtain ⟨t₀, ht₀, h₀⟩ := clr_shows t
  rw [ht₀]
  exact prints_shows h₀ strs

example : (Sheet.text [97, 9, 98, 13, 99]).cell 0 4 = 98 := by decide

end

end Xmertl.Partikle.Vga
