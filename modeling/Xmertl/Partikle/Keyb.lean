import Mathlib.Data.Int.Order.Basic
import Mathlib.Data.List.Basic
import Xmertl.Lib.RingBuffer

/-!
# The keyboard

`keyb_handler` of `keyb.c` and the loop of `keyb_read`, with the keymap of `keymap.h`. A result
is `none` where the keymap or the buffer is accessed outside its bounds. A `char` of -1 is the
byte 0xFF.
-/

namespace Xmertl.Partikle.Keyboard

open RingBuffer

def keybBufsize : Int := 256

def kbdObf : UInt8 := 1

/-- The rows that are written out; those up to 127 are zero. -/
def keymapRows : List (Char × Char) :=
  [('\x00', '\x00'), ('\x1b', '\x1b'), ('1', '!'), ('2', '@'), ('3', '#'), ('4', '$'),
   ('5', '%'), ('6', '^'), ('7', '&'), ('8', '*'), ('9', '\x28'), ('0', '\x29'), ('-', '_'),
   ('=', '+'), ('\x08', '\x08'), ('\x09', '\x09'), ('q', 'Q'), ('w', 'W'), ('e', 'E'),
   ('r', 'R'), ('t', 'T'), ('y', 'Y'), ('u', 'U'), ('i', 'I'), ('o', 'O'), ('p', 'P'),
   ('\x5b', '\x7b'), ('\x5d', '\x7d'), ('\x0d', '\x0d'), ('\x00', '\x00'), ('a', 'A'),
   ('s', 'S'), ('d', 'D'), ('f', 'F'), ('g', 'G'), ('h', 'H'), ('j', 'J'), ('k', 'K'),
   ('l', 'L'), (';', ':'), ('\x27', '\x22'), ('\x60', '~'), ('\x00', '\x00'), ('\x5c', '|'),
   ('z', 'Z'), ('x', 'X'), ('c', 'C'), ('v', 'V'), ('b', 'B'), ('n', 'N'), ('m', 'M'),
   (',', '<'), ('.', '>'), ('/', '?'), ('\x00', '\x00'), ('\x00', '\x00'), ('\x00', '\x00'),
   (' ', ' '), ('\x00', '\x00'), ('\x00', '\x00'), ('\x00', '\x00'), ('\x00', '\x00'),
   ('\x00', '\x00'), ('\x00', '\x00'), ('\x00', '\x00'), ('\x00', '\x00'), ('\x00', '\x00'),
   ('\x00', '\x00'), ('\x00', '\x00'), ('\x00', '\x00'), ('\x00', '\x00'), ('7', '7'),
   ('8', '8'), ('9', '9'), ('-', '-'), ('4', '4'), ('5', '5'), ('6', '6'), ('+', '+'),
   ('1', '1'), ('2', '2'), ('3', '3'), ('0', '0'), ('.', '.')]

def keymap (scanCode shiftState : Nat) : Option UInt8 :=
  if scanCode < 128 ∧ shiftState < 2 then
    let row := keymapRows[scanCode]?.getD ('\x00', '\x00')
    some (if shiftState = 0 then row.1 else row.2).toUInt8
  else none

structure Keyb where
  keybBuffer : Int → UInt8
  buftail : Int
  bufhead : Int
  bufsize : Int
  shiftState : Nat
  escaped : Bool

namespace Keyb

def init : Keyb where
  keybBuffer _ := 0
  buftail := 0
  bufhead := 0
  bufsize := 0
  shiftState := 0
  escaped := false

def insertKeybBuffer (k : Keyb) (c : UInt8) : Option Keyb :=
  let k := if k.bufsize ≥ keybBufsize then { k with buftail := 0, bufhead := 0, bufsize := 0 } else k
  if 0 ≤ k.buftail ∧ k.buftail < keybBufsize then
    some { k with
      bufsize := k.bufsize + 1
      keybBuffer := Function.update k.keybBuffer k.buftail c
      buftail := (k.buftail + 1) % keybBufsize }
  else none

def extractKeybBuffer (k : Keyb) : Option (UInt8 × Keyb) :=
  if k.bufsize ≤ 0 then some (0xFF, k)
  else if 0 ≤ k.bufhead ∧ k.bufhead < keybBufsize then
    some (k.keybBuffer k.bufhead,
      { k with bufsize := k.bufsize - 1, bufhead := (k.bufhead + 1) % keybBufsize })
  else none

/-- With what it inserts in the buffer. `status` and `data` are what the ports give. -/
def keybHandler (k : Keyb) (status data : UInt8) : Option (List UInt8 × Keyb) :=
  if status &&& kbdObf = 0 then some ([], k)
  else
    let scanCode := if k.escaped then data.toNat + 256 else data.toNat
    if scanCode = 0x2a ∨ scanCode = 0x36 then some ([], { k with shiftState := 1 })
    else if scanCode = 0xaa ∨ scanCode = 0xb6 then some ([], { k with shiftState := 0 })
    else if scanCode = 0xe0 then some ([], { k with escaped := true })
    else if scanCode &&& 0x80 ≠ 0 then some ([], k)
    else do
      let newChar ← keymap scanCode k.shiftState
      return ([newChar], ← k.insertKeybBuffer newChar)

end Keyb

/-- An interrupt, or a round of the loop of `keyb_read`, which goes on as long as it gets -1. -/
inductive Event
  | irq (status data : UInt8)
  | extract

def Event.code : Event → Option UInt8
  | .irq status data => if status &&& kbdObf = 0 then none else some data
  | .extract => none

-- ---------------------------------------------------------------------------
-- The keyboard as it is meant
-- ---------------------------------------------------------------------------

def isMake (code : UInt8) : Bool := code &&& 0x80 = 0

def isShift (code : UInt8) : Bool := code = 0x2a || code = 0x36

def character (code : UInt8) (shift : Bool) : Option UInt8 := keymap code.toNat shift.toNat

/-- The shift keys that are held, whether a prefix has come, and what was not read yet, until
that was more than the buffer holds. -/
structure Board where
  left : Bool
  right : Bool
  pre : Bool
  unread : Option (List UInt8)

namespace Board

def init : Board := ⟨false, false, false, some []⟩

/-- What a code may append. The keymap has no character for a code after a prefix, so that any
one will do. -/
def Appends (d : Board) (code : UInt8) (cs : List UInt8) : Prop :=
  if !isMake code || !d.pre && isShift code then cs = []
  else ∃ c, cs = [c] ∧ (d.pre = false → character code (d.left || d.right) = some c)

def press (d : Board) (code : UInt8) : Board :=
  if d.pre then { d with pre := false }
  else if code = 0xe0 then { d with pre := true }
  else if code = 0x2a then { d with left := true }
  else if code = 0xaa then { d with left := false }
  else if code = 0x36 then { d with right := true }
  else if code = 0xb6 then { d with right := false }
  else d

def append (d : Board) (cs : List UInt8) : Board :=
  { d with unread := d.unread.bind fun q =>
      if ((q ++ cs).length : Int) ≤ keybBufsize then some (q ++ cs) else none }

/-- The oldest character comes first, and -1 where there is none. -/
def Returns (d : Board) (c : UInt8) : Prop :=
  ∀ q, d.unread = some q → match q with
    | [] => c = 0xFF
    | x :: _ => c = x ∧ c ≠ 0xFF

def take (d : Board) : Board := { d with unread := d.unread.map List.tail }

end Board

def Decodes (k : Keyb) (d : Board) : List Event → Prop
  | [] => True
  | .irq status data :: es => ∃ cs k', k.keybHandler status data = some (cs, k') ∧
      if status &&& kbdObf = 0 then cs = [] ∧ Decodes k' d es
      else d.Appends data cs ∧ Decodes k' ((d.press data).append cs) es
  | .extract :: es => ∃ c k', k.extractKeybBuffer = some (c, k') ∧ d.Returns c ∧
      Decodes k' d.take es

-- ---------------------------------------------------------------------------
-- The condition
-- ---------------------------------------------------------------------------

/-- The latest of the codes is one of a key's, and it is its make code. -/
def held (past : List UInt8) (make release : UInt8) : Bool :=
  past.find? (fun c => c = make || c = release) = some make

/-- Of the codes of shift keys, the latest is a make code. -/
def latest (past : List UInt8) : Bool :=
  (past.find? fun c => c = 0x2a || c = 0x36 || c = 0xaa || c = 0xb6).any fun c =>
    c = 0x2a || c = 0x36

/-- A make code comes before every prefix, and where its character depends on the shift keys, none
is still held after another was released. -/
def Plain (past : List UInt8) (code : UInt8) : Prop :=
  isMake code → 0xe0 ∉ past ∧ (isShift code ∨ character code false = character code true ∨
    (held past 0x2a 0xaa || held past 0x36 0xb6) = latest past)

/-- All the codes are, each after those before it. -/
def AllPlain (past : List UInt8) : List UInt8 → Prop
  | [] => True
  | code :: codes => Plain past code ∧ AllPlain (code :: past) codes

section
variable {k k' : Keyb} {d : Board} {q : List UInt8} {c code status : UInt8} {past : List UInt8}

-- ---------------------------------------------------------------------------
-- The buffer
-- ---------------------------------------------------------------------------

/-- The ring holds `q`. -/
structure Queue (k : Keyb) (q : List UInt8) : Prop where
  contents : contents k.keybBuffer keybBufsize k.bufhead q.length = q
  size : k.bufsize = q.length
  head : 0 ≤ k.bufhead ∧ k.bufhead < keybBufsize
  tail : k.buftail = (k.bufhead + q.length) % keybBufsize
  le : (q.length : Int) ≤ keybBufsize

theorem keybBufsize_pos : 0 < keybBufsize := by decide

theorem Queue.tail_lt (h : Queue k q) : 0 ≤ k.buftail ∧ k.buftail < keybBufsize := by
  rw [h.tail]
  exact ⟨Int.emod_nonneg _ (by decide), Int.emod_lt_of_pos _ keybBufsize_pos⟩

theorem Queue.insert (h : Queue k q) (c : UInt8) : ∃ k', k.insertKeybBuffer c = some k' ∧
    Queue k' (if ((q ++ [c]).length : Int) ≤ keybBufsize then q ++ [c] else [c]) ∧
    k'.shiftState = k.shiftState ∧ k'.escaped = k.escaped := by
  have hlength : ((q ++ [c]).length : Int) = q.length + 1 := by
    rw [List.length_append]
    rfl
  unfold Keyb.insertKeybBuffer
  rw [hlength]
  by_cases hfull : k.bufsize ≥ keybBufsize
  · have hsize := h.size
    have hle := h.le
    rw [if_pos hfull, if_neg (show ¬(q.length : Int) + 1 ≤ keybBufsize by omega)]
    dsimp only
    rw [if_pos ⟨Int.le_refl 0, keybBufsize_pos⟩]
    refine ⟨_, rfl, ⟨?_, rfl, ⟨Int.le_refl 0, keybBufsize_pos⟩, rfl,
      show (1 : Int) ≤ keybBufsize by decide⟩, rfl, rfl⟩
    have hsnoc : RingBuffer.contents (Function.update k.keybBuffer (0 % keybBufsize) c) keybBufsize 0
        (0 + 1) = RingBuffer.contents k.keybBuffer keybBufsize 0 0 ++ [c] :=
      contents_snoc keybBufsize_pos rfl keybBufsize_pos c
    exact hsnoc
  · have hsize := h.size
    have hlt : (q.length : Int) < keybBufsize := by omega
    rw [if_neg hfull, if_pos h.tail_lt, if_pos (by omega)]
    refine ⟨_, rfl, ⟨?_, ?_, h.head, ?_, by omega⟩, rfl, rfl⟩
    · show RingBuffer.contents (Function.update k.keybBuffer k.buftail c) _ _ _ = _
      rw [List.length_append, h.tail]
      have hsnoc : RingBuffer.contents
          (Function.update k.keybBuffer ((k.bufhead + q.length) % keybBufsize) c) keybBufsize k.bufhead
          (q.length + 1) = RingBuffer.contents k.keybBuffer keybBufsize k.bufhead q.length ++ [c] :=
        contents_snoc keybBufsize_pos rfl hlt c
      rw [h.contents] at hsnoc
      exact hsnoc
    · rw [hlength, ← hsize]
    · show (k.buftail + 1) % keybBufsize = _
      rw [hlength, h.tail, Int.emod_add_emod, Int.add_assoc]

theorem Queue.extract_nil (h : Queue k []) : k.extractKeybBuffer = some (0xFF, k) :=
  if_pos (Int.le_of_eq h.size)

theorem Queue.extract_cons (h : Queue k (c :: q)) : ∃ k', k.extractKeybBuffer = some (c, k') ∧
    Queue k' q ∧ k'.shiftState = k.shiftState ∧ k'.escaped = k.escaped := by
  have hlength : ((c :: q).length : Int) = q.length + 1 := rfl
  have hsize := h.size
  have hle := h.le
  have hcontents := h.contents
  rw [List.length_cons, Nat.add_comm, RingBuffer.contents, block_add] at hcontents
  obtain ⟨hfirst, hrest⟩ := List.cons.inj hcontents
  have hfirst : k.keybBuffer ((k.bufhead + 0) % keybBufsize) = c := hfirst
  rw [Int.add_zero, Int.emod_eq_of_lt h.head.1 h.head.2] at hfirst
  rw [Keyb.extractKeybBuffer, if_neg (by omega), if_pos h.head, hfirst]
  refine ⟨_, rfl, ⟨?_, ?_, ?_, ?_, by omega⟩, rfl, rfl⟩
  · show RingBuffer.contents k.keybBuffer keybBufsize ((k.bufhead + 1) % keybBufsize) _ = q
    rw [contents_place]
    exact hrest
  · show k.bufsize - 1 = q.length
    omega
  · exact ⟨Int.emod_nonneg _ (by decide), Int.emod_lt_of_pos _ keybBufsize_pos⟩
  · show k.buftail = ((k.bufhead + 1) % keybBufsize + q.length) % keybBufsize
    rw [h.tail, Int.emod_add_emod, hlength, Int.add_comm (q.length : Int), Int.add_assoc]

-- ---------------------------------------------------------------------------
-- The codes
-- ---------------------------------------------------------------------------

theorem isMake_iff : isMake code = true ↔ code.toNat &&& 0x80 = 0 := by
  have h : (code &&& 0x80).toNat = code.toNat &&& 0x80 := UInt8.toNat_and ..
  unfold isMake
  rw [decide_eq_true_iff, ← h]
  exact UInt8.toNat_inj.symm

theorem prefixed_bit (code : UInt8) : (code.toNat + 256) &&& 0x80 = code.toNat &&& 0x80 := by
  have h : ∀ n : Fin 256, (n.val + 256) &&& 0x80 = n.val &&& 0x80 := by decide +kernel
  exact h ⟨code.toNat, code.toNat_lt⟩

theorem isMake_lt (h : isMake code = true) : code.toNat < 128 := by
  have hfin : ∀ n : Fin 256, n.val &&& 0x80 = 0 → n.val < 128 := by decide +kernel
  exact hfin ⟨code.toNat, code.toNat_lt⟩ (isMake_iff.mp h)

theorem keymap_isSome {n m : Nat} (hn : n < 128) (hm : m < 2) :
    ∃ c, keymap n m = some c ∧ c ≠ 0xFF := by
  have h : ∀ n : Fin 128, ∀ m : Fin 2, (keymap n m).any (· ≠ 0xFF) = true := by decide +kernel
  obtain ⟨c, hc, hne⟩ := (Option.any_eq_true _ _).mp (h ⟨n, hn⟩ ⟨m, hm⟩)
  exact ⟨c, hc, of_decide_eq_true hne⟩

theorem handler_escaped (h : k.escaped = true) (hst : ¬status &&& kbdObf = 0) :
    k.keybHandler status code = if isMake code then none else some ([], k) := by
  unfold Keyb.keybHandler
  have hlt := code.toNat_lt
  rw [if_neg hst, if_pos h]
  dsimp only
  rw [if_neg (by omega), if_neg (by omega), if_neg (by omega), prefixed_bit]
  by_cases hmake : isMake code = true
  · rw [if_pos hmake, if_neg (not_not.mpr (isMake_iff.mp hmake)), keymap, if_neg (by omega)]
    rfl
  · rw [if_neg hmake, if_pos fun h => hmake (isMake_iff.mpr h)]

/-- The keys of the codes so far, as the handler and the board have them. -/
structure Keys (past : List UInt8) (k : Keyb) (d : Board) : Prop where
  shift : k.shiftState = (latest past).toNat
  pre : d.pre = false
  left : d.left = held past 0x2a 0xaa
  right : d.right = held past 0x36 0xb6

/-- The ring holds what the board has unread, as long as it has that. -/
def Queued (k : Keyb) (d : Board) : Prop :=
  ∃ q, Queue k q ∧ 0xFF ∉ q ∧ ∀ u, d.unread = some u → u = q

structure Inv (past : List UInt8) (k : Keyb) (d : Board) : Prop where
  queue : Queued k d
  escaped : k.escaped = decide (0xe0 ∈ past)
  keys : 0xe0 ∉ past → Keys past k d

theorem handler_plain (h : k.escaped = false) (hst : ¬status &&& kbdObf = 0) :
    k.keybHandler status code =
      if code = 0x2a ∨ code = 0x36 then some ([], { k with shiftState := 1 })
      else if code = 0xaa ∨ code = 0xb6 then some ([], { k with shiftState := 0 })
      else if code = 0xe0 then some ([], { k with escaped := true })
      else if ¬isMake code then some ([], k)
      else do
        let newChar ← keymap code.toNat k.shiftState
        return ([newChar], ← k.insertKeybBuffer newChar) := by
  have hcode (b : UInt8) : code.toNat = b.toNat ↔ code = b := UInt8.toNat_inj
  unfold Keyb.keybHandler
  rw [if_neg hst, h]
  simp only [Bool.false_eq_true, if_false, ← hcode, isMake_iff]
  rfl

theorem held_cons_of_ne {make release : UInt8} (h₁ : code ≠ make) (h₂ : code ≠ release) :
    held (code :: past) make release = held past make release := by
  simp [held, h₁, h₂]

theorem held_release {make release : UInt8} (h : release ≠ make) :
    held (release :: past) make release = false := by
  simp [held, h]

theorem latest_cons_of_ne (h₁ : code ≠ 0x2a) (h₂ : code ≠ 0x36) (h₃ : code ≠ 0xaa)
    (h₄ : code ≠ 0xb6) : latest (code :: past) = latest past := by
  simp [latest, h₁, h₂, h₃, h₄]

theorem Keys.other (h : Keys past k d) (h₁ : code ≠ 0x2a) (h₂ : code ≠ 0x36) (h₃ : code ≠ 0xaa)
    (h₄ : code ≠ 0xb6) (h₅ : code ≠ 0xe0) (hshift : k'.shiftState = k.shiftState) (cs : List UInt8) :
    Keys (code :: past) k' ((d.press code).append cs) := by
  have hpress : d.press code = d := by simp [Board.press, h.pre, h₁, h₂, h₃, h₄, h₅]
  rw [hpress]
  exact ⟨by rw [hshift, h.shift, latest_cons_of_ne h₁ h₂ h₃ h₄], h.pre,
    by rw [held_cons_of_ne h₁ h₃, ← h.left]; rfl, by rw [held_cons_of_ne h₂ h₄, ← h.right]; rfl⟩

theorem Keys.shiftCode (h : Keys past k d)
    (hcode : code = 0x2a ∨ code = 0x36 ∨ code = 0xaa ∨ code = 0xb6)
    (hshift : k'.shiftState = (isShift code).toNat) :
    Keys (code :: past) k' ((d.press code).append []) := by
  obtain ⟨-, hpre, hleft, hright⟩ := h
  rcases hcode with rfl | rfl | rfl | rfl <;>
    refine ⟨hshift, ?_, ?_, ?_⟩ <;> simp [Board.press, Board.append, held, hpre, hleft, hright]

theorem press_unread : (d.press code).unread = d.unread := by
  unfold Board.press
  split_ifs <;> rfl

theorem Queued.append_nil (h : Queued k d) : Queued k ((d.press code).append []) := by
  obtain ⟨q, hq, hne, hunread⟩ := h
  refine ⟨q, hq, hne, fun u hu => ?_⟩
  obtain ⟨v, hv, hu⟩ := Option.bind_eq_some_iff.mp hu
  rw [press_unread] at hv
  rw [List.append_nil, hunread v hv, if_pos hq.le] at hu
  exact (Option.some.inj hu).symm

theorem Queued.with_keys (h : Queued k d) (n : Nat) (e : Bool) :
    Queued { k with shiftState := n, escaped := e } d := by
  obtain ⟨q, ⟨hcontents, hsize, hhead, htail, hle⟩, hrest⟩ := h
  exact ⟨q, ⟨hcontents, hsize, hhead, htail, hle⟩, hrest⟩

theorem Queued.append (h : Queued k d) (code : UInt8) (hc : c ≠ 0xFF) : ∃ k', k.insertKeybBuffer c = some k' ∧
    Queued k' ((d.press code).append [c]) ∧ k'.shiftState = k.shiftState ∧
    k'.escaped = k.escaped := by
  obtain ⟨q, hq, hne, hunread⟩ := h
  obtain ⟨k', hk', hq', hshift, hescaped⟩ := hq.insert c
  refine ⟨k', hk', ⟨_, hq', ?_, fun u hu => ?_⟩, hshift, hescaped⟩
  · split
    · simp [hne, hc.symm]
    · simp [hc.symm]
  · obtain ⟨v, hv, hu⟩ := Option.bind_eq_some_iff.mp hu
    rw [press_unread] at hv
    rw [hunread v hv, Option.ite_none_right_eq_some] at hu
    rw [if_pos hu.1]
    exact (Option.some.inj hu.2).symm

theorem Inv.quiet (h : Inv past k d) (hqueue : Queued k' ((d.press code).append []))
    (hescaped : k'.escaped = decide (0xe0 ∈ code :: past))
    (hkeys : Keys past k d → 0xe0 ∉ code :: past → Keys (code :: past) k' ((d.press code).append [])) :
    Inv (code :: past) k' ((d.press code).append []) :=
  ⟨hqueue, hescaped, fun hnot => hkeys (h.keys fun hmem => hnot (List.mem_cons_of_mem _ hmem)) hnot⟩

theorem Inv.escapedStep (h : Inv past k d) (hmem : 0xe0 ∈ past) (hst : ¬status &&& kbdObf = 0)
    (hmake : isMake code = false) : ∃ cs k', k.keybHandler status code = some (cs, k') ∧
      d.Appends code cs ∧ Inv (code :: past) k' ((d.press code).append cs) := by
  have hescaped : k.escaped = true := h.escaped.trans (decide_eq_true hmem)
  refine ⟨[], k, ?_, ?_, ?_⟩
  · rw [handler_escaped hescaped hst, hmake]
    rfl
  · simp [Board.Appends, hmake]
  · exact h.quiet h.queue.append_nil (by rw [hescaped]; simp [hmem]) fun _ hnot =>
      absurd (List.mem_cons_of_mem _ hmem) hnot

theorem decide_mem_cons (hnot : 0xe0 ∉ past) (h : code ≠ 0xe0) :
    decide (0xe0 ∈ code :: past) = false := by
  simp [hnot, h.symm]

theorem Inv.silentStep (h : Inv past k d) (hnot : 0xe0 ∉ past) (hst : ¬status &&& kbdObf = 0)
    (hsilent : isMake code = false ∨ isShift code = true) :
    ∃ cs k', k.keybHandler status code = some (cs, k') ∧ d.Appends code cs ∧
      Inv (code :: past) k' ((d.press code).append cs) := by
  have hescaped : k.escaped = false := h.escaped.trans (decide_eq_false hnot)
  have happends : d.Appends code [] := by
    rcases hsilent with hmake | hshift
    · simp [Board.Appends, hmake]
    · simp [Board.Appends, hshift, (h.keys hnot).pre]
  rw [handler_plain hescaped hst]
  by_cases hdown : code = 0x2a ∨ code = 0x36
  · rw [if_pos hdown]
    refine ⟨_, _, rfl, happends, h.quiet (h.queue.append_nil.with_keys ..) ?_
      fun hk _ => hk.shiftCode ?_ ?_⟩
    · rw [decide_mem_cons hnot (by rcases hdown with rfl | rfl <;> decide)]
      exact hescaped
    · tauto
    · rcases hdown with rfl | rfl <;> rfl
  · rw [if_neg hdown]
    by_cases hup : code = 0xaa ∨ code = 0xb6
    · rw [if_pos hup]
      refine ⟨_, _, rfl, happends, h.quiet (h.queue.append_nil.with_keys ..) ?_
        fun hk _ => hk.shiftCode ?_ ?_⟩
      · rw [decide_mem_cons hnot (by rcases hup with rfl | rfl <;> decide)]
        exact hescaped
      · tauto
      · rcases hup with rfl | rfl <;> rfl
    · rw [if_neg hup]
      by_cases hpre : code = 0xe0
      · rw [if_pos hpre]
        refine ⟨_, _, rfl, happends, h.quiet (h.queue.append_nil.with_keys ..) ?_
          fun _ hno => ?_⟩
        · simp [hpre]
        · exact absurd (hpre ▸ List.mem_cons_self) hno
      · have hmake : isMake code = false := by
          refine hsilent.resolve_right ?_
          simpa [isShift] using hdown
        rw [if_neg hpre, hmake, if_pos (by decide)]
        obtain ⟨h₁, h₂⟩ := not_or.mp hdown
        obtain ⟨h₃, h₄⟩ := not_or.mp hup
        exact ⟨_, _, rfl, happends, h.quiet h.queue.append_nil
          (hescaped.trans (decide_mem_cons hnot hpre).symm)
          fun hk _ => hk.other h₁ h₂ h₃ h₄ hpre rfl []⟩

theorem bool_eq_iff {α : Type} (f : Bool → α) (x y : Bool) :
    f x = f y ↔ f false = f true ∨ x = y := by
  cases x <;> cases y <;> simp [eq_comm]

/-- A make code of a character: what is appended is right if the rows agree or the shift keys do. -/
theorem Inv.makeStep (h : Inv past k d) (hnot : 0xe0 ∉ past) (hst : ¬status &&& kbdObf = 0)
    (hmake : isMake code = true) (hshift : isShift code = false) :
    ∃ cs k', k.keybHandler status code = some (cs, k') ∧
      Inv (code :: past) k' ((d.press code).append cs) ∧
      (d.Appends code cs ↔ character code false = character code true ∨
        (held past 0x2a 0xaa || held past 0x36 0xb6) = latest past) := by
  have hescaped : k.escaped = false := h.escaped.trans (decide_eq_false hnot)
  have hkeys := h.keys hnot
  have hne (b : UInt8) (hb : isMake b = false) : code ≠ b := by
    rintro rfl
    rw [hb] at hmake
    cases hmake
  obtain ⟨h₁, h₂⟩ : code ≠ 0x2a ∧ code ≠ 0x36 := by simpa [isShift] using hshift
  have h₃ := hne 0xaa rfl
  have h₄ := hne 0xb6 rfl
  have h₅ := hne 0xe0 rfl
  obtain ⟨c, hc, hff⟩ := keymap_isSome (isMake_lt hmake) (Bool.toNat_lt (latest past))
  obtain ⟨k', hk', hqueue, hstate, hesc⟩ := h.queue.append code hff
  refine ⟨[c], k', ?_, ⟨hqueue, ?_, fun _ => hkeys.other h₁ h₂ h₃ h₄ h₅ hstate [c]⟩, ?_⟩
  · rw [handler_plain hescaped hst, if_neg (by tauto), if_neg (by tauto), if_neg h₅,
      if_neg (not_not.mpr hmake), hkeys.shift, hc]
    simp only [Option.bind_eq_bind, Option.bind_some, hk']
    rfl
  · rw [hesc, hescaped, decide_mem_cons hnot h₅]
  · have hchar : character code (latest past) = some c := hc
    rw [← bool_eq_iff (character code), hchar, ← hkeys.left, ← hkeys.right]
    simp [Board.Appends, hmake, hkeys.pre, hshift]

/-- Either the handler leaves the keymap, or it appends what is meant exactly if the code is
plain. -/
theorem Inv.codeStep (h : Inv past k d) (code : UInt8) (hst : ¬status &&& kbdObf = 0) :
    k.keybHandler status code = none ∧ ¬Plain past code ∨
      ∃ cs k', k.keybHandler status code = some (cs, k') ∧
        Inv (code :: past) k' ((d.press code).append cs) ∧ (d.Appends code cs ↔ Plain past code) := by
  have hplain (hno : ¬isMake code = true) : Plain past code := fun hmake => absurd hmake hno
  by_cases hmem : 0xe0 ∈ past
  · by_cases hmake : isMake code = true
    · refine .inl ⟨?_, fun hp => (hp hmake).1 hmem⟩
      rw [handler_escaped (h.escaped.trans (decide_eq_true hmem)) hst, if_pos hmake]
    · obtain ⟨cs, k', hk', happends, hinv⟩ := h.escapedStep hmem hst (Bool.of_not_eq_true hmake)
      exact .inr ⟨cs, k', hk', hinv, iff_of_true happends (hplain hmake)⟩
  · by_cases hchar : isMake code = true ∧ isShift code = false
    · obtain ⟨cs, k', hk', hinv, happends⟩ := h.makeStep hmem hst hchar.1 hchar.2
      refine .inr ⟨cs, k', hk', hinv, happends.trans ?_⟩
      unfold Plain
      rw [imp_iff_right hchar.1, and_iff_right hmem, hchar.2]
      simp
    · have hsilent : isMake code = false ∨ isShift code = true := by
        cases hm : isMake code <;> cases hs : isShift code <;> simp_all
      obtain ⟨cs, k', hk', happends, hinv⟩ := h.silentStep hmem hst hsilent
      refine .inr ⟨cs, k', hk', hinv, iff_of_true happends fun hmake => ⟨hmem, .inl ?_⟩⟩
      exact hsilent.resolve_left fun hno => by rw [hmake] at hno; cases hno

theorem Inv.extractStep (h : Inv past k d) : ∃ c k', k.extractKeybBuffer = some (c, k') ∧
    d.Returns c ∧ Inv past k' d.take := by
  obtain ⟨⟨q, hq, hff, hunread⟩, hescaped, hkeys⟩ := h
  cases q with
  | nil =>
    refine ⟨0xFF, k, hq.extract_nil, fun u hu => ?_, ⟨[], hq, hff, fun u hu => ?_⟩, hescaped, ?_⟩
    · rw [hunread u hu]
    · obtain ⟨v, hv, rfl⟩ := Option.map_eq_some_iff.mp hu
      rw [hunread v hv]
      rfl
    · exact fun hno => ⟨(hkeys hno).shift, (hkeys hno).pre, (hkeys hno).left, (hkeys hno).right⟩
  | cons c q =>
    obtain ⟨k', hk', hq', hshift, hesc⟩ := hq.extract_cons
    refine ⟨c, k', hk', fun u hu => ?_, ⟨q, hq', ?_, fun u hu => ?_⟩, hesc.trans hescaped, ?_⟩
    · rw [hunread u hu]
      exact ⟨rfl, fun hc => hff (hc ▸ List.mem_cons_self)⟩
    · exact fun hmem => hff (List.mem_cons_of_mem c hmem)
    · obtain ⟨v, hv, rfl⟩ := Option.map_eq_some_iff.mp hu
      rw [hunread v hv]
      rfl
    · exact fun hno => ⟨hshift.trans (hkeys hno).shift, (hkeys hno).pre, (hkeys hno).left,
        (hkeys hno).right⟩

theorem Inv.decodes_iff (h : Inv past k d) (es : List Event) :
    Decodes k d es ↔ AllPlain past (es.filterMap Event.code) := by
  induction es generalizing past k d with
  | nil => exact iff_of_true trivial trivial
  | cons e es ih =>
    cases e with
    | extract =>
      obtain ⟨c, k', hk', hreturns, hinv⟩ := h.extractStep
      rw [List.filterMap_cons_none rfl, ← ih hinv, Decodes]
      constructor
      · rintro ⟨c₁, k₁, hk₁, -, hrest⟩
        rw [hk'] at hk₁
        obtain ⟨rfl, rfl⟩ := Prod.mk.inj (Option.some.inj hk₁)
        exact hrest
      · exact fun hrest => ⟨c, k', hk', hreturns, hrest⟩
    | irq status code =>
      rw [Decodes]
      by_cases hst : status &&& kbdObf = 0
      · have hnone : (Event.irq status code).code = none := if_pos hst
        have hk : k.keybHandler status code = some ([], k) := if_pos hst
        rw [List.filterMap_cons_none hnone, ← ih h]
        simp only [hst, if_true]
        constructor
        · rintro ⟨cs, k₁, hk₁, -, hrest⟩
          rw [hk] at hk₁
          obtain ⟨rfl, rfl⟩ := Prod.mk.inj (Option.some.inj hk₁)
          exact hrest
        · exact fun hrest => ⟨[], k, hk, rfl, hrest⟩
      · have hsome : (Event.irq status code).code = some code := if_neg hst
        rw [List.filterMap_cons_some hsome, AllPlain]
        simp only [hst, if_false]
        rcases h.codeStep code hst with ⟨hk, hno⟩ | ⟨cs, k', hk', hinv, happends⟩
        · refine iff_of_false ?_ fun hp => hno hp.1
          rintro ⟨cs, k₁, hk₁, -⟩
          rw [hk] at hk₁
          cases hk₁
        · rw [← happends, ← ih hinv]
          constructor
          · rintro ⟨cs₁, k₁, hk₁, hrest⟩
            rw [hk'] at hk₁
            obtain ⟨rfl, rfl⟩ := Prod.mk.inj (Option.some.inj hk₁)
            exact hrest
          · exact fun hrest => ⟨cs, k', hk', hrest⟩

theorem init_inv : Inv [] .init .init where
  queue := ⟨[], ⟨rfl, rfl, by decide, rfl, by decide⟩, by simp, fun u hu => (Option.some.inj hu).symm⟩
  escaped := rfl
  keys _ := ⟨rfl, rfl, rfl, rfl⟩

end

/-- For every sequence of interrupts and reads, all have the results that are meant if and only if
each code is plain. -/
theorem decodes_iff_plain (es : List Event) :
    Decodes .init .init es ↔ AllPlain [] (es.filterMap Event.code) := init_inv.decodes_iff es

/-- The up arrow: a prefix, then its make code. -/
theorem arrow_not_decoded : ¬Decodes .init .init [.irq 1 0xe0, .irq 1 0x48] := by
  rintro ⟨cs, k, hk, -, cs', k', hk', -⟩
  have hpre : Keyb.init.keybHandler 1 0xe0 = some ([], { Keyb.init with escaped := true }) := rfl
  rw [hpre] at hk
  obtain ⟨rfl, rfl⟩ := Prod.mk.inj (Option.some.inj hk)
  rw [handler_escaped rfl (by decide), if_pos (by decide)] at hk'
  cases hk'

end Xmertl.Partikle.Keyboard
