import Xmertl.Partikle.FileTable

/-!
# Paths of devices

`open_sys` with its buffer: how the name of the device gets from the path into `dname`, and
how the driver of that name is found. Strings are as in C: in a path and in the name of a
driver the NUL after the last character is left out, and the buffer is memory, `knamelen`
bytes of it and what lies after them.
-/

namespace Xmertl.Partikle

def memset (dst : Nat → Char) (s : Char) (count : Nat) : Nat → Char :=
  fun k => if k < count then s else dst k

def strncpy (dst : Nat → Char) (aux : Nat) : List Char → Nat → Nat → Char
  | _, 0 => dst
  | [], _ + 1 => Function.update dst aux '\x00'
  | c :: src, n + 1 => strncpy (Function.update dst aux c) (aux + 1) src n

def strcmp : List Char → (Nat → Char) → Int
  | [], t => -(t 0).toNat
  | x :: s, t => if x = t 0 then strcmp s fun k => t (k + 1) else x.toNat - (t 0).toNat

/-- The loop over the path, with what is left of it. -/
def nameEnd (len : Int) : List Char → Int → Int
  | [], i => i
  | c :: rest, i =>
    if i < len then
      if c = '\x00' ∨ c.isDigit ∨ c = '/' then i else nameEnd len rest (i + 1)
    else i

namespace Build

/-- The driver that a path is for, with `dname` as it is then. -/
def lookup (b : Build) (path : List Char) (dname : Nat → Char) : (Nat → Char) × Option Dev :=
  if path.take "/dev/".length ≠ "/dev/".toList then (dname, some .root)
  else
    -- the length of the path is an `int` here
    let len := toInt path.length
    let i := nameEnd len (path.drop "/dev/".length) "/dev/".length
    if i = len then (dname, none)
    else
      let dname := memset dname '\x00' (i + 1).toNat
      let dname := strncpy dname 0 (path.drop "/dev/".length) (i - "/dev/".length).toNat
      (dname, b.devtab.find? fun dev => strcmp dev.name.toList dname = 0)

end Build

def Fs.openPath (b : Build) (s : Fs) (path : List Char) (mode : BitVec 32) (dname : Nat → Char) :
    Fs × Answer :=
  match (b.lookup path dname).2 with
  | some dev => s.devopen b path mode dev
  | none => (s, .error (some .enoent))

/-- A string that starts with `/dev/`; with its NUL it fits in an address space of 4 GiB. -/
structure DevPath where
  path : List Char
  dev : path.take "/dev/".length = "/dev/".toList
  string : '\x00' ∉ path
  length_lt : path.length < 0x100000000

/-- A digit or a slash follows the name of the device. -/
def Ends (path : List Char) : Prop := deviceName path ≠ path.drop "/dev/".length

namespace Build

/-- The name of the device, and what ends it, is there and is the driver's. -/
structure Names (b : Build) (path : List Char) (dev : Dev) : Prop where
  mem : dev ∈ b.devtab
  ends : Ends path
  name_eq : dev.name.toList = deviceName path

/-- Nothing is written past `dname`; the path goes to the driver of its device, and where there
is none the open fails and leaves everything as it is. -/
structure Parses (b : Build) (path : List Char) : Prop where
  inside : ∀ (dname : Nat → Char) (k : Nat), knamelen ≤ k → (b.lookup path dname).1 k = dname k
  driver : ∀ (dname : Nat → Char) (dev : Dev),
    (b.lookup path dname).2 = some dev ↔ b.Names path dev
  hands : ∀ dev, b.Names path dev → ∀ (s : Fs) (mode : BitVec 32) (dname : Nat → Char),
    s.openPath b path mode dname = s.devopen b path mode dev
  fails : (∀ dev, ¬b.Names path dev) → ∀ (s : Fs) (mode : BitVec 32) (dname : Nat → Char),
    s.openPath b path mode dname = (s, .error (some .enoent))

/-- The name and its NUL fit with the five characters before it, in a path whose length is an
`int`; a longer path has no driver. -/
def Fits (b : Build) (path : List Char) : Prop :=
  Ends path →
    if path.length < 0x80000000 then "/dev/".length + (deviceName path).length < knamelen
    else ∀ dev ∈ b.devtab, dev.name.toList ≠ deviceName path

end Build

section
variable {b : Build} {path src s name : List Char} {dname t : Nat → Char} {dev : Dev}
  {len i : Int} {aux n k : Nat}

-- ---------------------------------------------------------------------------
-- Strings
-- ---------------------------------------------------------------------------

def Spells (t : Nat → Char) (name : List Char) : Prop :=
  ∀ k ≤ name.length, t k = name.getD k '\x00'

theorem Spells.tail {c : Char} (h : Spells t (c :: name)) : Spells (fun k => t (k + 1)) name := by
  intro k hk
  exact (h (k + 1) (Nat.succ_le_succ hk)).trans (List.getD_cons_succ ..)

theorem toNat_sub_eq_zero {x y : Char} : (x.toNat : Int) - y.toNat = 0 ↔ x = y := by
  constructor
  · intro h
    exact Char.toNat_inj.mp (by omega)
  · rintro rfl
    exact Int.sub_self _

theorem Spells.strcmp_eq_zero (h : Spells t name) (hs : '\x00' ∉ s) (hname : '\x00' ∉ name) :
    strcmp s t = 0 ↔ s = name := by
  induction s generalizing name t with
  | nil =>
    have ht := h 0 (Nat.zero_le _)
    cases name with
    | nil => simp [strcmp, ht]
    | cons d name =>
      rw [List.getD_cons_zero] at ht
      have hd : d ≠ '\x00' := fun hd => hname (by simp [hd])
      have hne : (d.toNat : Int) - '\x00'.toNat ≠ 0 := fun h0 => hd (toNat_sub_eq_zero.mp h0)
      rw [strcmp, ht]
      refine iff_of_false (fun h0 => hne ?_) (by simp)
      rw [show '\x00'.toNat = 0 from rfl]
      omega
  | cons c s ih =>
    have ht := h 0 (Nat.zero_le _)
    have hc : c ≠ '\x00' := fun hc => hs (by simp [hc])
    rw [strcmp]
    split
    · rename_i heq
      cases name with
      | nil => exact absurd (heq.trans ht) hc
      | cons d name =>
        rw [List.getD_cons_zero] at ht
        have hs' : '\x00' ∉ s := fun hm => hs (List.mem_cons_of_mem _ hm)
        have hname' : '\x00' ∉ name := fun hm => hname (List.mem_cons_of_mem _ hm)
        rw [ih h.tail hs' hname', heq, ht, List.cons.injEq, and_iff_right rfl]
    · rename_i hne
      rw [toNat_sub_eq_zero]
      refine iff_of_false hne ?_
      rintro rfl
      exact hne ht.symm

theorem strncpy_eq (h : n ≤ src.length) (k : Nat) : strncpy dname aux src n k =
    if aux ≤ k ∧ k < aux + n then src.getD (k - aux) '\x00' else dname k := by
  induction n generalizing dname aux src with
  | zero => rw [strncpy, if_neg (by omega)]
  | succ n ih =>
    cases src with
    | nil => simp at h
    | cons c src =>
      rw [strncpy, ih (Nat.le_of_succ_le_succ h)]
      rcases Nat.lt_trichotomy k aux with hlt | rfl | hgt
      · rw [if_neg (by omega), if_neg (by omega), Function.update_of_ne (by omega)]
      · rw [if_neg (by omega), if_pos (by omega), Function.update_self, Nat.sub_self,
          List.getD_cons_zero]
      · obtain ⟨j, rfl⟩ := Nat.exists_eq_add_of_lt hgt
        have hj : aux + j + 1 - aux = j + 1 := by omega
        have hj' : aux + j + 1 - (aux + 1) = j := by omega
        rw [hj, hj', List.getD_cons_succ, Function.update_of_ne (by omega)]
        simp only [show (aux + 1 ≤ aux + j + 1 ∧ aux + j + 1 < aux + 1 + n) ↔
          (aux ≤ aux + j + 1 ∧ aux + j + 1 < aux + (n + 1)) by omega]

theorem copied_eq (h : n ≤ src.length) (k : Nat) :
    strncpy (memset dname '\x00' (n + 6)) 0 src n k =
      if k < n then src.getD k '\x00' else if k < n + 6 then '\x00' else dname k := by
  rw [strncpy_eq h, memset]
  simp only [Nat.zero_le, Nat.zero_add, true_and, Nat.sub_zero]

theorem copied_spells (h : n ≤ src.length) :
    Spells (strncpy (memset dname '\x00' (n + 6)) 0 src n) (src.take n) := by
  intro k hk
  rw [List.length_take, Nat.min_eq_left h] at hk
  rw [copied_eq h]
  by_cases hlt : k < n
  · rw [if_pos hlt, List.getD_eq_getElem?_getD, List.getD_eq_getElem?_getD,
      List.getElem?_take_of_lt hlt]
  · have hend : (src.take n).length ≤ k := by
      rw [List.length_take]
      omega
    rw [if_neg hlt, if_pos (by omega), List.getD_eq_getElem?_getD, List.getElem?_eq_none hend,
      Option.getD_none]

-- ---------------------------------------------------------------------------
-- Names
-- ---------------------------------------------------------------------------

theorem nameEnd_eq (hpath : '\x00' ∉ path) (i : Int) : nameEnd len path i =
    max i (min (i + (path.takeWhile fun c => !(c.isDigit || c = '/')).length) len) := by
  induction path generalizing i with
  | nil =>
    simp only [nameEnd, List.takeWhile_nil, List.length_nil]
    omega
  | cons c rest ih =>
    have hc : c ≠ '\x00' := fun hc => hpath (by simp [hc])
    rw [nameEnd]
    by_cases hlt : i < len
    · rw [if_pos hlt]
      by_cases hend : c.isDigit ∨ c = '/'
      · have hstop : ¬(!(c.isDigit || c = '/')) = true := by
          rcases hend with hdigit | hslash
          · simp [hdigit]
          · simp [hslash]
        rw [if_pos (.inr hend), List.takeWhile_cons, if_neg hstop, List.length_nil]
        omega
      · rw [if_neg (by simpa [hc] using hend), ih fun hm => hpath (List.mem_cons_of_mem _ hm),
          List.takeWhile_cons_of_pos (by simpa using hend), List.length_cons]
        omega
    · rw [if_neg hlt]
      omega

theorem Dev.name_inj {dev' : Dev} (h : dev.name.toList = dev'.name.toList) : dev = dev' := by
  revert h
  cases dev <;> cases dev' <;> decide

theorem Dev.name_string (dev : Dev) : '\x00' ∉ dev.name.toList := by
  cases dev <;> decide

theorem Dev.name_ne_nil (dev : Dev) : dev.name.toList ≠ [] := by
  cases dev <;> decide

theorem find_name_eq_some :
    (b.devtab.find? fun dev => dev.name.toList = name) = some dev ↔
      dev ∈ b.devtab ∧ dev.name.toList = name := by
  constructor
  · intro h
    exact ⟨List.mem_of_find?_eq_some h, by simpa using List.find?_some h⟩
  · rintro ⟨hmem, hname⟩
    cases hf : b.devtab.find? fun dev => dev.name.toList = name with
    | none => simpa [hname] using List.find?_eq_none.mp hf dev hmem
    | some dev' =>
      have hname' : dev'.name.toList = name := by simpa using List.find?_some hf
      rw [Dev.name_inj (hname'.trans hname.symm)]

-- ---------------------------------------------------------------------------
-- The device of a path
-- ---------------------------------------------------------------------------

theorem deviceName_start (path : List Char) : deviceName path <+: path.drop "/dev/".length :=
  List.takeWhile_prefix _

theorem Ends.lt (h : Ends path) : "/dev/".length + (deviceName path).length < path.length := by
  have hle := (deviceName_start path).length_le
  have hne : (deviceName path).length ≠ (path.drop "/dev/".length).length :=
    fun he => h ((deviceName_start path).eq_of_length he)
  rw [List.length_drop] at hle hne
  omega

theorem toInt_eq_self (h : n < 0x80000000) : toInt n = n := by
  rw [toInt, BitVec.toInt_ofNat']
  exact Int.bmod_eq_of_le (by omega) (by omega)

theorem toInt_neg (h : 0x80000000 ≤ n) (hlt : n < 0x100000000) : toInt n < 0 := by
  rw [toInt, BitVec.toInt_ofNat', Int.bmod_def]
  omega

namespace DevPath

variable (p : DevPath)

theorem le_length : "/dev/".length ≤ p.path.length := by
  have h := congrArg List.length p.dev
  rw [List.length_take, String.length_toList] at h
  omega

theorem nameEnd_eq : nameEnd len (p.path.drop "/dev/".length) "/dev/".length =
    max ("/dev/".length : Int) (min ("/dev/".length + (deviceName p.path).length : Nat) len) :=
  Partikle.nameEnd_eq (fun hm => p.string (List.mem_of_mem_drop hm)) _

theorem lookup_whole (hlt : p.path.length < 0x80000000) (h : ¬Ends p.path) :
    b.lookup p.path dname = (dname, none) := by
  have hle := p.le_length
  have hlen : (deviceName p.path).length = p.path.length - "/dev/".length := by
    rw [Classical.not_not.mp h, List.length_drop]
  rw [Build.lookup, if_neg (not_not.mpr p.dev)]
  simp only [p.nameEnd_eq, toInt_eq_self hlt]
  rw [if_pos (by omega)]

theorem lookup_copied (b : Build) (dname : Nat → Char)
    (hn : n ≤ (p.path.drop "/dev/".length).length)
    (hi : nameEnd (toInt p.path.length) (p.path.drop "/dev/".length) "/dev/".length = n + 5)
    (hlen : toInt p.path.length ≠ n + 5) :
    ((b.lookup p.path dname).1 =
      strncpy (memset dname '\x00' (n + 6)) 0 (p.path.drop "/dev/".length) n) ∧
    (b.lookup p.path dname).2 =
      b.devtab.find? fun dev => dev.name.toList = (p.path.drop "/dev/".length).take n := by
  have hmem : ((n : Int) + 5 + 1).toNat = n + 6 := by omega
  have hcount : ((n : Int) + 5 - "/dev/".length).toNat = n := by
    rw [show ("/dev/".length : Int) = 5 from rfl]
    omega
  have hname : '\x00' ∉ (p.path.drop "/dev/".length).take n :=
    fun hm => p.string (List.mem_of_mem_drop (List.mem_of_mem_take hm))
  rw [Build.lookup, if_neg (not_not.mpr p.dev)]
  simp only [hi, if_neg hlen.symm, hmem, hcount, true_and]
  congr 1
  funext dev
  rw [decide_eq_decide]
  exact (copied_spells hn).strcmp_eq_zero dev.name_string hname

theorem lookup_ends (hlt : p.path.length < 0x80000000) (h : Ends p.path) :
    (∀ k, (b.lookup p.path dname).1 k =
      if k < (deviceName p.path).length then (p.path.drop "/dev/".length).getD k '\x00'
      else if k < (deviceName p.path).length + 6 then '\x00' else dname k) ∧
    (b.lookup p.path dname).2 =
      b.devtab.find? fun dev => dev.name.toList = deviceName p.path := by
  have hpre := deviceName_start p.path
  have hends := h.lt
  rw [show "/dev/".length = 5 from rfl] at hends
  have hi : nameEnd (toInt p.path.length) (p.path.drop "/dev/".length) "/dev/".length =
      ((deviceName p.path).length : Int) + 5 := by
    rw [p.nameEnd_eq, toInt_eq_self hlt, show "/dev/".length = 5 from rfl]
    omega
  have hlen : toInt p.path.length ≠ ((deviceName p.path).length : Int) + 5 := by
    rw [toInt_eq_self hlt]
    omega
  obtain ⟨hmem, hdev⟩ := p.lookup_copied b dname hpre.length_le hi hlen
  refine ⟨fun k => ?_, ?_⟩
  · rw [hmem, copied_eq hpre.length_le]
  · rw [hdev, ← List.prefix_iff_eq_take.mp hpre]

theorem lookup_long (hge : 0x80000000 ≤ p.path.length) :
    (∀ k, (b.lookup p.path dname).1 k = if k < 6 then '\x00' else dname k) ∧
      (b.lookup p.path dname).2 = none := by
  have hneg := toInt_neg hge p.length_lt
  have hi : nameEnd (toInt p.path.length) (p.path.drop "/dev/".length) "/dev/".length =
      ((0 : Nat) : Int) + 5 := by
    rw [p.nameEnd_eq, show "/dev/".length = 5 from rfl]
    omega
  obtain ⟨hmem, hdev⟩ := p.lookup_copied b dname (Nat.zero_le _) hi (by omega)
  refine ⟨fun k => ?_, ?_⟩
  · rw [hmem, copied_eq (Nat.zero_le _), if_neg (Nat.not_lt_zero k), Nat.zero_add]
  · rw [hdev, List.take_zero, List.find?_eq_none]
    intro dev _
    simpa using dev.name_ne_nil

end DevPath

-- ---------------------------------------------------------------------------
-- Parsing
-- ---------------------------------------------------------------------------

theorem Build.Parses.of_driver (hinside : ∀ (dname : Nat → Char) (k : Nat), knamelen ≤ k →
      (b.lookup path dname).1 k = dname k)
    (hdriver : ∀ (dname : Nat → Char) (dev : Dev),
      (b.lookup path dname).2 = some dev ↔ b.Names path dev) : b.Parses path where
  inside := hinside
  driver := hdriver
  hands dev hn s mode dname := by rw [Fs.openPath, (hdriver dname dev).mpr hn]
  fails hnone s mode dname := by
    have hlookup : (b.lookup path dname).2 = none :=
      Option.eq_none_iff_forall_ne_some.mpr fun dev h => hnone dev ((hdriver dname dev).mp h)
    rw [Fs.openPath, hlookup]

theorem names_iff (h : Ends path) :
    b.Names path dev ↔ dev ∈ b.devtab ∧ dev.name.toList = deviceName path :=
  ⟨fun hn => ⟨hn.mem, hn.name_eq⟩, fun ⟨hmem, hname⟩ => ⟨hmem, h, hname⟩⟩

namespace DevPath

variable (p : DevPath)

theorem parses_whole (hlt : p.path.length < 0x80000000) (h : ¬Ends p.path) : b.Parses p.path := by
  refine .of_driver (fun dname k _ => ?_) fun dname dev => ?_
  · rw [p.lookup_whole hlt h]
  · rw [p.lookup_whole hlt h]
    exact iff_of_false (by simp) fun hn => h hn.ends

theorem parses_ends (hlt : p.path.length < 0x80000000) (h : Ends p.path) :
    b.Parses p.path ↔ "/dev/".length + (deviceName p.path).length < knamelen := by
  rw [show "/dev/".length = 5 from rfl, show knamelen = 28 from rfl]
  constructor
  · intro hp
    by_contra hlong
    have hin (dname : Nat → Char) := hp.inside dname knamelen (Nat.le_refl _)
    simp only [(p.lookup_ends hlt h).1, show knamelen = 28 from rfl,
      if_pos (show 28 < (deviceName p.path).length + 6 by omega)] at hin
    have hx := (hin fun _ => 'x').symm.trans (hin fun _ => 'y')
    exact absurd hx (by decide)
  · intro hfits
    refine .of_driver (fun dname k hk => ?_) fun dname dev => ?_
    · have hk : 28 ≤ k := hk
      rw [(p.lookup_ends hlt h).1, if_neg (by omega), if_neg (by omega)]
    · rw [(p.lookup_ends hlt h).2, find_name_eq_some, names_iff h]

theorem parses_long (hge : 0x80000000 ≤ p.path.length) :
    b.Parses p.path ↔ ∀ dev, ¬b.Names p.path dev := by
  constructor
  · intro hp dev hn
    have hdev := (hp.driver (fun _ => '\x00') dev).mpr hn
    rw [(p.lookup_long hge).2] at hdev
    exact absurd hdev (by simp)
  · intro hnone
    refine .of_driver (fun dname k hk => ?_) fun dname dev => ?_
    · have hk : 28 ≤ k := hk
      rw [(p.lookup_long hge).1, if_neg (by omega)]
    · rw [(p.lookup_long hge).2]
      exact iff_of_false (by simp) (hnone dev)

end DevPath

/-- For every build and every path of a device, the open stays within its buffer and finds the
driver if and only if the name fits. -/
theorem parses_iff (b : Build) (p : DevPath) : b.Parses p.path ↔ b.Fits p.path := by
  unfold Build.Fits
  by_cases hends : Ends p.path
  · rw [imp_iff_right hends]
    by_cases hlt : p.path.length < 0x80000000
    · rw [if_pos hlt, p.parses_ends hlt hends]
    · rw [if_neg hlt, p.parses_long (Nat.le_of_not_lt hlt)]
      exact forall_congr' fun dev => by rw [names_iff hends, not_and]
  · refine iff_of_true ?_ fun h => absurd h hends
    by_cases hlt : p.path.length < 0x80000000
    · exact p.parses_whole hlt hends
    · exact (p.parses_long (Nat.le_of_not_lt hlt)).mpr fun dev hn => hends hn.ends

example : (xmI386.lookup "/dev/uart/eia0".toList fun _ => 'x').2 = some .uart := by decide

/-- 23 letters and a digit. -/
def longName : DevPath where
  path := "/dev/aaaaaaaaaaaaaaaaaaaaaaa0".toList
  dev := by decide
  string := by decide
  length_lt := by decide

/-- The last of the NULs is past `dname`. -/
theorem longName_overruns : ¬xmI386.Parses longName.path := by
  intro h
  have hk := h.inside (fun _ => 'x') knamelen (Nat.le_refl _)
  revert hk
  decide

-- ---------------------------------------------------------------------------
-- Descriptors
-- ---------------------------------------------------------------------------

theorem DevPath.openPath_eq (p : DevPath) (hlt : p.path.length < 0x80000000) (h : b.Fits p.path)
    (s : Fs) (mode : BitVec 32) (dname : Nat → Char) :
    s.openPath b p.path mode dname = s.openSys b p.path mode := by
  rw [Fs.openPath, Fs.openSys, Build.target, if_neg (not_not.mpr p.dev)]
  by_cases hends : Ends p.path
  · have hfits := h hends
    rw [if_pos hlt] at hfits
    dsimp only
    rw [(p.lookup_ends hlt hends).2, if_neg (Nat.ne_of_lt hends.lt), if_neg (Nat.not_lt.mpr hfits)]
    cases b.devtab.find? fun dev => dev.name.toList = deviceName p.path <;> rfl
  · have hle := p.le_length
    have hlen : (deviceName p.path).length = p.path.length - "/dev/".length := by
      rw [Classical.not_not.mp hends, List.length_drop]
    rw [p.lookup_whole hlt hends]
    dsimp only
    rw [if_pos (by omega)]

end

end Xmertl.Partikle
