import Xmertl.Partikle.Rprintf

/-!
# sprintf and snprintf

The two calls of `core/librc/rprintf.c` that print into a buffer, whose bytes are numbered
from the pointer on.
-/

namespace Xmertl.Partikle.Rprintf

/-- The bytes, and the numbers of those that have been written. -/
structure Buf where
  byte : Nat → UInt8
  written : List Nat

def Buf.put (b : Buf) (i : Nat) (c : UInt8) : Buf :=
  ⟨Function.update b.byte i c, i :: b.written⟩

/-- `s` is the pointer's distance from the first byte. -/
structure Sdata where
  buf : Buf
  s : Nat
  nc : Nat

def sprintfputc (c : UInt8) (sd : Sdata) : Sdata :=
  ⟨sd.buf.put sd.s c, sd.s + 1, sd.nc + 1⟩

def sprintf (s : Buf) (fmt : List UInt8) (args : List Arg) : Option (Nat × Buf) :=
  (vrprintf sprintfputc fmt args ⟨s, 0, 0⟩).map fun sd => (sd.nc, sd.buf)

/-- `s` is `none` for `NULL`. -/
structure Sndata where
  s : Option Buf
  n : Int
  nc : Nat

def snprintfputc (c : UInt8) (snd : Sndata) : Sndata :=
  if snd.n > snd.nc then
    match snd.s with
    | some s => { snd with s := some ((s.put snd.nc c).put (snd.nc + 1) 0), nc := snd.nc + 1 }
    | none => snd
  else snd

def snprintf (s : Option Buf) (n : Int) (fmt : List UInt8) (args : List Arg) :
    Option (Nat × Option Buf) :=
  (vrprintf snprintfputc fmt args ⟨s, n, 0⟩).map fun snd => (snd.nc, snd.s)

-- ---------------------------------------------------------------------------
-- What they are to do
-- ---------------------------------------------------------------------------

/-- No sink makes `vrprintf` write outside its scratch buffer. -/
def InScratch (fmt : List UInt8) (args : List Arg) : Prop :=
  ∀ (σ : Type) (putc : UInt8 → σ → σ) (a : σ), (vrprintf putc fmt args a).isSome

/-- `snprintf` writes `s[0..n-1]` only and leaves a prefix of what `sprintf` puts out, with
its NUL. -/
def Truncates (byte : Nat → UInt8) (n : Int) (fmt : List UInt8) (args : List Arg) : Prop :=
  ∃ nc s len t, snprintf (some ⟨byte, []⟩) n fmt args = some (nc, some s) ∧
    sprintf ⟨byte, []⟩ fmt args = some (len, t) ∧ (∀ i ∈ s.written, (i : Int) < n) ∧
      ∃ k ≤ len, (k : Int) ≤ n - 1 ∧ (∀ i < k, s.byte i = t.byte i) ∧ s.byte k = 0

section
variable {b : Buf} {c : UInt8} {i j : Nat}

@[simp] theorem put_self : (b.put i c).byte i = c := Function.update_self ..

theorem put_of_ne (h : j ≠ i) : (b.put i c).byte j = b.byte j := Function.update_of_ne h ..

@[simp] theorem put_written : (b.put i c).written = i :: b.written := rfl

end

-- ---------------------------------------------------------------------------
-- The sinks
-- ---------------------------------------------------------------------------

section
variable {byte : Nat → UInt8} {o t : List UInt8} {c : UInt8} {n : Int} {fmt : List UInt8}
  {args : List Arg} {ps : List Piece}

/-- The state of `sprintf` behind the characters `o`. -/
structure Sdata.Holds (sd : Sdata) (o : List UInt8) : Prop where
  ptr : sd.s = o.length
  count : sd.nc = o.length
  chars : ∀ i < o.length, o[i]? = some (sd.buf.byte i)

theorem Sdata.Holds.put {sd : Sdata} (h : sd.Holds o) (c : UInt8) :
    (sprintfputc c sd).Holds (o ++ [c]) where
  ptr := by simp [sprintfputc, h.ptr]
  count := by simp [sprintfputc, h.count]
  chars i hi := by
    rw [List.length_append, List.length_singleton] at hi
    rcases Nat.lt_succ_iff_lt_or_eq.mp hi with hlt | rfl
    · rw [List.getElem?_append_left hlt, h.chars i hlt, sprintfputc,
        put_of_ne (h.ptr ▸ Nat.ne_of_lt hlt)]
    · rw [List.getElem?_concat_length, sprintfputc, h.ptr, put_self]

theorem Sdata.Holds.run {sd : Sdata} (h : sd.Holds o) (t : List UInt8) :
    (feed sprintfputc t sd).Holds (o ++ t) := by
  induction t generalizing sd o with
  | nil => rwa [List.append_nil]
  | cons c t ih =>
    rw [List.append_cons]
    exact ih (h.put c)

/-- The state of `snprintf` behind the characters `o`: as many as there is room for have been
written, and a NUL behind the last one. -/
structure Sndata.Holds (snd : Sndata) (byte : Nat → UInt8) (n : Int) (o : List UInt8) (s : Buf) :
    Prop where
  buf : snd.s = some s
  size : snd.n = n
  count : snd.nc = min n.toNat o.length
  chars : ∀ i < snd.nc, o[i]? = some (s.byte i)
  nul : snd.nc ≠ 0 → s.byte snd.nc = 0
  rest : snd.nc = 0 → s.byte = byte
  written : ∀ i, i ∈ s.written ↔ snd.nc ≠ 0 ∧ i ≤ snd.nc

theorem Sndata.Holds.put {snd : Sndata} {s : Buf} (h : snd.Holds byte n o s) (c : UInt8) :
    ∃ s', (snprintfputc c snd).Holds byte n (o ++ [c]) s' := by
  have hlen : (o ++ [c]).length = o.length + 1 := List.length_append
  have hnc := h.count
  by_cases hroom : snd.n > snd.nc
  · have hn := h.size
    have hfull : snd.nc = o.length := by omega
    have hput : snprintfputc c snd =
        { snd with s := some ((s.put snd.nc c).put (snd.nc + 1) 0), nc := snd.nc + 1 } := by
      rw [snprintfputc, if_pos hroom, h.buf]
    rw [hput]
    refine ⟨_, rfl, h.size, ?_, fun i hi => ?_, fun _ => put_self, fun hz => ?_, fun i => ?_⟩
    · rw [hlen]
      dsimp only
      omega
    · rw [put_of_ne (Nat.ne_of_lt hi)]
      rcases Nat.lt_succ_iff_lt_or_eq.mp hi with hlt | rfl
      · rw [put_of_ne (Nat.ne_of_lt hlt), List.getElem?_append_left (hfull ▸ hlt)]
        exact h.chars i hlt
      · rw [put_self, hfull, List.getElem?_concat_length]
    · exact absurd hz (Nat.succ_ne_zero _)
    · have hold := h.written i
      simp only [put_written, List.mem_cons, hold]
      omega
  · have hput : snprintfputc c snd = snd := if_neg hroom
    rw [hput]
    have hn := h.size
    refine ⟨s, h.buf, h.size, by omega, fun i hi => ?_, h.nul, h.rest, h.written⟩
    rw [List.getElem?_append_left (by omega)]
    exact h.chars i hi

theorem Sndata.Holds.run {snd : Sndata} {s : Buf} (h : snd.Holds byte n o s) (t : List UInt8) :
    ∃ s', (feed snprintfputc t snd).Holds byte n (o ++ t) s' := by
  induction t generalizing snd o s with
  | nil => exact ⟨s, by rwa [List.append_nil]⟩
  | cons c t ih =>
    obtain ⟨s', hs'⟩ := h.put c
    rw [List.append_cons]
    exact ih hs'

theorem sprintf_eq (byte : Nat → UInt8) (h : Reads fmt args ps)
    (hfits : ∀ p ∈ ps, p.Fits) :
    ∃ t : Buf, sprintf ⟨byte, []⟩ fmt args = some ((textOf ps).length, t) ∧
      ∀ i < (textOf ps).length, (textOf ps)[i]? = some (t.byte i) := by
  have hstart : (Sdata.mk ⟨byte, []⟩ 0 0).Holds [] :=
    ⟨rfl, rfl, fun i hi => absurd hi (Nat.not_lt_zero i)⟩
  have hend := hstart.run (textOf ps)
  refine ⟨_, ?_, hend.chars⟩
  rw [sprintf, vrprintf_eq h, if_pos hfits, Option.map_some, hend.count]
  rfl

theorem snprintf_eq (byte : Nat → UInt8) (n : Int) (h : Reads fmt args ps)
    (hfits : ∀ p ∈ ps, p.Fits) :
    ∃ snd s, snprintf (some ⟨byte, []⟩) n fmt args = some (snd.nc, some s) ∧
      Sndata.Holds snd byte n (textOf ps) s := by
  have hstart : (Sndata.mk (some ⟨byte, []⟩) n 0).Holds byte n [] ⟨byte, []⟩ :=
    ⟨rfl, rfl, (Nat.min_zero _).symm, fun i hi => absurd hi (Nat.not_lt_zero i),
      fun h => absurd rfl h, fun _ => rfl, fun i => by simp⟩
  obtain ⟨s, hend⟩ := hstart.run (textOf ps)
  refine ⟨_, s, ?_, hend⟩
  rw [snprintf, vrprintf_eq h, if_pos hfits, Option.map_some, hend.buf]

theorem inScratch_iff (h : Reads fmt args ps) : InScratch fmt args ↔ ∀ p ∈ ps, p.Fits := by
  refine ⟨fun hin => ?_, fun hfits σ putc a => ?_⟩
  · by_contra hfits
    have hsome := hin Unit (fun _ a => a) ()
    rw [vrprintf_eq h, if_neg hfits] at hsome
    exact absurd hsome (by decide)
  · rw [vrprintf_eq h, if_pos hfits]
    rfl

theorem truncates_iff (h : Reads fmt args ps) (hfits : ∀ p ∈ ps, p.Fits) (hn : 1 ≤ n) :
    Truncates byte n fmt args ↔
      ((textOf ps).length : Int) < n ∧ (textOf ps = [] → byte 0 = 0) := by
  obtain ⟨t, ht, htext⟩ := sprintf_eq byte h hfits
  obtain ⟨snd, s, hs, hend⟩ := snprintf_eq byte n h hfits
  have hnc := hend.count
  constructor
  · rintro ⟨nc, s', len, t', hs', ht', hwritten, k, hk, hkn, hchars, hnul⟩
    obtain ⟨rfl, rfl⟩ : snd.nc = nc ∧ s = s' := by simpa using hs.symm.trans hs'
    obtain ⟨rfl, rfl⟩ : (textOf ps).length = len ∧ t = t' := by simpa using ht.symm.trans ht'
    refine ⟨?_, fun hempty => ?_⟩
    · -- the NUL behind the last character has been written too
      by_contra hlong
      have hlast := hwritten snd.nc ((hend.written snd.nc).mpr ⟨by omega, Nat.le_refl _⟩)
      omega
    · rw [hempty, List.length_nil] at hk hnc
      rw [Nat.le_zero.mp hk, hend.rest (hnc.trans (Nat.min_zero _))] at hnul
      exact hnul
  · rintro ⟨hshort, hempty⟩
    have hlen : snd.nc = (textOf ps).length := by omega
    refine ⟨_, s, _, t, hs, ht, fun i hi => ?_, (textOf ps).length, Nat.le_refl _, by omega,
      fun i hi => ?_, ?_⟩
    · have hle := ((hend.written i).mp hi).2
      omega
    · exact Option.some_inj.mp ((hend.chars i (hlen ▸ hi)).symm.trans (htext i hi))
    · by_cases hz : snd.nc = 0
      · rw [hend.rest hz, ← hlen, hz]
        exact hempty (List.length_eq_zero_iff.mp (hlen ▸ hz))
      · rw [← hlen]
        exact hend.nul hz

/-- Both stay inside exactly when every number has room in the scratch buffer, the text is
shorter than the buffer, and an empty text finds a NUL there. -/
theorem snprintf_bounded_iff (h : Reads fmt args ps) (hn : 1 ≤ n) :
    InScratch fmt args ∧ Truncates byte n fmt args ↔
      (∀ p ∈ ps, p.Fits) ∧ ((textOf ps).length : Int) < n ∧ (textOf ps = [] → byte 0 = 0) := by
  rw [inScratch_iff h]
  exact and_congr_right fun hfits => truncates_iff h hfits hn

/-- `snprintf(s, 8, "%05d!", -42)`. -/
theorem snprintf_padded :
    InScratch [37, 48, 53, 100, 33, 0] [.int (-42)] ∧
      Truncates (fun _ => 0xff) 8 [37, 48, 53, 100, 33, 0] [.int (-42)] := by
  have hreads : Reads [37, 48, 53, 100, 33, 0] [.int (-42)]
      [.number ⟨⟨48, 5, by decide⟩, 10, true, 42, .inl rfl⟩, .char 33] :=
    .directive (d := ⟨⟨48, 5, by decide⟩, false, false, 100⟩)
      (by decide) (by decide) (.char 33 (by decide) (by decide) (.done [] []))
  exact (snprintf_bounded_iff hreads (by decide)).mpr ⟨by decide, by decide, by decide⟩

/-- `snprintf(s, 1, "a")` writes `s[1]`, `snprintf(s, 4, "")` leaves no NUL, and neither the
20 digits of `%llu` nor a field of 20 leave room for one in the scratch buffer. -/
theorem terminator_outside :
    (Reads [97, 0] [] [.char 97] ∧ ¬Truncates (fun _ => 0) 1 [97, 0] []) ∧
      (Reads [0] [] [] ∧ ¬Truncates (fun _ => 0xff) 4 [0] []) ∧
      ¬InScratch [37, 108, 108, 117, 0] [.vlong (-1)] ∧
      ¬InScratch [37, 32, 50, 48, 100, 0] [.int 7] := by
  have hchar : Reads [97, 0] [] [.char 97] := .char 97 (by decide) (by decide) (.done [] [])
  have hempty : Reads [0] [] [] := .done [] []
  have hlong : Reads [37, 108, 108, 117, 0] [.vlong (-1)]
      [.number ⟨⟨0, 0, no_padding⟩, 10, false, -1, .inl rfl⟩] :=
    .directive (d := ⟨⟨0, 0, no_padding⟩, true, true, 117⟩)
      (by decide) (by decide) (.done [] [])
  have hwide : Reads [37, 32, 50, 48, 100, 0] [.int 7]
      [.number ⟨⟨32, 20, by decide⟩, 10, false, 7, .inl rfl⟩] :=
    .directive (d := ⟨⟨32, 20, by decide⟩, false, false, 100⟩)
      (by decide) (by decide) (.done [] [])
  refine ⟨⟨hchar, ?_⟩, ⟨hempty, ?_⟩, ?_, ?_⟩
  · rw [truncates_iff hchar (by decide) (by decide)]
    decide
  · rw [truncates_iff hempty (by decide) (by decide)]
    decide
  · rw [inScratch_iff hlong]
    decide
  · rw [inScratch_iff hwide]
    decide

end

end Xmertl.Partikle.Rprintf
