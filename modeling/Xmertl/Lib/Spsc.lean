import Xmertl.Lib.RingBuffer

/-!
# A ring with one writer and one reader

`sent` is what the writer has published, `taken` how much of it the reader has taken
and `next` what the writer has put and not published. The writer puts one element at
a time at the place after, the reader reads any that are sent and not taken, and each
moves its own position alone.
-/

namespace RingBuffer

structure Spsc (a : Int → α) (s : Int) (sent : List α) (taken : Nat) (next : List α) : Prop where
  room : (sent.length : Int) + next.length ≤ taken + s
  holds : ∀ (i : Nat) (b : α), taken ≤ i → (sent ++ next)[i]? = some b → a (i % s) = b

namespace Spsc

variable {a : Int → α} {s : Int} {sent next : List α} {taken i k : Nat}

theorem start (a : Int → α) (hs : 0 ≤ s) : Spsc a s [] 0 [] where
  room := by simpa using hs
  holds i b _ h := by simp at h

theorem get (h : Spsc a s sent taken next) (hlo : taken ≤ i) (hc : sent[i]? = some b) :
    a (i % s) = b := by
  refine h.holds i b hlo ?_
  rw [List.getElem?_append_left (List.getElem?_eq_some_iff.mp hc).choose]
  exact hc

theorem put (h : Spsc a s sent taken next)
    (hroom : (sent.length : Int) + next.length < taken + s) (b : α) :
    Spsc (Function.update a ((sent.length + next.length : Int) % s) b) s sent taken
      (next ++ [b]) where
  room := by
    rw [List.length_append, List.length_singleton]
    omega
  holds i c hlo hc := by
    rw [← List.append_assoc] at hc
    rcases Nat.lt_or_ge i (sent ++ next).length with hlt | hge
    · rw [List.getElem?_append_left hlt] at hc
      rw [List.length_append] at hlt
      rw [Function.update_of_ne (place_ne (by omega) (by omega))]
      exact h.holds i c hlo hc
    · rw [List.getElem?_append_right hge, List.getElem?_singleton,
        Option.ite_none_right_eq_some] at hc
      obtain ⟨hi, hc⟩ := hc
      rw [List.length_append] at hge hi
      have hplace : (i : Int) = sent.length + next.length := by omega
      rw [hplace, Function.update_self]
      exact Option.some.inj hc

theorem publish (h : Spsc a s sent taken next) : Spsc a s (sent ++ next) taken [] where
  room := by
    rw [List.length_append, List.length_nil]
    have hroom := h.room
    omega
  holds i b hlo hc := h.holds i b hlo (by rwa [List.append_nil] at hc)

theorem take (h : Spsc a s sent taken next) (hk : taken ≤ k) : Spsc a s sent k next where
  room := by
    have hroom := h.room
    omega
  holds i b hlo hc := h.holds i b (hk.trans hlo) hc

theorem waiting (h : Spsc a s sent taken next) (hle : taken ≤ sent.length) :
    contents a s taken (sent.length - taken) = sent.drop taken := by
  refine List.ext_getElem? fun i => ?_
  rw [List.getElem?_drop]
  rcases Nat.lt_or_ge i (sent.length - taken) with hlt | hge
  · have hget := List.getElem?_eq_getElem (l := sent) (i := taken + i) (by omega)
    rw [contents_getElem? _ _ _ hlt, hget, ← h.get (Nat.le_add_right _ _) hget, Nat.cast_add]
  · have hlength : (contents a s taken (sent.length - taken)).length = sent.length - taken :=
      block_length ..
    rw [List.getElem?_eq_none (by omega), List.getElem?_eq_none (by omega)]

end Spsc

end RingBuffer
