import Mathlib.Data.List.Basic
import Mathlib.Logic.Function.Basic

/-!
# Stores of cells

What an allocator is to its callers: cells of bytes, each under a pointer of its own. A cell
comes and goes with the calls that name it, and is written through its pointer only.
-/

namespace Stores

abbrev Store (A B : Type) := A → Option (List B)

inductive Request (A B : Type)
  | malloc (size : Nat)
  | calloc (nelem elemSize : Nat)
  | free (ptr : A)
  | realloc (ptr : A) (newSize : Nat)
  | write (ptr : A) (i : Nat) (value : B)

section
variable {A B : Type} [DecidableEq A]

/-- NULL, and nothing is changed; or a cell that was not there, with bytes that are in `new`. -/
def Gives (null : A) (s : Store A B) (new : List B → Prop) (p : A) (s' : Store A B) : Prop :=
  p = null ∧ s' = s ∨
    p ≠ null ∧ s p = none ∧ ∃ bytes, new bytes ∧ s' = Function.update s p (some bytes)

/-- The cell under `ptr` has `n` bytes now and stands under `p`, with what it had as far as
that goes. -/
def Moves (null : A) (s : Store A B) (ptr : A) (n : Nat) (p : A) (s' : Store A B) : Prop :=
  p ≠ null ∧ (p = ptr ∨ s p = none) ∧ ∃ old bytes, s ptr = some old ∧ bytes.length = n ∧
    bytes.take (min old.length n) = old.take (min old.length n) ∧
    s' = Function.update (Function.update s ptr none) p (some bytes)

def Step (null : A) (zero : B) (s : Store A B) : Request A B → A → Store A B → Prop
  | .malloc size, p, s' => Gives null s (·.length = size) p s'
  | .calloc nelem elemSize, p, s' =>
    Gives null s (· = List.replicate (nelem * elemSize) zero) p s'
  | .free ptr, p, s' => p = null ∧ s' = Function.update s ptr none
  | .realloc ptr newSize, p, s' =>
    if newSize = 0 then p = null ∧ s' = Function.update s ptr none
    else if ptr = null then Gives null s (·.length = newSize) p s'
    else Moves null s ptr newSize p s'
  | .write ptr i value, p, s' => p = null ∧ ∃ bytes, s ptr = some bytes ∧ i < bytes.length ∧
    s' = Function.update s ptr (some (bytes.set i value))

end

end Stores
