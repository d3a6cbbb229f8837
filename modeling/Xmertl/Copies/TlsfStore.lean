import Xmertl.Common.TlsfStore
import Xmertl.Partikle.TlsfRequests
import Xmertl.Partikle.TlsfRuns
import Xmertl.Xtratum.TlsfRequests
import Xmertl.Xtratum.TlsfRuns

/-!
# What the callers of the allocators see

On a pool that `init_memory_pool` has set up, either copy of `tlsf.c` is a store of cells.
-/

namespace Xmertl.TlsfCopies

open BoundaryTags Refinement TlsfPool TotalCorrectness

-- ---------------------------------------------------------------------------
-- XtratuM
-- ---------------------------------------------------------------------------

def exampleRequests (p q : Word) : List Request :=
  [.malloc 24, .calloc 3 8, .write p 1 7#8, .realloc p 300, .free q]

namespace Hypervisor

open Xtratum

def allocator (P : Pool) : Allocator Tlsf where
  area := P.area
  mem t := t.lists.mem
  withMem t mem := { t with lists := { t.lists with mem } }
  mallocEx := mallocEx P
  callocEx := callocEx P
  freeEx := freeEx P
  reallocEx := reallocEx P

section
variable {P : Pool} {hP : P.Usable}

theorem allocator_lawful : (allocator P).Lawful (P.geometry hP) cellOf
    fun t bs => ∃ L, t.Rep (P.geometry hP) bs L := by
  refine .of_turns (fun t t' => t.Turns t' (P.geometry hP)) rfl ?_ ?_ ?_ ?_ rfl ?_ ⟨_, rfl⟩ ?_
  · rintro t bs ⟨L, h⟩
    exact ⟨t.lists, L, h.blocks⟩
  · rintro t bs z k mem ⟨L, h⟩ hz hm
    exact ⟨⟨L, h.blocks.rewrite hz hm, h.exact⟩, rfl⟩
  · intro t t' bs bs' gone come h
    exact ⟨h.rep, h.changed⟩
  · rintro t bs v ⟨L, h⟩ hv
    exact (mallocEx_turns h hv).mono fun q => Or.imp And.left And.right
  · rintro t bs x n ⟨L, h⟩ hx
    exact freeEx_turns h hx
  · rintro t bs x n v ⟨L, h⟩ hx hv hv₀
    exact (reallocEx_turns h hx hv hv₀).imp id fun hnone => hnone.2.1

end

/-- Whatever the callers of `malloc_ex`, `calloc_ex`, `realloc_ex` and `free_ex` do and write
to their blocks: the pool answers them as a store of cells would, and what its memory has
in their blocks is what the store has in its cells. -/
theorem pool_is_store {P : Pool} {t₀ t : Tlsf} {size : Word} {rs : List Request}
    {history : List (Request × Word)} {x : Holdings Tlsf} (hsig : t₀.signature ≠ tlsfSignature)
    (hfits : P.size % 8 < 4) (hinit : initMemoryPool P t₀ = some (size, t)) (hok : size ≠ -1#32)
    (hr : answers (Holdings.step (allocator P)) ⟨t, []⟩ rs = some (history, x)) :
    Accepts (Stores.Step 0#32 0#8) (fun _ => none) history (x.store (allocator P)) ∧
      ∀ r, x.Allows r → (∀ p n, r ≠ .realloc p n) → (x.step (allocator P) r).isSome := by
  rcases (initMemoryPool_spec hsig hfits).of_eq hinit with hbad | ⟨hP, L, hrep, -⟩
  · exact absurd hbad hok
  have hstart : Holdings.Sound (P.geometry hP) (fun t bs => ∃ L, t.Rep (P.geometry hP) bs L)
      ⟨t, []⟩ [⟨P.room + 8, true⟩] := by
    refine ⟨⟨L, hrep⟩, nofun, fun z k hz => ?_, List.nodup_nil⟩
    simp [Used, placed] at hz
  exact hstart.refines allocator_lawful hr

/-- Two blocks are given out, the first is written and moved, and the second is freed. -/
theorem pool_is_store_run : ∃ size t history x, initMemoryPool examplePool exampleTlsf = some (size, t) ∧
    answers (Holdings.step (allocator examplePool)) ⟨t, []⟩ (exampleRequests 0x10c78#32 0x10c98#32) =
      some (history, x) ∧
    x.live.map (fun q => (x.store (allocator examplePool) q.1).bind (·[1]?)) = [some 7#8] ∧
    Accepts (Stores.Step 0#32 0#8) (fun _ => none) history (x.store (allocator examplePool)) ∧
    ∀ r, x.Allows r → (∀ p n, r ≠ .realloc p n) → (x.step (allocator examplePool) r).isSome := by
  have hrun : (initMemoryPool examplePool exampleTlsf).any fun r => decide (r.1 ≠ -1#32) &&
      (answers (Holdings.step (allocator examplePool)) ⟨r.2, []⟩ (exampleRequests 0x10c78#32 0x10c98#32)).any
        fun q => decide (q.2.live.map (fun l =>
          (q.2.store (allocator examplePool) l.1).bind (·[1]?)) = [some 7#8]) := by
    decide +kernel
  cases hinit : initMemoryPool examplePool exampleTlsf with
  | none => rw [hinit] at hrun; cases hrun
  | some r =>
    rw [hinit, Option.any_some, Bool.and_eq_true] at hrun
    cases hans : answers (Holdings.step (allocator examplePool)) ⟨r.2, []⟩
        (exampleRequests 0x10c78#32 0x10c98#32) with
    | none => rw [hans] at hrun; cases hrun.2
    | some q =>
      rw [hans, Option.any_some] at hrun
      exact ⟨r.1, r.2, q.1, q.2, rfl, hans, of_decide_eq_true hrun.2,
        pool_is_store (by decide) (by decide) hinit (of_decide_eq_true hrun.1) hans⟩

end Hypervisor

-- ---------------------------------------------------------------------------
-- The PaRTiKle kernel
-- ---------------------------------------------------------------------------

namespace Kernel

open Partikle.MemoryPool

def allocator (P : Pool) : Allocator Tlsf where
  area := P.area
  mem t := t.lists.mem
  withMem t mem := { t with lists := { t.lists with mem } }
  mallocEx := mallocEx P
  callocEx := callocEx P
  freeEx := freeEx P
  reallocEx := reallocEx P

section
variable {P : Pool} {hP : P.Usable}

theorem allocator_lawful : (allocator P).Lawful (P.geometry hP) cellOf
    fun t bs => ∃ L, t.Rep (P.geometry hP) bs L := by
  refine .of_turns (fun t t' => t.Turns t' (P.geometry hP)) rfl ?_ ?_ ?_ ?_ rfl ?_ ⟨_, rfl⟩ ?_
  · rintro t bs ⟨L, h⟩
    exact ⟨t.lists, L, h.blocks⟩
  · rintro t bs z k mem ⟨L, h⟩ hz hm
    exact ⟨⟨L, h.blocks.rewrite hz hm, h.exact.of_lists⟩, rfl⟩
  · intro t t' bs bs' gone come h
    exact ⟨h.rep, h.changed⟩
  · rintro t bs v ⟨L, h⟩ hv
    exact (mallocEx_turns h hv).mono fun q => Or.imp And.left And.right
  · rintro t bs x n ⟨L, h⟩ hx
    exact freeEx_turns h hx
  · rintro t bs x n v ⟨L, h⟩ hx hv hv₀
    exact (reallocEx_turns h hx hv hv₀).imp And.right And.right

end

/-- The same of the kernel's copy. -/
theorem memoryPool_is_store {P : Pool} {t₀ t : Tlsf} {size : Word} {rs : List Request}
    {history : List (Request × Word)} {x : Holdings Tlsf}
    (hinit : initMemoryPool P t₀ = some (size, t)) (hok : size ≠ -1#32)
    (hr : answers (Holdings.step (allocator P)) ⟨t, []⟩ rs = some (history, x)) :
    Accepts (Stores.Step 0#32 0#8) (fun _ => none) history (x.store (allocator P)) ∧
      ∀ r, x.Allows r → (∀ p n, r ≠ .realloc p n) → (x.step (allocator P) r).isSome := by
  obtain ⟨hacc, hP⟩ := initMemoryPool_usable hinit hok
  obtain ⟨-, L, hrep⟩ := (initMemoryPool_rep hacc hP).of_eq hinit
  have hstart : Holdings.Sound (P.geometry hP) (fun t bs => ∃ L, t.Rep (P.geometry hP) bs L)
      ⟨t, []⟩ [⟨P.room + 4, true⟩] := by
    refine ⟨⟨L, hrep⟩, nofun, fun z k hz => ?_, List.nodup_nil⟩
    simp [Used, placed] at hz
  exact hstart.refines allocator_lawful hr

/-- Two blocks are given out, the first is written and moved, and the second is freed. -/
theorem memoryPool_is_store_run : ∃ size t history x, initMemoryPool examplePool exampleTlsf = some (size, t) ∧
    answers (Holdings.step (allocator examplePool)) ⟨t, []⟩ (exampleRequests 0x10c6c#32 0x10c88#32) =
      some (history, x) ∧
    x.live.map (fun q => (x.store (allocator examplePool) q.1).bind (·[1]?)) = [some 7#8] ∧
    Accepts (Stores.Step 0#32 0#8) (fun _ => none) history (x.store (allocator examplePool)) ∧
    ∀ r, x.Allows r → (∀ p n, r ≠ .realloc p n) → (x.step (allocator examplePool) r).isSome := by
  have hrun : (initMemoryPool examplePool exampleTlsf).any fun r => decide (r.1 ≠ -1#32) &&
      (answers (Holdings.step (allocator examplePool)) ⟨r.2, []⟩ (exampleRequests 0x10c6c#32 0x10c88#32)).any
        fun q => decide (q.2.live.map (fun l =>
          (q.2.store (allocator examplePool) l.1).bind (·[1]?)) = [some 7#8]) := by
    decide +kernel
  cases hinit : initMemoryPool examplePool exampleTlsf with
  | none => rw [hinit] at hrun; cases hrun
  | some r =>
    rw [hinit, Option.any_some, Bool.and_eq_true] at hrun
    cases hans : answers (Holdings.step (allocator examplePool)) ⟨r.2, []⟩
        (exampleRequests 0x10c6c#32 0x10c88#32) with
    | none => rw [hans] at hrun; cases hrun.2
    | some q =>
      rw [hans, Option.any_some] at hrun
      exact ⟨r.1, r.2, q.1, q.2, rfl, hans, of_decide_eq_true hrun.2,
        memoryPool_is_store hinit (of_decide_eq_true hrun.1) hans⟩

end Kernel

end Xmertl.TlsfCopies
