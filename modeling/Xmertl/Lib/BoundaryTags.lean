import Mathlib.Data.List.Chain

/-!
# Boundary tags

Blocks that lie one after the other in a memory of four-byte words. A block's tag,
in its second word, says how long it is, whether it is free and whether the block
before it is. The first word of a block belongs to the block before, which is where
a free one leaves its own address. `placed a bs` are the blocks `bs` with their
addresses, the first of which is `a`.

`Laid` relates the blocks to the memory. It is proved of a list in parts
(`laid_append`), each of which only depends on the words that it is read from
(`Laid.congr`).
-/

namespace BoundaryTags

structure Block where
  span : Nat
  free : Bool
  deriving DecidableEq

def stop : Nat → List Block → Nat
  | a, [] => a
  | a, b :: bs => stop (a + b.span) bs

def placed : Nat → List Block → List (Nat × Block)
  | _, [] => []
  | a, b :: bs => (a, b) :: placed (a + b.span) bs

/-- Whether the last block is free, `p` where there is none. -/
def lastFree : Bool → List Block → Bool
  | p, [] => p
  | _, b :: bs => lastFree b.free bs

def firstFree : List Block → Bool
  | [] => false
  | b :: _ => b.free

def Coalesced (bs : List Block) : Prop := bs.IsChain fun b c => ¬(b.free = true ∧ c.free = true)

def freeSpan : List Block → Nat
  | [] => 0
  | b :: bs => (if b.free then b.span else 0) + freeSpan bs

section
variable {a x y : Nat} {b c : Block} {bs xs ys : List Block}

@[simp] theorem stop_append : stop a (xs ++ ys) = stop (stop a xs) ys := by
  induction xs generalizing a with
  | nil => rfl
  | cons b xs ih => exact ih

@[simp] theorem placed_append : placed a (xs ++ ys) = placed a xs ++ placed (stop a xs) ys := by
  induction xs generalizing a with
  | nil => rfl
  | cons b xs ih => simp [placed, stop, ih]

@[simp] theorem lastFree_append {p : Bool} :
    lastFree p (xs ++ ys) = lastFree (lastFree p xs) ys := by
  induction xs generalizing p with
  | nil => rfl
  | cons b xs ih => exact ih

@[simp] theorem freeSpan_append : freeSpan (xs ++ ys) = freeSpan xs + freeSpan ys := by
  induction xs with
  | nil => exact (Nat.zero_add _).symm
  | cons b xs ih => simp only [List.cons_append, freeSpan, ih, Nat.add_assoc]

@[simp] theorem freeSpan_nil : freeSpan [] = 0 := rfl

@[simp] theorem freeSpan_cons :
    freeSpan (b :: bs) = (if b.free then b.span else 0) + freeSpan bs := rfl

@[simp] theorem firstFree_cons : firstFree (b :: bs) = b.free := rfl

@[simp] theorem coalesced_nil : Coalesced [] := .nil

theorem mem_of_placed (h : (x, b) ∈ placed a bs) : b ∈ bs := by
  induction bs generalizing a with
  | nil => exact absurd h List.not_mem_nil
  | cons c bs ih =>
    rcases List.mem_cons.mp h with he | h
    · obtain ⟨rfl, rfl⟩ := Prod.mk.inj he
      exact List.mem_cons_self
    · exact List.mem_cons_of_mem _ (ih h)

theorem placed_split (h : (x, b) ∈ placed a bs) :
    ∃ xs ys, bs = xs ++ b :: ys ∧ x = stop a xs := by
  induction bs generalizing a with
  | nil => exact absurd h List.not_mem_nil
  | cons c bs ih =>
    rcases List.mem_cons.mp h with he | h
    · obtain ⟨rfl, rfl⟩ := Prod.mk.inj he
      exact ⟨[], bs, rfl, rfl⟩
    · obtain ⟨xs, ys, rfl, hx⟩ := ih h
      exact ⟨c :: xs, ys, rfl, hx⟩

theorem placed_middle : (stop a xs, b) ∈ placed a (xs ++ b :: ys) := by
  simp [placed]

theorem le_stop : a ≤ stop a bs := by
  induction bs generalizing a with
  | nil => exact Nat.le_refl _
  | cons b bs ih => exact (Nat.le_add_right a b.span).trans ih

theorem placed_bounds (h : (x, b) ∈ placed a bs) : a ≤ x ∧ x + b.span ≤ stop a bs := by
  obtain ⟨xs, ys, rfl, rfl⟩ := placed_split h
  rw [stop_append]
  exact ⟨le_stop, le_stop (a := stop a xs + b.span)⟩

theorem placed_apart (hx : (x, b) ∈ placed a bs) (hy : (y, c) ∈ placed a bs) :
    (x = y ∧ b = c) ∨ x + b.span ≤ y ∨ y + c.span ≤ x := by
  induction bs generalizing a with
  | nil => exact absurd hx List.not_mem_nil
  | cons d bs ih =>
    rcases List.mem_cons.mp hx with hx | hx
    · obtain ⟨rfl, rfl⟩ := Prod.mk.inj hx
      rcases List.mem_cons.mp hy with hy | hy
      · obtain ⟨rfl, rfl⟩ := Prod.mk.inj hy
        exact .inl ⟨rfl, rfl⟩
      · exact .inr (.inl (placed_bounds hy).1)
    · rcases List.mem_cons.mp hy with hy | hy
      · obtain ⟨rfl, rfl⟩ := Prod.mk.inj hy
        exact .inr (.inr (placed_bounds hx).1)
      · exact ih hx hy

theorem dvd_stop {n : Nat} (ha : n ∣ a) (h : ∀ b ∈ bs, n ∣ b.span) : n ∣ stop a bs := by
  induction bs generalizing a with
  | nil => exact ha
  | cons b bs ih =>
    exact ih (Nat.dvd_add ha (h b List.mem_cons_self)) fun c hc => h c (List.mem_cons_of_mem _ hc)

theorem freeSpan_le : a + freeSpan bs ≤ stop a bs := by
  induction bs generalizing a with
  | nil => exact Nat.le_refl _
  | cons b bs ih =>
    rw [freeSpan_cons, stop]
    have h := ih (a := a + b.span)
    split <;> omega

theorem coalesced_cons :
    Coalesced (b :: bs) ↔ ¬(b.free = true ∧ firstFree bs = true) ∧ Coalesced bs := by
  cases bs with
  | nil => simp [Coalesced, firstFree]
  | cons c bs => simp [Coalesced, firstFree]

theorem coalesced_append : Coalesced (xs ++ ys) ↔
    Coalesced xs ∧ Coalesced ys ∧ ¬(lastFree false xs = true ∧ firstFree ys = true) := by
  induction xs with
  | nil => simp [Coalesced, lastFree]
  | cons b xs ih =>
    cases xs with
    | nil =>
      rw [List.singleton_append, coalesced_cons]
      simp [Coalesced, lastFree, and_comm]
    | cons c xs =>
      rw [List.cons_append, coalesced_cons, @coalesced_cons b (c :: xs), ih, and_assoc]
      rfl

theorem lastFree_split (h : lastFree false xs = true) : ∃ xs' n, xs = xs' ++ [⟨n, true⟩] := by
  cases xs using List.reverseRecOn with
  | nil => simp [lastFree] at h
  | append_singleton xs c =>
    obtain ⟨n, f⟩ := c
    obtain rfl : f = true := by simpa [lastFree] using h
    exact ⟨xs, n, rfl⟩

theorem firstFree_split (h : firstFree xs = true) : ∃ n xs', xs = ⟨n, true⟩ :: xs' := by
  cases xs with
  | nil => simp [firstFree] at h
  | cons c xs =>
    obtain ⟨n, f⟩ := c
    obtain rfl : f = true := h
    exact ⟨n, xs, rfl⟩

end

-- ---------------------------------------------------------------------------
-- Blocks in memory
-- ---------------------------------------------------------------------------

section
variable {W : Type*} (tag : Bool → Block → W) (link : Nat → W)

/-- The tags of the blocks, and the links that the free ones leave behind them. -/
def Laid (mem : Nat → W) : Bool → Nat → List Block → Prop
  | _, _, [] => True
  | p, a, b :: bs =>
    mem (a + 4) = tag p b ∧ (b.free = true → mem (a + b.span) = link a) ∧
      Laid mem b.free (a + b.span) bs

variable {tag link} {mem mem' : Nat → W} {p p' : Bool} {a x : Nat} {b n : Block}
  {bs xs ys mid mid' : List Block}

theorem laid_append :
    Laid tag link mem p a (xs ++ ys) ↔
      Laid tag link mem p a xs ∧ Laid tag link mem (lastFree p xs) (stop a xs) ys := by
  induction xs generalizing p a with
  | nil => simp [Laid, lastFree, stop]
  | cons b xs ih => simp [Laid, lastFree, stop, ih, and_assoc]

def Reads (a : Nat) (bs : List Block) (z : Nat) : Prop :=
  ∃ x b, (x, b) ∈ placed a bs ∧ (z = x + 4 ∨ (b.free = true ∧ z = x + b.span))

theorem Laid.congr (h : Laid tag link mem p a bs) (hm : ∀ z, Reads a bs z → mem' z = mem z) :
    Laid tag link mem' p a bs := by
  induction bs generalizing p a with
  | nil => trivial
  | cons b bs ih =>
    obtain ⟨htag, hlink, hrest⟩ := h
    refine ⟨?_, fun hb => ?_, ih hrest fun z ⟨x, c, hx, hz⟩ => ?_⟩
    · rw [hm _ ⟨a, b, List.mem_cons_self, .inl rfl⟩, htag]
    · rw [hm _ ⟨a, b, List.mem_cons_self, .inr ⟨hb, rfl⟩⟩, hlink hb]
    · exact hm z ⟨x, c, List.mem_cons_of_mem _ hx, hz⟩

theorem Laid.tag_at (h : Laid tag link mem p a (xs ++ b :: ys)) :
    mem (stop a xs + 4) = tag (lastFree p xs) b :=
  (laid_append.mp h).2.1

theorem Laid.link_at (h : Laid tag link mem p a (xs ++ b :: ys)) (hb : b.free = true) :
    mem (stop a xs + b.span) = link (stop a xs) :=
  (laid_append.mp h).2.2.1 hb

theorem Laid.retag (h : Laid tag link mem p a (b :: bs)) (htag : mem' (a + 4) = tag p' b)
    (hlink : b.free = true → mem' (a + b.span) = mem (a + b.span))
    (hm : ∀ z, Reads (a + b.span) bs z → mem' z = mem z) : Laid tag link mem' p' a (b :: bs) :=
  ⟨htag, fun hb => (hlink hb).trans (h.2.1 hb), h.2.2.congr hm⟩

end

end BoundaryTags
