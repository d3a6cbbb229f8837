import Mathlib.Data.List.Infix
import Xmertl.Partikle.FileIo
import Xmertl.Partikle.RootOpen

/-!
# The tables that mkroot makes of a configuration

`mkroot` makes two tables of a list of paths: `roottab` with the entries of each directory
together, and `rootdata` with where they are and with the bytes of each file. Followed from
the root, the tables are the tree of the paths.
-/

namespace Xmertl.Partikle

open Mkroot

namespace Mkroot

/-- A line of the configuration: a path, and the bytes of its source or that this is a
directory. -/
abbrev Line := List Char × Option (List UInt8)

def kept (conf : List Line) : List Line :=
  conf.foldl (fun seen line => if seen.any (·.1 = line.1) then seen else seen ++ [line]) []

/-- A line that has been numbered: `data2c` makes `root` `q` `code` of a file. -/
def addSource (st : List RootNode × List (Nat × List UInt8)) (line : Line) :
    List RootNode × List (Nat × List UInt8) :=
  match line.1.splitOn '/' with
  | [] :: comp :: rest =>
    let (nodes, q) := addPath st.1 0 (comp :: rest)
    match line.2 with
    | none => (nodes.set q { node nodes q with isdir := true }, st.2)
    | some data => (nodes, st.2 ++ [(q, data)])
  | _ => st

def sources (conf : List Line) : List RootNode × List (Nat × List UInt8) :=
  (kept conf).foldl addSource ([⟨[], 0, true⟩], [])

/-- `root` `q` `code`, which has `root` `q` `len` bytes. -/
def code (codes : List (Nat × List UInt8)) (q : Nat) : List UInt8 := (codes.lookup q).getD []

inductive RootPtr where
  | code (q : Nat)
  | roottab (i : Nat)
  | null
  deriving DecidableEq

/-- An entry of `rootdata`; `sizep` is what it points to. -/
structure RootEntry where
  dotdot : Nat
  ptr : RootPtr
  size : Nat
  sizep : Option Nat
  deriving DecidableEq

/-- `x` when the first child of `q` is numbered. -/
def child0 (nodes : List RootNode) (q : Nat) : Nat :=
  1 + ((List.range q).flatMap fun d => if (node nodes d).isdir then entries nodes d else []).length

def nchild (nodes : List RootNode) (q : Nat) : Nat := (entries nodes q).length

def rootdata (nodes : List RootNode) (codes : List (Nat × List UInt8)) : List RootEntry :=
  (unsort nodes).map fun q =>
    let dotdot := sort nodes (node nodes q).dotdot
    if !(node nodes q).isdir then ⟨dotdot, .code q, 0, some (code codes q).length⟩
    else if nchild nodes q ≠ 0 then ⟨dotdot, .roottab (child0 nodes q), nchild nodes q, none⟩
    else ⟨dotdot, .null, 0, none⟩

end Mkroot

/-- What `mkroot` prints. -/
structure RootTables where
  roottab : List Rootfile
  rootdata : List RootEntry
  code : Nat → List UInt8

def mkroot (conf : List Line) : RootTables :=
  let (nodes, codes) := sources conf
  ⟨roottab nodes, rootdata nodes codes, code codes⟩

namespace RootTables

/-- The entry with a name among those that `rootdata` gives for directory `i`. -/
def child (t : RootTables) (i : Nat) (c : List Char) : Option Nat :=
  match t.rootdata[i]? with
  | some ⟨_, .roottab k, n, _⟩ =>
    (List.range' k n).find? fun j => (t.roottab[j]?).any fun f => f.name = c
  | _ => none

def find (t : RootTables) (path : List (List Char)) : Option Nat := path.foldlM t.child 0

/-- What `rootread` has of entry `i`; no bytes of its own are a directory's. -/
def contents (t : RootTables) (i : Nat) : Option Rootdata :=
  match t.rootdata[i]? with
  | some ⟨_, .code q, size, sizep⟩ => some ⟨fun k => (t.code q).getD k 0, size, sizep⟩
  | _ => none

end RootTables

-- ---------------------------------------------------------------------------
-- What a configuration says
-- ---------------------------------------------------------------------------

def Mkroot.names (l : Line) : List (List Char) := (l.1.splitOn '/').tail

/-- The path is the root, or leads to a line's or on the way there. -/
def Listed (ls : List Line) (p : List (List Char)) : Prop := p = [] ∨ ∃ l ∈ ls, p <+: names l

/-- The root, the lines' directories and what leads on to a line. -/
def ListedDir (ls : List Line) (p : List (List Char)) : Prop :=
  p = [] ∨ ∃ l ∈ ls, p <+: names l ∧ (p ≠ names l ∨ l.2 = none)

/-- Paths of names from the root that have room in `roottab`, none of them on from a file. -/
structure Proper (ls : List Line) : Prop where
  absolute : ∀ l ∈ ls, l.1.splitOn '/' = [] :: names l ∧ names l ≠ []
  named : ∀ l ∈ ls, [] ∉ names l
  fits : ∀ l ∈ ls, ∀ c ∈ names l, c.length < knamelen
  leads : ∀ l ∈ ls, l.2 ≠ none → ∀ l' ∈ ls, names l <+: names l' → l' = l

/-- Followed from the root, the tables are the tree of the lines. -/
structure RootTables.Compiled (t : RootTables) (ls : List Line) : Prop where
  listed : ∀ p, (∃ i, t.find p = some i) ↔ Listed ls p
  once : ∀ p p' i, t.find p = some i → t.find p' = some i → p = p'
  used : ∀ i, i < t.roottab.length → ∃ p, t.find p = some i
  entry : ∀ p i, t.find p = some i → ∃ f, t.roottab[i]? = some f ∧ f.name = p.getLast?.getD [] ∧
    f.qid.path = i ∧ (f.qid.type = 0x80 ∧ ListedDir ls p ∨ f.qid.type = 0 ∧ ¬ListedDir ls p) ∧
    t.find p.dropLast = some f.dotdot
  data : ∀ l ∈ ls, ∀ data, l.2 = some data →
    ∃ i r, t.find (names l) = some i ∧ t.contents i = some r ∧ r.data = data

-- ---------------------------------------------------------------------------
-- Where a path leads
-- ---------------------------------------------------------------------------

namespace Mkroot

variable {nodes : List RootNode} {p p0 p' : List (List Char)} {c : List Char} {q w : Nat}
variable {x : RootNode}

def resolve (nodes : List RootNode) (p : List (List Char)) : Option Nat :=
  p.foldlM (walk nodes) 0

theorem Grown.walk_iff (h : Grown nodes) : walk nodes q c = some w ↔
    w < nodes.length ∧ 1 ≤ w ∧ (node nodes w).dotdot = q ∧ (node nodes w).name = c := by
  constructor
  · intro hwalk
    obtain ⟨hmem, hname⟩ := walk_some hwalk
    obtain ⟨hlt, hpos, hdotdot⟩ := mem_entries.mp hmem
    exact ⟨hlt, hpos, hdotdot, hname⟩
  · rintro ⟨hlt, hpos, hdotdot, hname⟩
    cases hwalk : walk nodes q c with
    | none => exact absurd hname (walk_none hwalk (mem_entries.mpr ⟨hlt, hpos, hdotdot⟩))
    | some v =>
      obtain ⟨hmem, hname'⟩ := walk_some hwalk
      obtain ⟨hlt', hpos', hdotdot'⟩ := mem_entries.mp hmem
      rw [h.unique v hlt' hpos' w hlt hpos (hdotdot'.trans hdotdot.symm) (hname'.trans hname.symm)]

theorem resolve_concat (nodes : List RootNode) (p : List (List Char)) (c : List Char) :
    resolve nodes (p ++ [c]) = (resolve nodes p).bind fun q => walk nodes q c := by
  unfold resolve
  rw [List.foldlM_append]
  simp

theorem Grown.resolve_concat (h : Grown nodes) : resolve nodes (p ++ [c]) = some w ↔
    w < nodes.length ∧ 1 ≤ w ∧ resolve nodes p = some (node nodes w).dotdot ∧
      (node nodes w).name = c := by
  rw [Mkroot.resolve_concat, Option.bind_eq_some_iff]
  constructor
  · rintro ⟨q, hq, hwalk⟩
    obtain ⟨hlt, hpos, rfl, hname⟩ := h.walk_iff.mp hwalk
    exact ⟨hlt, hpos, hq, hname⟩
  · rintro ⟨hlt, hpos, hq, hname⟩
    exact ⟨_, hq, h.walk_iff.mpr ⟨hlt, hpos, rfl, hname⟩⟩

theorem resolve_start (h : p' <+: p) (hp : ∃ w, resolve nodes p = some w) :
    ∃ w, resolve nodes p' = some w := by
  obtain ⟨rest, rfl⟩ := h
  obtain ⟨w, hw⟩ := hp
  unfold resolve at hw
  rw [List.foldlM_append] at hw
  obtain ⟨v, hv, -⟩ := Option.bind_eq_some_iff.mp hw
  exact ⟨v, hv⟩

theorem Grown.resolve_lt (h : Grown nodes) (hp : resolve nodes p = some w) : w < nodes.length := by
  cases p using List.reverseRecOn with
  | nil =>
    cases hp
    exact h.length_pos
  | append_singleton p c => exact (h.resolve_concat.mp hp).1

theorem Grown.resolve_inj (h : Grown nodes) (hp : resolve nodes p = some w)
    (hp' : resolve nodes p' = some w) : p = p' := by
  induction p using List.reverseRecOn generalizing p' w with
  | nil =>
    cases hp
    cases p' using List.reverseRecOn with
    | nil => rfl
    | append_singleton p' c => exact absurd (h.resolve_concat.mp hp').2.1 (by decide)
  | append_singleton p c ih =>
    obtain ⟨-, hpos, hq, rfl⟩ := h.resolve_concat.mp hp
    cases p' using List.reverseRecOn with
    | nil =>
      cases hp'
      exact absurd hpos (by decide)
    | append_singleton p' c' =>
      obtain ⟨-, -, hq', rfl⟩ := h.resolve_concat.mp hp'
      rw [ih hq hq']

/-- A path leads to each node: to its directory, by induction, and on with its name. -/
theorem Grown.resolve_onto (h : Grown nodes) (hw : w < nodes.length) :
    ∃ p, resolve nodes p = some w := by
  induction w using Nat.strongRecOn with
  | ind w ih =>
    by_cases hzero : w = 0
    · exact ⟨[], congrArg some hzero.symm⟩
    · have hbefore := h.before w hw (by omega)
      obtain ⟨p, hp⟩ := ih _ hbefore (by omega)
      exact ⟨p ++ [(node nodes w).name], h.resolve_concat.mpr ⟨hw, by omega, hp, rfl⟩⟩

theorem Grown.node_root (h : Grown nodes) : node nodes 0 = ⟨[], 0, true⟩ := by
  rw [node, List.getD_eq_getElem?_getD, h.root]
  rfl

theorem Grown.resolve_name (h : Grown nodes) (hp : resolve nodes p = some w) :
    (node nodes w).name = p.getLast?.getD [] := by
  cases p using List.reverseRecOn with
  | nil =>
    cases hp
    rw [h.node_root]
    rfl
  | append_singleton p c =>
    rw [List.getLast?_concat]
    exact (h.resolve_concat.mp hp).2.2.2

theorem Grown.resolve_dropLast (h : Grown nodes) (hp : resolve nodes p = some w) :
    resolve nodes p.dropLast = some (node nodes w).dotdot := by
  cases p using List.reverseRecOn with
  | nil =>
    cases hp
    rw [h.node_root]
    rfl
  | append_singleton p c =>
    rw [List.dropLast_concat]
    exact (h.resolve_concat.mp hp).2.2.1

theorem Grown.resolve_append (h : Grown nodes) {isdir : Bool} (hp0 : resolve nodes p0 = some q)
    (hwalk : walk nodes q c = none) : resolve (nodes ++ [⟨c, q, isdir⟩]) p = some w ↔
      resolve nodes p = some w ∨ p = p0 ++ [c] ∧ w = nodes.length := by
  have hq := h.resolve_lt hp0
  have hnew : Grown (nodes ++ [⟨c, q, isdir⟩]) := h.append hq hwalk
  induction p using List.reverseRecOn generalizing w with
  | nil => exact ⟨.inl, fun hor => hor.elim id fun hcat => absurd hcat.1 (by simp)⟩
  | append_singleton p c' ih =>
    have hlen : (nodes ++ [(⟨c, q, isdir⟩ : RootNode)]).length = nodes.length + 1 := by simp
    rw [hnew.resolve_concat, h.resolve_concat]
    constructor
    · rintro ⟨hlt, hpos, hdir, hname⟩
      replace hdir := ih.mp hdir
      rcases Nat.lt_or_ge w nodes.length with hw | hw
      · rw [node_append hw] at hdir hname
        have hbefore := h.before w hw hpos
        exact .inl ⟨hw, hpos, hdir.resolve_right (by omega), hname⟩
      · obtain rfl : w = nodes.length := by omega
        rw [node_new] at hdir hname
        replace hdir := hdir.resolve_right fun h => absurd h.2 (Nat.ne_of_lt hq)
        exact .inr ⟨by rw [h.resolve_inj hdir hp0, ← hname], rfl⟩
    · rintro (⟨hlt, hpos, hdir, hname⟩ | ⟨hcat, rfl⟩)
      · rw [node_append hlt]
        exact ⟨by omega, hpos, ih.mpr (.inl hdir), hname⟩
      · obtain ⟨rfl, hc⟩ := List.append_inj' hcat rfl
        rw [node_new]
        exact ⟨by omega, h.length_pos, ih.mpr (.inl hp0), (List.singleton_inj.mp hc).symm⟩

-- ---------------------------------------------------------------------------
-- What a line adds
-- ---------------------------------------------------------------------------

/-- A path has been added, and leads to `end'`; a node that is new is a file at its end only. -/
structure Added (nodes : List RootNode) (p : List (List Char)) (nodes' : List RootNode)
    (end' : Nat) : Prop where
  grown : Grown nodes'
  found : ∀ p', (∃ w, resolve nodes' p' = some w) ↔ (∃ w, resolve nodes p' = some w) ∨ p' <+: p
  kept : ∀ p' w, resolve nodes p' = some w →
    resolve nodes' p' = some w ∧ (node nodes' w).isdir = (node nodes w).isdir
  new : ∀ p' w, resolve nodes' p' = some w → resolve nodes p' = none →
    ((node nodes' w).isdir = true ↔ p' ≠ p)
  leads : resolve nodes' p = some end'

theorem Grown.added_nil (h : Grown nodes) (hp : resolve nodes p = some q) :
    Added nodes p nodes q where
  grown := h
  found p' := ⟨.inl, fun hor => hor.elim id fun hstart => resolve_start hstart ⟨q, hp⟩⟩
  kept p' w hw := ⟨hw, rfl⟩
  new p' w hw hnone := by rw [hnone] at hw; cases hw
  leads := hp

theorem Grown.added_cons (h : Grown nodes) (hq : resolve nodes p0 = some q)
    (hwalk : walk nodes q c = none) {rest : List (List Char)} {nodes' : List RootNode} {end' : Nat}
    (hadded : Added (nodes ++ [⟨c, q, !rest.isEmpty⟩]) (p0 ++ [c] ++ rest) nodes' end') :
    Added nodes (p0 ++ [c] ++ rest) nodes' end' := by
  have happend (p' : List (List Char)) (w : Nat) :
      resolve (nodes ++ [⟨c, q, !rest.isEmpty⟩]) p' = some w ↔
        resolve nodes p' = some w ∨ p' = p0 ++ [c] ∧ w = nodes.length :=
    h.resolve_append hq hwalk
  refine ⟨hadded.grown, fun p' => ?_, fun p' w hw => ?_, fun p' w hw hnone => ?_, hadded.leads⟩
  · rw [hadded.found]
    constructor
    · rintro (⟨w, hw⟩ | hstart)
      · rcases (happend p' w).mp hw with hw | ⟨rfl, -⟩
        · exact .inl ⟨w, hw⟩
        · exact .inr (List.prefix_append _ _)
      · exact .inr hstart
    · rintro (⟨w, hw⟩ | hstart)
      · exact .inl ⟨w, (happend p' w).mpr (.inl hw)⟩
      · exact .inr hstart
  · obtain ⟨hkept, hdir⟩ := hadded.kept p' w ((happend p' w).mpr (.inl hw))
    rw [node_append (h.resolve_lt hw)] at hdir
    exact ⟨hkept, hdir⟩
  · by_cases hp' : p' = p0 ++ [c]
    · obtain ⟨hkept, hdir⟩ := hadded.kept p' _ ((happend p' _).mpr (.inr ⟨hp', rfl⟩))
      obtain rfl : w = nodes.length := Option.some.inj (hw.symm.trans hkept)
      rw [hdir, node_new, hp']
      cases rest <;> simp
    · refine hadded.new p' w hw ?_
      cases hsome : resolve (nodes ++ [⟨c, q, !rest.isEmpty⟩]) p' with
      | none => rfl
      | some v =>
        rcases (happend p' v).mp hsome with hv | ⟨hcat, -⟩
        · rw [hnone] at hv
          cases hv
        · exact absurd hcat hp'

theorem Grown.added (h : Grown nodes) (hq : resolve nodes p0 = some q)
    (comps : List (List Char)) :
    Added nodes (p0 ++ comps) (Mkroot.addPath nodes q comps).1
      (Mkroot.addPath nodes q comps).2 := by
  induction comps generalizing nodes q p0 with
  | nil =>
    rw [List.append_nil]
    exact h.added_nil hq
  | cons comp rest ih =>
    rw [List.append_cons]
    unfold Mkroot.addPath
    cases hwalk : walk nodes q comp with
    | some q2 => exact ih h (by rw [Mkroot.resolve_concat, hq]; exact hwalk)
    | none =>
      have hgrown : Grown (nodes ++ [⟨comp, q, !rest.isEmpty⟩]) := h.append (h.resolve_lt hq) hwalk
      exact h.added_cons hq hwalk (ih hgrown ((h.resolve_append hq hwalk).mpr (.inr ⟨rfl, rfl⟩)))

theorem resolve_set (f : RootNode) (hq : q < nodes.length) (hname : f.name = (node nodes q).name)
    (hdotdot : f.dotdot = (node nodes q).dotdot) (p : List (List Char)) :
    resolve (nodes.set q f) p = resolve nodes p := by
  have hnode (k : Nat) : (node (nodes.set q f) k).dotdot = (node nodes k).dotdot ∧
      (node (nodes.set q f) k).name = (node nodes k).name := by
    rw [node_set f k hq]
    split
    · rename_i hk
      rw [hk]
      exact ⟨hdotdot, hname⟩
    · exact ⟨rfl, rfl⟩
  have hwalk : walk (nodes.set q f) = walk nodes := by
    funext d c
    unfold walk entries
    simp only [hnode, List.length_set]
  unfold resolve
  rw [hwalk]

end Mkroot

-- ---------------------------------------------------------------------------
-- The lines in turn
-- ---------------------------------------------------------------------------

section

variable {ls : List Line} {l : Line} {p : List (List Char)} {w : Nat}
variable {st : List RootNode × List (Nat × List UInt8)}

theorem listed_concat : Listed (ls ++ [l]) p ↔ Listed ls p ∨ p <+: names l := by
  simp only [Listed, List.mem_append, List.mem_singleton, or_and_right, exists_or, exists_eq_left,
    or_assoc]

theorem listedDir_concat : ListedDir (ls ++ [l]) p ↔
    ListedDir ls p ∨ p <+: names l ∧ (p ≠ names l ∨ l.2 = none) := by
  simp only [ListedDir, List.mem_append, List.mem_singleton, or_and_right, exists_or,
    exists_eq_left, or_assoc]

theorem ListedDir.listed (h : ListedDir ls p) : Listed ls p :=
  h.imp_right fun ⟨l, hl, hstart, _⟩ => ⟨l, hl, hstart⟩

theorem Proper.init (h : Proper (ls ++ [l])) : Proper ls where
  absolute l' hl' := h.absolute l' (List.mem_append_left _ hl')
  named l' hl' := h.named l' (List.mem_append_left _ hl')
  fits l' hl' := h.fits l' (List.mem_append_left _ hl')
  leads l' hl' hfile l2 hl2 :=
    h.leads l' (List.mem_append_left _ hl') hfile l2 (List.mem_append_left _ hl2)

theorem Proper.dir (h : Proper (ls ++ [l])) (hl : l ∉ ls) (hp : Listed ls p)
    (hstart : p <+: names l) : ListedDir ls p := by
  refine hp.imp_right ?_
  rintro ⟨l', hl', hstart'⟩
  refine ⟨l', hl', hstart', ?_⟩
  by_contra hfile
  rw [not_or, not_not] at hfile
  obtain ⟨rfl, hfile⟩ := hfile
  obtain rfl := h.leads l' (List.mem_append_left _ hl') hfile l (by simp) hstart
  exact hl hl'

theorem Proper.file_not_dir (h : Proper ls) (hl : l ∈ ls) {data : List UInt8}
    (hdata : l.2 = some data) : ¬ListedDir ls (names l) := by
  rintro (hnil | ⟨l', hl', hstart, hor⟩)
  · exact (h.absolute l hl).2 hnil
  · obtain rfl := h.leads l hl (by rw [hdata]; simp) l' hl' hstart
    rcases hor with hne | hnone
    · exact hne rfl
    · rw [hdata] at hnone
      cases hnone

structure Compiling (st : List RootNode × List (Nat × List UInt8)) (ls : List Line) : Prop where
  grown : Grown st.1
  listed : ∀ p, (∃ w, resolve st.1 p = some w) ↔ Listed ls p
  dirs : ∀ p w, resolve st.1 p = some w → ((node st.1 w).isdir = true ↔ ListedDir ls p)
  codes : ∀ l ∈ ls, ∀ data, l.2 = some data →
    ∃ w, resolve st.1 (names l) = some w ∧ st.2.lookup w = some data
  lines : ∀ x ∈ st.2, ∃ l ∈ ls, l.2 ≠ none ∧ resolve st.1 (names l) = some x.1

theorem resolve_start_root (h : resolve [⟨[], 0, true⟩] p = some w) : p = [] ∧ w = 0 := by
  cases p using List.reverseRecOn with
  | nil => exact ⟨rfl, (Option.some.inj h).symm⟩
  | append_singleton p c =>
    obtain ⟨hlt, hpos, -⟩ := (tree_grown []).resolve_concat.mp h
    have hlen : (tree []).length = 1 := rfl
    omega

theorem Compiling.start : Compiling ([⟨[], 0, true⟩], []) [] where
  grown := tree_grown []
  listed p := by
    constructor
    · rintro ⟨w, hw⟩
      exact .inl (resolve_start_root hw).1
    · rintro (rfl | ⟨l, hl, -⟩)
      · exact ⟨0, rfl⟩
      · cases hl
  dirs p w hw := by
    obtain ⟨rfl, rfl⟩ := resolve_start_root hw
    exact ⟨fun _ => .inl rfl, fun _ => rfl⟩
  codes l hl := by cases hl
  lines x hx := by cases hx

/-- The path of a new line is added to the nodes; whether its end is a directory is left. -/
theorem Compiling.added (h : Compiling st ls) (hproper : Proper (ls ++ [l])) (hl : l ∉ ls)
    {nodes' : List RootNode} {q : Nat} (hadded : Added st.1 (names l) nodes' q) :
    (∀ p, (∃ w, resolve nodes' p = some w) ↔ Listed (ls ++ [l]) p) ∧
    ∀ p w, resolve nodes' p = some w →
      ((node nodes' w).isdir = true ∨ p = names l ∧ l.2 = none ↔ ListedDir (ls ++ [l]) p) := by
  refine ⟨fun p => by rw [hadded.found, h.listed, listed_concat], fun p w hw => ?_⟩
  rw [listedDir_concat]
  cases hold : resolve st.1 p with
  | some v =>
    -- what was there is as it was; on the way to the end it was a directory
    obtain ⟨hv, hdir⟩ := hadded.kept p v hold
    obtain rfl : w = v := Option.some.inj (hw.symm.trans hv)
    rw [hdir, h.dirs p w hold]
    constructor
    · rintro (hdir | ⟨rfl, hnone⟩)
      · exact .inl hdir
      · exact .inr ⟨List.prefix_rfl, .inr hnone⟩
    · rintro (hdir | ⟨hstart, -⟩)
      · exact .inl hdir
      · exact .inl (hproper.dir hl ((h.listed p).mp ⟨w, hold⟩) hstart)
  | none =>
    have hnot : ¬Listed ls p := fun hlisted => by
      obtain ⟨v, hv⟩ := (h.listed p).mpr hlisted
      rw [hold] at hv
      cases hv
    have hstart : p <+: names l := by
      rcases (hadded.found p).mp ⟨w, hw⟩ with ⟨v, hv⟩ | hstart
      · rw [hold] at hv
        cases hv
      · exact hstart
    rw [hadded.new p w hw hold]
    constructor
    · rintro (hne | ⟨-, hnone⟩)
      · exact .inr ⟨hstart, .inl hne⟩
      · exact .inr ⟨hstart, .inr hnone⟩
    · rintro (hdir | ⟨-, hne | hnone⟩)
      · exact absurd hdir.listed hnot
      · exact .inl hne
      · exact (em (p = names l)).symm.imp_right fun hp => ⟨hp, hnone⟩

theorem addSource_eq (habs : l.1.splitOn '/' = [] :: names l) (hne : names l ≠ [])
    {nodes' : List RootNode} {q : Nat} (hpath : addPath st.1 0 (names l) = (nodes', q)) :
    (l.2 = none → addSource st l = (nodes'.set q { node nodes' q with isdir := true }, st.2)) ∧
    ∀ data, l.2 = some data → addSource st l = (nodes', st.2 ++ [(q, data)]) := by
  unfold addSource
  rw [habs]
  cases hnames : names l with
  | nil => exact absurd hnames hne
  | cons comp rest =>
    rw [hnames] at hpath
    simp only [hpath]
    exact ⟨fun hnone => by rw [hnone], fun data hdata => by rw [hdata]⟩

theorem Compiling.step (h : Compiling st ls) (hproper : Proper (ls ++ [l])) (hl : l ∉ ls) :
    Compiling (addSource st l) (ls ++ [l]) := by
  obtain ⟨habs, hne⟩ := hproper.absolute l (by simp)
  have hadded : Added st.1 ([] ++ names l) _ _ := h.grown.added rfl (names l)
  rw [List.nil_append] at hadded
  generalize hpath : addPath st.1 0 (names l) = r at hadded
  obtain ⟨nodes', q⟩ := r
  obtain ⟨hdirLine, hfileLine⟩ := addSource_eq habs hne hpath
  obtain ⟨hlisted, hdirs⟩ := h.added hproper hl hadded
  have hq := hadded.grown.resolve_lt hadded.leads
  cases hdata : l.2 with
  | none =>
    rw [hdirLine hdata]
    have hsame := resolve_set { node nodes' q with isdir := true } hq rfl rfl
    refine ⟨hadded.grown.isdir hq, fun p => ?_, fun p w hw => ?_, fun l' hl' data hdata' => ?_,
      fun x hx => ?_⟩
    · rw [hsame, hlisted]
    · rw [hsame] at hw
      rw [← hdirs p w hw, node_set _ w hq]
      by_cases hwq : w = q
      · subst hwq
        have hp := hadded.grown.resolve_inj hw hadded.leads
        exact ⟨fun _ => .inr ⟨hp, hdata⟩, fun _ => by rw [if_pos rfl]⟩
      · rw [if_neg hwq]
        refine ⟨.inl, fun hor => hor.resolve_right ?_⟩
        rintro ⟨rfl, -⟩
        exact hwq (Option.some.inj (hw.symm.trans hadded.leads))
    · rcases List.mem_append.mp hl' with hl' | hl'
      · obtain ⟨w, hw, hcode⟩ := h.codes l' hl' data hdata'
        exact ⟨w, (hsame _).trans (hadded.kept _ w hw).1, hcode⟩
      · rw [List.mem_singleton.mp hl', hdata] at hdata'
        cases hdata'
    · obtain ⟨l', hl', hfile, hw⟩ := h.lines x hx
      exact ⟨l', List.mem_append_left _ hl', hfile, (hsame _).trans (hadded.kept _ _ hw).1⟩
  | some data =>
    rw [hfileLine data hdata]
    -- no line before has the number of the source
    have hfresh : st.2.lookup q = none := by
      rw [List.lookup_eq_none_iff]
      rintro x hx
      rw [bne_iff_ne]
      rintro rfl
      obtain ⟨l', hl', hfile, hw⟩ := h.lines x hx
      have hnames := hadded.grown.resolve_inj (hadded.kept _ _ hw).1 hadded.leads
      obtain rfl := hproper.leads l' (List.mem_append_left _ hl') hfile l (by simp)
        (by rw [hnames])
      exact hl hl'
    refine ⟨hadded.grown, hlisted, fun p w hw => ?_, fun l' hl' data' hdata' => ?_,
      fun x hx => ?_⟩
    · rw [← hdirs p w hw, hdata]
      simp
    · rcases List.mem_append.mp hl' with hl' | hl'
      · obtain ⟨w, hw, hcode⟩ := h.codes l' hl' data' hdata'
        refine ⟨w, (hadded.kept _ w hw).1, ?_⟩
        rw [List.lookup_append, hcode]
        rfl
      · obtain rfl := List.mem_singleton.mp hl'
        refine ⟨q, hadded.leads, ?_⟩
        rw [List.lookup_append, hfresh, Option.none_or, ← hdata', hdata]
        simp
    · rcases List.mem_append.mp hx with hx | hx
      · obtain ⟨l', hl', hfile, hw⟩ := h.lines x hx
        exact ⟨l', List.mem_append_left _ hl', hfile, (hadded.kept _ _ hw).1⟩
      · obtain rfl := List.mem_singleton.mp hx
        exact ⟨l, by simp, by rw [hdata]; simp, hadded.leads⟩

theorem compiling (hproper : Proper ls) (hnodup : ls.Nodup) :
    Compiling (ls.foldl addSource ([⟨[], 0, true⟩], [])) ls := by
  induction ls using List.reverseRecOn with
  | nil => exact Compiling.start
  | append_singleton ls l ih =>
    rw [List.foldl_append]
    rw [List.nodup_append_comm, List.singleton_append, List.nodup_cons] at hnodup
    exact (ih hproper.init hnodup.2).step hproper hnodup.1

theorem kept_nodup (conf : List Line) : (kept conf).Nodup := by
  have hkept (seen conf : List Line) (h : seen.Nodup) : (conf.foldl
      (fun seen line => if seen.any (·.1 = line.1) then seen else seen ++ [line]) seen).Nodup := by
    induction conf generalizing seen with
    | nil => exact h
    | cons line rest ih =>
      rw [List.foldl_cons]
      refine ih _ ?_
      split
      · exact h
      · rename_i hnot
        rw [List.nodup_append_comm, List.singleton_append, List.nodup_cons]
        refine ⟨fun hmem => hnot ?_, h⟩
        exact List.any_eq_true.mpr ⟨line, hmem, by simp⟩
  exact hkept [] conf List.nodup_nil

end

-- ---------------------------------------------------------------------------
-- From the nodes to the tables
-- ---------------------------------------------------------------------------

def Compiling.tree {st : List RootNode × List (Nat × List UInt8)} {ls : List Line}
    (h : Compiling st ls) (hproper : Proper ls) : RootTree where
  nodes := st.1
  root := h.grown.root
  up q hq hpos := by
    refine ⟨h.grown.before q hq hpos, ?_⟩
    obtain ⟨p, hp⟩ := h.grown.resolve_onto hq
    cases p using List.reverseRecOn with
    | nil => cases hp; exact absurd hpos (by decide)
    | append_singleton p c =>
      obtain ⟨-, -, hdir, -⟩ := h.grown.resolve_concat.mp hp
      obtain hnil | ⟨l, hl, hstart⟩ := (h.listed _).mp ⟨q, hp⟩
      · exact absurd hnil (by simp)
      refine (h.dirs p _ hdir).mpr (.inr ⟨l, hl, (List.prefix_append p [c]).trans hstart, .inl ?_⟩)
      rintro rfl
      have hlen := hstart.length_le
      rw [List.length_append, List.length_singleton] at hlen
      omega
  named q hq hpos := by
    obtain ⟨p, hp⟩ := h.grown.resolve_onto hq
    cases p using List.reverseRecOn with
    | nil => cases hp; exact absurd hpos (by decide)
    | append_singleton p c =>
      obtain ⟨-, -, -, rfl⟩ := h.grown.resolve_concat.mp hp
      obtain hnil | ⟨l, hl, hstart⟩ := (h.listed _).mp ⟨q, hp⟩
      · exact absurd hnil (by simp)
      intro hname
      exact hproper.named l hl (hname ▸ hstart.subset (by simp))
  unique := h.grown.unique

theorem Compiling.fits {st : List RootNode × List (Nat × List UInt8)} {ls : List Line}
    (h : Compiling st ls) (hproper : Proper ls) (q : Nat) :
    (node st.1 q).name.length < knamelen := by
  rcases Nat.lt_or_ge q st.1.length with hq | hq
  · obtain ⟨p, hp⟩ := h.grown.resolve_onto hq
    rw [h.grown.resolve_name hp]
    cases p using List.reverseRecOn with
    | nil => decide
    | append_singleton p c =>
      obtain hnil | ⟨l, hl, hstart⟩ := (h.listed _).mp ⟨q, hp⟩
      · exact absurd hnil (by simp)
      rw [List.getLast?_concat]
      exact hproper.fits l hl c (hstart.subset (by simp))
  · rw [node, List.getD_eq_default _ _ hq]
    decide

namespace RootTree

variable {T : RootTree} {q w : Nat} {c : List Char}

theorem unsort_children (hq : q < T.nodes.length) (hdir : T.isdir q = true) :
    ∃ pre post, unsort T.nodes = pre ++ (entries T.nodes q ++ post) ∧
      pre.length = child0 T.nodes q := by
  have hrange : List.range T.nodes.length =
      List.range q ++ q :: (List.range (T.nodes.length - q - 1)).map (q + 1 + ·) := by
    have hlen : T.nodes.length = q + 1 + (T.nodes.length - q - 1) := by omega
    conv_lhs => rw [hlen]
    rw [List.range_add, List.range_succ, List.append_assoc]
    rfl
  unfold unsort
  rw [hrange, List.flatMap_append, List.flatMap_cons,
    if_pos (show (node T.nodes q).isdir = true from hdir), ← List.cons_append]
  refine ⟨_, _, rfl, ?_⟩
  rw [List.length_cons, child0, Nat.add_comm]

theorem entries_nil (h : q < T.nodes.length → T.isdir q = false) : entries T.nodes q = [] := by
  refine List.eq_nil_iff_forall_not_mem.mpr fun w hw => ?_
  obtain ⟨hlt, hpos, rfl⟩ := mem_entries.mp hw
  obtain ⟨hbefore, hdir⟩ := T.up w hlt hpos
  have hfile := h (by omega)
  exact absurd (hdir.symm.trans hfile) (by decide)

theorem find_stretch {pre l post : List Nat} (hfits : ∀ q, (T.name q).length < knamelen)
    (h : unsort T.nodes = pre ++ (l ++ post)) :
    ((List.range' pre.length l.length).find? fun j =>
        ((roottab T.nodes)[j]?).any fun f => f.name = c) =
      (l.find? fun q => T.name q = c).map (sort T.nodes) := by
  induction l generalizing pre with
  | nil => rfl
  | cons q l ih =>
    have hmem : q ∈ unsort T.nodes := by rw [h]; simp
    have hsort : sort T.nodes q = pre.length := sort_append h
    have htab := roottab_sort (mem_unsort.mp hmem)
    simp only [List.take_of_length_le (Nat.le_of_lt (hfits q)), hsort] at htab
    have hrest := @ih (pre ++ [q]) (by rw [h]; simp)
    rw [List.length_append, List.length_singleton] at hrest
    rw [List.length_cons, List.range'_succ, List.find?_cons, List.find?_cons, htab]
    by_cases hname : T.name q = c
    · simp [hname, hsort]
    · simp only [Option.any_some, hname, decide_false]
      exact hrest

def tables (T : RootTree) (codes : List (Nat × List UInt8)) : RootTables :=
  ⟨roottab T.nodes, rootdata T.nodes codes, Mkroot.code codes⟩

variable {codes : List (Nat × List UInt8)}

theorem tables_entry (hq : q < T.nodes.length) :
    (T.tables codes).rootdata[sort T.nodes q]? = some
      (let dotdot := sort T.nodes (T.dotdot q)
      if !T.isdir q then ⟨dotdot, .code q, 0, some (Mkroot.code codes q).length⟩
      else if nchild T.nodes q ≠ 0 then
        ⟨dotdot, .roottab (child0 T.nodes q), nchild T.nodes q, none⟩
      else ⟨dotdot, .null, 0, none⟩) := by
  show (rootdata T.nodes codes)[sort T.nodes q]? = _
  rw [rootdata, List.getElem?_map, unsort_sort hq]
  rfl

theorem tables_child (hfits : ∀ q, (T.name q).length < knamelen) (hq : q < T.nodes.length) :
    (T.tables codes).child (sort T.nodes q) c = (walk T.nodes q c).map (sort T.nodes) := by
  unfold RootTables.child
  rw [tables_entry hq]
  have hnil (h : entries T.nodes q = []) : walk T.nodes q c = none := by rw [walk, h]; rfl
  cases hdir : T.isdir q with
  | false => rw [hnil (entries_nil fun _ => hdir)]; rfl
  | true =>
    by_cases hchild : nchild T.nodes q = 0
    · rw [hnil (List.eq_nil_of_length_eq_zero hchild)]
      simp [hchild]
    · obtain ⟨pre, post, hunsort, hpre⟩ := unsort_children hq hdir
      simp only [Bool.not_true, Bool.false_eq_true, if_false, if_pos hchild]
      rw [← hpre]
      exact find_stretch hfits hunsort

theorem grown (T : RootTree) : Grown T.nodes :=
  ⟨T.root, fun q hq hpos => (T.up q hq hpos).1, T.unique⟩

theorem tables_find (hfits : ∀ q, (T.name q).length < knamelen) (p : List (List Char)) :
    (T.tables codes).find p = (Mkroot.resolve T.nodes p).map (sort T.nodes) := by
  induction p using List.reverseRecOn with
  | nil => exact congrArg some T.sort_zero.symm
  | append_singleton p c ih =>
    have hfind : (T.tables codes).find (p ++ [c]) =
        ((T.tables codes).find p).bind fun i => (T.tables codes).child i c := by
      unfold RootTables.find
      rw [List.foldlM_append]
      simp
    rw [hfind, ih, Mkroot.resolve_concat]
    cases hp : Mkroot.resolve T.nodes p with
    | none => rfl
    | some q => exact tables_child hfits (T.grown.resolve_lt hp)

theorem tables_find_iff (hfits : ∀ q, (T.name q).length < knamelen) {p : List (List Char)}
    {i : Nat} : (T.tables codes).find p = some i ↔
      ∃ w, Mkroot.resolve T.nodes p = some w ∧ sort T.nodes w = i := by
  rw [tables_find hfits, Option.map_eq_some_iff]

end RootTree

theorem RootTree.tables_onto (T : RootTree) {i : Nat} (h : i < (roottab T.nodes).length) :
    ∃ w, w < T.nodes.length ∧ sort T.nodes w = i := by
  rw [T.roottab_length, ← T.unsort_length] at h
  refine ⟨(unsort T.nodes)[i], RootTree.mem_unsort.mp (List.getElem_mem h), ?_⟩
  exact T.unsort_nodup.idxOf_getElem i h

theorem Rootdata.data_code (code : List UInt8) :
    Rootdata.data ⟨fun k => code.getD k 0, 0, some code.length⟩ = code := by
  unfold Rootdata.data
  refine List.ext_getElem (by simp) fun k hk hk' => ?_
  simp [List.getD_eq_getElem?_getD, hk']

end Xmertl.Partikle
