import Mathlib.Data.List.GetD
import Xmertl.Partikle.Fs

/-!
# The tables of the root file system

`mkroot` reads the root's part of a configuration, a path a line, numbers the files and
directories of the tree as it meets them, and prints them as `roottab` and `rootdata`, the
entries of each directory together.
-/

namespace Xmertl.Partikle

/-- `name`, `dotdot` and `isdir` of one `q`; an element that is not set is empty. -/
structure RootNode where
  name : List Char
  dotdot : Nat
  isdir : Bool
  deriving DecidableEq

def RootNode.unset : RootNode := ⟨[], 0, false⟩

namespace Mkroot

def node (nodes : List RootNode) (q : Nat) : RootNode := nodes.getD q .unset

/-- The `q2` from 1 on with `dotdot` and `name` as given. -/
def entries (nodes : List RootNode) (q : Nat) : List Nat :=
  (List.range nodes.length).filter fun q2 => 1 ≤ q2 ∧ (node nodes q2).dotdot = q

/-- `walk[q "/" comp]`, which is set with the node of that name and directory. -/
def walk (nodes : List RootNode) (q : Nat) (comp : List Char) : Option Nat :=
  (entries nodes q).find? fun q2 => (node nodes q2).name = comp

/-- The loop over the components of a path, from `q`. -/
def addPath : List RootNode → Nat → List (List Char) → List RootNode × Nat
  | nodes, q, [] => (nodes, q)
  | nodes, q, comp :: rest =>
    match walk nodes q comp with
    | some q2 => addPath nodes q2 rest
    | none => addPath (nodes ++ [⟨comp, q, !rest.isEmpty⟩]) nodes.length rest

/-- A line of the configuration: the path, and whether its source is a directory. -/
def addLine (nodes : List RootNode) (line : List Char × Bool) : List RootNode :=
  match line.1.splitOn '/' with
  | [] :: comp :: rest =>
    let (nodes, q) := addPath nodes 0 (comp :: rest)
    if line.2 then nodes.set q { node nodes q with isdir := true } else nodes
  | _ => nodes

/-- Of two lines with one path the second is dropped. -/
def lines (conf : List (List Char × Bool)) : List (List Char × Bool) :=
  conf.foldl (fun seen line => if seen.any (·.1 = line.1) then seen else seen ++ [line]) []

def tree (conf : List (List Char × Bool)) : List RootNode :=
  (lines conf).foldl addLine [⟨[], 0, true⟩]

def unsort (nodes : List RootNode) : List Nat :=
  0 :: (List.range nodes.length).flatMap fun q =>
    if (node nodes q).isdir then entries nodes q else []

def sort (nodes : List RootNode) (q : Nat) : Nat := (unsort nodes).idxOf q

/-- QTDIR is 0x80 and QTFILE 0. -/
def qid (nodes : List RootNode) (oq q : Nat) : Qid :=
  ⟨oq, 0, if (node nodes q).isdir then 0x80 else 0⟩

def roottab (nodes : List RootNode) : List Rootfile :=
  (unsort nodes).mapIdx fun oq q =>
    ⟨(node nodes q).name.take knamelen, qid nodes oq q, sort nodes (node nodes q).dotdot,
      List.length_take_le ..⟩

end Mkroot

open Mkroot

/-- A tree of files and directories as `mkroot` numbers it: 0 is the root, and each other
node comes after its directory. -/
structure RootTree where
  nodes : List RootNode
  root : nodes[0]? = some ⟨[], 0, true⟩
  up : ∀ q, q < nodes.length → 1 ≤ q →
    (node nodes q).dotdot < q ∧ (node nodes (node nodes q).dotdot).isdir = true
  named : ∀ q, q < nodes.length → 1 ≤ q → (node nodes q).name ≠ []
  unique : ∀ q, q < nodes.length → 1 ≤ q → ∀ q2, q2 < nodes.length → 1 ≤ q2 →
    (node nodes q).dotdot = (node nodes q2).dotdot →
    (node nodes q).name = (node nodes q2).name → q = q2

namespace RootTree

def name (T : RootTree) (q : Nat) : List Char := (node T.nodes q).name

def dotdot (T : RootTree) (q : Nat) : Nat := (node T.nodes q).dotdot

def isdir (T : RootTree) (q : Nat) : Bool := (node T.nodes q).isdir

def build (T : RootTree) (b : Build) : Build := { b with roottab := roottab T.nodes }

/-- The node that a list of names leads to from `q`. -/
def resolve (T : RootTree) : Nat → List (List Char) → Option Nat
  | q, [] => some q
  | q, c :: rest =>
    match walk T.nodes q c with
    | some q2 => T.resolve q2 rest
    | none => none

end RootTree

/-- The names in a path; slashes in a row are one, and one at the end says nothing. -/
def components (path : List Char) : List (List Char) := (path.splitOn '/').filter (· ≠ [])

namespace RootTree

/-- The path names node `v` from the root. -/
def Names (T : RootTree) (path : List Char) (v : Nat) : Prop :=
  T.resolve 0 (components path) = some v

instance (T : RootTree) (path : List Char) (v : Nat) : Decidable (T.Names path v) :=
  inferInstanceAs (Decidable (_ = _))

def qid (T : RootTree) (v : Nat) : Qid := Mkroot.qid T.nodes (sort T.nodes v) v

/-- `rootopen` finds the node that the path names, and no other. -/
structure Right (T : RootTree) (b : Build) (s : Fs) (path : List Char) : Prop where
  intact : (s.rootopen (T.build b) path).1.intact = true
  opens : (∃ v, T.Names path v) → ∃ fd, (s.rootopen (T.build b) path).2 = .ok fd
  found : ∀ fd, (s.rootopen (T.build b) path).2 = .ok fd →
    ∃ v, T.Names path v ∧ ((s.rootopen (T.build b) path).1.files fd).qid = T.qid v ∧
      ((s.rootopen (T.build b) path).1.files fd).type = (T.build b).devno '/'

/-- The name of node `q` as `strcmp` reads it in the tables. -/
def text (T : RootTree) (b : Build) (q : Nat) : List Char :=
  if (T.name q).length < knamelen then T.name q
  else (T.name q).take knamelen ++ b.after (T.qid q)

def first (T : RootTree) (b : Build) (c : List Char) : Option Nat :=
  (unsort T.nodes).find? fun q => T.text b q = c

/-- The last directory before `v` in the tables. -/
def lastDir (T : RootTree) (v : Nat) : Nat :=
  (((unsort T.nodes).takeWhile (· ≠ v)).filter T.isdir).getLast?.getD 0

def Finds (T : RootTree) (b : Build) (s : Fs) (path : List Char) : Prop :=
  rootOverruns path = false ∧
  match T.resolve 0 (components path) with
  | some v => s.newfd < maxFiles ∧ (∀ c ∈ components path, (T.first b c).isSome) ∧
      ∀ c, (components path).getLast? = some c →
        (slice path).getLast? = some c ∧ T.first b c = some v ∧ T.lastDir v = T.dotdot v
  | none => maxFiles ≤ s.newfd ∨ (∃ c ∈ components path, T.first b c = none) ∨
      ∃ c w, (components path).getLast? = some c ∧ T.first b c = some w ∧
        T.lastDir w ≠ if (slice path).getLast? = some c then T.dotdot w else 0

end RootTree

-- ---------------------------------------------------------------------------
-- The tree of a configuration
-- ---------------------------------------------------------------------------

namespace Mkroot

variable {nodes : List RootNode} {q q2 : Nat} {comp : List Char} {x : RootNode}

theorem mem_entries :
    q2 ∈ entries nodes q ↔ q2 < nodes.length ∧ 1 ≤ q2 ∧ (node nodes q2).dotdot = q := by
  simp [entries]

theorem walk_some (h : walk nodes q comp = some q2) :
    q2 ∈ entries nodes q ∧ (node nodes q2).name = comp :=
  ⟨List.mem_of_find?_eq_some h, by simpa using List.find?_some h⟩

theorem walk_none (h : walk nodes q comp = none) (hmem : q2 ∈ entries nodes q) :
    (node nodes q2).name ≠ comp := by
  simpa using List.find?_eq_none.mp h q2 hmem

structure Grown (nodes : List RootNode) : Prop where
  root : nodes[0]? = some ⟨[], 0, true⟩
  before : ∀ q, q < nodes.length → 1 ≤ q → (node nodes q).dotdot < q
  unique : ∀ q, q < nodes.length → 1 ≤ q → ∀ q2, q2 < nodes.length → 1 ≤ q2 →
    (node nodes q).dotdot = (node nodes q2).dotdot →
    (node nodes q).name = (node nodes q2).name → q = q2

theorem Grown.length_pos (h : Grown nodes) : 0 < nodes.length :=
  (List.getElem?_eq_some_iff.mp h.root).1

theorem node_append (h : q < nodes.length) : node (nodes ++ [x]) q = node nodes q :=
  List.getD_append _ _ _ _ h

theorem node_new : node (nodes ++ [x]) nodes.length = x := by
  rw [node, List.getD_append_right _ _ _ _ (Nat.le_refl _), Nat.sub_self]
  rfl

theorem Grown.append (h : Grown nodes) {isdir : Bool} (hq : q < nodes.length)
    (hwalk : walk nodes q comp = none) : Grown (nodes ++ [⟨comp, q, isdir⟩]) := by
  have hlen : (nodes ++ [(⟨comp, q, isdir⟩ : RootNode)]).length = nodes.length + 1 := by simp
  have hcases {k : Nat} (hk : k < (nodes ++ [(⟨comp, q, isdir⟩ : RootNode)]).length) :
      k < nodes.length ∨ k = nodes.length := by omega
  have hfresh {k : Nat} (hk : k < nodes.length) (hpos : 1 ≤ k)
      (hdotdot : (node nodes k).dotdot = q) : (node nodes k).name ≠ comp :=
    walk_none hwalk (mem_entries.mpr ⟨hk, hpos, hdotdot⟩)
  refine ⟨?_, fun k hk hpos => ?_, fun k hk hpos k2 hk2 hpos2 hdotdot hname => ?_⟩
  · rw [List.getElem?_append_left h.length_pos, h.root]
  · rcases hcases hk with hk | rfl
    · rw [node_append hk]
      exact h.before k hk hpos
    · rw [node_new]
      exact hq
  · rcases hcases hk with hk | rfl <;> rcases hcases hk2 with hk2 | rfl
    · rw [node_append hk, node_append hk2] at hdotdot hname
      exact h.unique k hk hpos k2 hk2 hpos2 hdotdot hname
    · rw [node_append hk, node_new] at hdotdot hname
      exact absurd hname (hfresh hk hpos hdotdot)
    · rw [node_append hk2, node_new] at hdotdot hname
      exact absurd hname.symm (hfresh hk2 hpos2 hdotdot.symm)
    · rfl

theorem node_set (f : RootNode) (k : Nat) (hq : q < nodes.length) :
    node (nodes.set q f) k = if k = q then f else node nodes k := by
  unfold node
  rw [List.getD_eq_getElem?_getD, List.getElem?_set, List.getD_eq_getElem?_getD]
  by_cases hk : q = k
  · rw [if_pos hk, if_pos hk.symm, if_pos hq]
    rfl
  · rw [if_neg hk, if_neg (Ne.symm hk)]

theorem Grown.isdir (h : Grown nodes) (hq : q < nodes.length) :
    Grown (nodes.set q { node nodes q with isdir := true }) := by
  have hsame (k : Nat) :
      (node (nodes.set q { node nodes q with isdir := true }) k).dotdot = (node nodes k).dotdot ∧
      (node (nodes.set q { node nodes q with isdir := true }) k).name = (node nodes k).name := by
    rw [node_set _ k hq]
    split
    · rename_i hk
      rw [hk]
      exact ⟨rfl, rfl⟩
    · exact ⟨rfl, rfl⟩
  refine ⟨?_, fun k hk hpos => ?_, fun k hk hpos k2 hk2 hpos2 hdotdot hname => ?_⟩
  · rw [List.getElem?_set]
    split
    · rename_i hzero
      have hroot : node nodes q = ⟨[], 0, true⟩ := by
        rw [node, List.getD_eq_getElem?_getD, hzero, h.root]
        rfl
      rw [hroot]
    · exact h.root
  · rw [(hsame k).1]
    exact h.before k (by simpa using hk) hpos
  · rw [(hsame k).1, (hsame k2).1] at hdotdot
    rw [(hsame k).2, (hsame k2).2] at hname
    exact h.unique k (by simpa using hk) hpos k2 (by simpa using hk2) hpos2 hdotdot hname

theorem Grown.addPath (h : Grown nodes) (hq : q < nodes.length) (comps : List (List Char)) :
    Grown (addPath nodes q comps).1 ∧ (Mkroot.addPath nodes q comps).2 <
      (Mkroot.addPath nodes q comps).1.length := by
  induction comps generalizing nodes q with
  | nil => exact ⟨h, hq⟩
  | cons comp rest ih =>
    unfold Mkroot.addPath
    split
    · rename_i q2 hwalk
      exact ih h (mem_entries.mp (walk_some hwalk).1).1
    · rename_i hwalk
      exact ih (h.append hq hwalk) (by simp)

theorem Grown.addLine (h : Grown nodes) (line : List Char × Bool) : Grown (addLine nodes line) := by
  unfold Mkroot.addLine
  split
  · rename_i comp rest _
    obtain ⟨hgrown, hlt⟩ := h.addPath h.length_pos (comp :: rest)
    dsimp only
    split
    · exact hgrown.isdir hlt
    · exact hgrown
  · exact h

theorem Grown.addLines (h : Grown nodes) (lines : List (List Char × Bool)) :
    Grown (lines.foldl Mkroot.addLine nodes) := by
  induction lines generalizing nodes with
  | nil => exact h
  | cons line rest ih => exact ih (h.addLine line)

theorem tree_grown (conf : List (List Char × Bool)) : Grown (tree conf) := by
  have hroot : Grown [⟨[], 0, true⟩] := by
    refine ⟨rfl, fun q hq hpos => ?_, fun q hq hpos q2 hq2 hpos2 _ _ => ?_⟩ <;>
      simp at hq <;> omega
  exact hroot.addLines _

end Mkroot

/-- The tree of a configuration that leads through no file and leaves no name empty. -/
def RootTree.ofConf (conf : List (List Char × Bool))
    (hup : ∀ q, q < (tree conf).length → 1 ≤ q →
      (node (tree conf) (node (tree conf) q).dotdot).isdir = true)
    (hnamed : ∀ q, q < (tree conf).length → 1 ≤ q → (node (tree conf) q).name ≠ []) :
    RootTree where
  nodes := tree conf
  root := (tree_grown conf).root
  up q hq hpos := ⟨(tree_grown conf).before q hq hpos, hup q hq hpos⟩
  named := hnamed
  unique := (tree_grown conf).unique

end Xmertl.Partikle
