import Mathlib.Data.List.Nodup
import Xmertl.Partikle.FileTable
import Xmertl.Partikle.RootTree

/-!
# What `rootopen` finds

The walk looks each name up in the whole of `roottab` and remembers the last directory it
passed, where the tree would have it look in the directory it has come to.
-/

namespace Xmertl.Partikle

open Mkroot

-- ---------------------------------------------------------------------------
-- The order of the tables
-- ---------------------------------------------------------------------------

namespace RootTree

variable {T : RootTree} {q q2 v : Nat} {c : List Char} {b : Build}

theorem length_pos (T : RootTree) : 0 < T.nodes.length := by
  by_contra h
  have hroot := T.root
  rw [List.getElem?_eq_none (by omega)] at hroot
  cases hroot

theorem node_zero (T : RootTree) : node T.nodes 0 = ⟨[], 0, true⟩ := by
  rw [node, List.getD_eq_getElem?_getD, T.root]
  rfl

theorem mem_unsort : q ∈ unsort T.nodes ↔ q < T.nodes.length := by
  unfold unsort
  rw [List.mem_cons, List.mem_flatMap]
  constructor
  · rintro (rfl | ⟨d, -, hq⟩)
    · exact T.length_pos
    · split at hq
      · exact (mem_entries.mp hq).1
      · cases hq
  · intro hq
    by_cases hzero : q = 0
    · exact .inl hzero
    · obtain ⟨hup, hdir⟩ := T.up q hq (by omega)
      refine .inr ⟨(node T.nodes q).dotdot, List.mem_range.mpr (by omega), ?_⟩
      rw [if_pos hdir]
      exact mem_entries.mpr ⟨hq, by omega, rfl⟩

theorem mem_children {nodes : List RootNode} {d : Nat}
    (h : q ∈ if (node nodes d).isdir then entries nodes d else []) :
    1 ≤ q ∧ (node nodes q).dotdot = d := by
  split at h
  · exact (mem_entries.mp h).2
  · cases h

theorem unsort_nodup (T : RootTree) : (unsort T.nodes).Nodup := by
  refine List.nodup_cons.mpr ⟨fun hmem => ?_, List.nodup_flatMap.mpr ⟨fun d _ => ?_, ?_⟩⟩
  · obtain ⟨d, -, hq⟩ := List.mem_flatMap.mp hmem
    exact absurd (mem_children hq).1 (by decide)
  · split
    · exact List.nodup_range.filter _
    · exact List.nodup_nil
  · refine List.Pairwise.imp ?_ List.nodup_range
    intro d d' hne q hq hq'
    exact hne ((mem_children hq).2.symm.trans (mem_children hq').2)

theorem unsort_length (T : RootTree) : (unsort T.nodes).length = T.nodes.length := by
  have hperm : (unsort T.nodes).Perm (List.range T.nodes.length) :=
    (List.perm_ext_iff_of_nodup T.unsort_nodup List.nodup_range).mpr fun q => by
      rw [mem_unsort, List.mem_range]
  rw [hperm.length_eq, List.length_range]

theorem roottab_length (T : RootTree) : (roottab T.nodes).length = T.nodes.length := by
  rw [roottab, List.length_mapIdx, T.unsort_length]

theorem sort_lt (h : v < T.nodes.length) : sort T.nodes v < T.nodes.length := by
  rw [← T.unsort_length]
  exact List.idxOf_lt_length_iff.mpr (mem_unsort.mpr h)

theorem unsort_sort (h : v < T.nodes.length) :
    (unsort T.nodes)[sort T.nodes v]? = some v := by
  have hlt := List.idxOf_lt_length_iff.mpr (mem_unsort.mpr h)
  rw [sort, List.getElem?_eq_getElem hlt, List.getElem_idxOf hlt]

theorem sort_inj (h : q < T.nodes.length) (h2 : q2 < T.nodes.length)
    (heq : sort T.nodes q = sort T.nodes q2) : q = q2 := by
  have hq := unsort_sort h
  rw [heq, unsort_sort h2] at hq
  exact (Option.some.inj hq).symm

theorem roottab_sort (h : v < T.nodes.length) : (roottab T.nodes)[sort T.nodes v]? =
    some ⟨(T.name v).take knamelen, T.qid v, sort T.nodes (T.dotdot v),
      List.length_take_le ..⟩ := by
  rw [roottab, List.getElem?_mapIdx, unsort_sort h]
  rfl

theorem sort_zero (T : RootTree) : sort T.nodes 0 = 0 := List.idxOf_cons_self

-- ---------------------------------------------------------------------------
-- The search for one name
-- ---------------------------------------------------------------------------

/-- `rootscan` over the nodes: the first with the name, and the last directory passed. -/
def scan (T : RootTree) (b : Build) (c : List Char) : List Nat → Nat → Option Nat × Nat
  | [], d => (none, d)
  | q :: rest, d =>
    if c = T.text b q then (some q, d) else T.scan b c rest (if T.isdir q then q else d)

/-- The entry of a table for node `q`. -/
def entry (T : RootTree) (oq q : Nat) : Rootfile :=
  ⟨(T.name q).take knamelen, Mkroot.qid T.nodes oq q, sort T.nodes (T.dotdot q),
    List.length_take_le ..⟩

theorem text_entry (T : RootTree) (b : Build) (q : Nat) :
    (T.build b).text (T.entry (sort T.nodes q) q) = T.text b q := by
  have hlen : (T.entry (sort T.nodes q) q).name.length < knamelen ↔
      (T.name q).length < knamelen := by
    rw [entry, List.length_take]
    omega
  rw [Build.text, text]
  by_cases h : (T.name q).length < knamelen
  · rw [if_pos (hlen.mpr h), if_pos h]
    exact List.take_of_length_le (Nat.le_of_lt h)
  · rw [if_neg (mt hlen.mp h), if_neg h]
    rfl

theorem entry_type (T : RootTree) (oq q : Nat) :
    (T.entry oq q).qid.type &&& 0x80 ≠ 0 ↔ T.isdir q = true := by
  show (if T.isdir q = true then 0x80 else 0) &&& 0x80 ≠ 0 ↔ _
  cases T.isdir q <;> decide

theorem sort_append {pre rest : List Nat} (h : unsort T.nodes = pre ++ q :: rest) :
    sort T.nodes q = pre.length := by
  have hnodup := T.unsort_nodup
  rw [h] at hnodup
  have hnot : q ∉ pre := fun hmem =>
    (List.nodup_append.mp hnodup).2.2 q hmem q List.mem_cons_self rfl
  rw [sort, h, List.idxOf_append_of_notMem hnot, List.idxOf_cons_self, Nat.add_zero]

theorem rootscan_scan (c : List Char) (pre l : List Nat) (h : unsort T.nodes = pre ++ l) (d : Nat) :
    rootscan (T.build b) c (l.mapIdx fun i q => T.entry (pre.length + i) q) pre.length (sort T.nodes d) =
      (((T.scan b c l d).1.map (sort T.nodes)).getD T.nodes.length,
        sort T.nodes (T.scan b c l d).2) := by
  induction l generalizing pre d with
  | nil =>
    have hlen := T.unsort_length
    rw [h, List.append_nil] at hlen
    rw [← hlen]
    rfl
  | cons q rest ih =>
    have hsort := sort_append h
    rw [List.mapIdx_cons]
    unfold rootscan scan
    have htext : (T.build b).text (T.entry (pre.length + 0) q) = T.text b q :=
      (congrArg (fun oq => (T.build b).text (T.entry oq q)) hsort.symm).trans (T.text_entry b q)
    rw [htext]
    by_cases hc : c = T.text b q
    · rw [if_pos hc, if_pos hc, ← hsort]
      rfl
    · rw [if_neg hc, if_neg hc]
      have hnext : unsort T.nodes = (pre ++ [q]) ++ rest := by rw [h, List.append_assoc]; rfl
      have hrest := ih (pre ++ [q]) hnext (if T.isdir q then q else d)
      rw [List.length_append, List.length_singleton] at hrest
      have hpassed : (if (T.entry (pre.length + 0) q).qid.type &&& 0x80 ≠ 0 then pre.length
          else sort T.nodes d) = sort T.nodes (if T.isdir q then q else d) := by
        by_cases hdir : T.isdir q = true
        · rw [if_pos ((T.entry_type _ q).mpr hdir), if_pos hdir, hsort]
        · rw [if_neg fun h => hdir ((T.entry_type _ q).mp h), if_neg hdir]
      rw [hpassed, ← hrest]
      congr 2
      funext i
      rw [Nat.add_assoc, Nat.add_comm 1 i]

theorem scan_fst (T : RootTree) (b : Build) (c : List Char) (l : List Nat) (d : Nat) :
    (T.scan b c l d).1 = l.find? fun q => T.text b q = c := by
  induction l generalizing d with
  | nil => rfl
  | cons q rest ih =>
    unfold scan
    rw [List.find?_cons]
    by_cases hc : c = T.text b q
    · simp [hc]
    · rw [if_neg hc, ih, decide_eq_false fun h => hc h.symm]

theorem scan_snd {l : List Nat} {d : Nat} (h : (T.scan b c l d).1 = some v) :
    (T.scan b c l d).2 = ((l.takeWhile (· ≠ v)).filter T.isdir).getLast?.getD d := by
  induction l generalizing d with
  | nil => cases h
  | cons q rest ih =>
    unfold scan at h ⊢
    by_cases hc : c = T.text b q
    · rw [if_pos hc] at h ⊢
      rw [Option.some.inj h, List.takeWhile_cons_of_neg (by simp)]
      rfl
    · rw [if_neg hc] at h ⊢
      have hne : q ≠ v := by
        rintro rfl
        rw [scan_fst] at h
        exact hc (by simpa using List.find?_some h : T.text b q = c).symm
      rw [ih h, List.takeWhile_cons_of_pos (by simpa using hne), List.filter_cons]
      cases T.isdir q with
      | true => simp [List.getLast?_cons]
      | false => rfl

theorem first_lt (h : T.first b c = some v) : v < T.nodes.length :=
  mem_unsort.mp (List.mem_of_find?_eq_some h)

theorem first_text (h : T.first b c = some v) : T.text b v = c := by
  simpa using List.find?_some h

theorem text_zero (T : RootTree) (b : Build) : T.text b 0 = [] := by
  have hname : T.name 0 = [] := congrArg RootNode.name T.node_zero
  rw [text, hname]
  rfl

theorem first_nil (T : RootTree) (b : Build) : T.first b [] = some 0 := by
  unfold first unsort
  rw [List.find?_cons, decide_eq_true (T.text_zero b)]

/-- The whole table: nothing is passed before the root, and something before the others. -/
theorem scan_unsort (h : T.first b c = some v) (d : Nat) :
    T.scan b c (unsort T.nodes) d = (some v, if v = 0 then d else T.lastDir v) := by
  have hfst : (T.scan b c (unsort T.nodes) d).1 = some v := (T.scan_fst b c _ d).trans h
  refine Prod.ext hfst ?_
  rw [scan_snd hfst]
  by_cases hv : v = 0
  · rw [if_pos hv, hv]
    unfold unsort
    rw [List.takeWhile_cons_of_neg (by simp)]
    rfl
  · have hdir : T.isdir 0 = true := congrArg RootNode.isdir T.node_zero
    rw [if_neg hv]
    unfold lastDir unsort
    rw [List.takeWhile_cons_of_pos (by simpa using Ne.symm hv), List.filter_cons, if_pos hdir]
    simp [List.getLast?_cons]

theorem rootscan_eq (T : RootTree) (b : Build) (c : List Char) (d : Nat) :
    rootscan (T.build b) c (T.build b).roottab 0 (sort T.nodes d) = match T.first b c with
      | some v => (sort T.nodes v, sort T.nodes (if v = 0 then d else T.lastDir v))
      | none => (T.nodes.length, sort T.nodes (T.scan b c (unsort T.nodes) d).2) := by
  have hscan := rootscan_scan (b := b) c [] (unsort T.nodes) rfl d
  simp only [List.length_nil, Nat.zero_add] at hscan
  rw [show (T.build b).roottab = (unsort T.nodes).mapIdx T.entry from rfl, hscan]
  cases h : T.first b c with
  | some v => rw [scan_unsort h]; rfl
  | none =>
    rw [show (T.scan b c (unsort T.nodes) d).1 = none from (T.scan_fst b c _ d).trans h]
    rfl

theorem lastDir_lt (T : RootTree) (v : Nat) : T.lastDir v < T.nodes.length := by
  unfold lastDir
  cases h : (((unsort T.nodes).takeWhile (· ≠ v)).filter T.isdir).getLast? with
  | none => exact T.length_pos
  | some d =>
    have hmem := List.mem_of_mem_filter (List.mem_of_getLast? h)
    exact mem_unsort.mp ((List.takeWhile_sublist _).subset hmem)

theorem dotdot_lt (h : v < T.nodes.length) : T.dotdot v < T.nodes.length := by
  by_cases hv : v = 0
  · have hroot : T.dotdot 0 = 0 := congrArg RootNode.dotdot T.node_zero
    rw [hv, hroot]
    exact T.length_pos
  · exact Nat.lt_trans (T.up v h (by omega)).1 h

theorem first_ne_zero (h : T.first b c = some v) (hc : c ≠ []) : v ≠ 0 := by
  rintro rfl
  exact hc ((first_text h).symm.trans (T.text_zero b))

-- ---------------------------------------------------------------------------
-- The walk
-- ---------------------------------------------------------------------------

variable {names : List (List Char)}

theorem rootwalk_none (h : ∃ c ∈ names, T.first b c = none) (j d : Nat) :
    rootwalk (T.build b) names j (sort T.nodes d) = none := by
  induction names generalizing j d with
  | nil =>
    obtain ⟨c, hc, -⟩ := h
    cases hc
  | cons c rest ih =>
    unfold rootwalk
    rw [rootscan_eq, show (T.build b).roottab.length = T.nodes.length from T.roottab_length]
    cases hfirst : T.first b c with
    | none => simp
    | some w =>
      have hw := sort_lt (first_lt hfirst)
      obtain ⟨c', hc', hnone⟩ := h
      have hrest : c' ∈ rest := by
        refine List.mem_of_ne_of_mem ?_ hc'
        rintro rfl
        rw [hfirst] at hnone
        cases hnone
      dsimp only
      rw [if_neg (by omega)]
      exact ih ⟨c', hrest, hnone⟩ _ _

theorem first_last_cons {w : Nat} (hw : T.first b c = some w)
    (h : ∀ c ∈ names, ∃ w, T.first b c = some w) :
    (c :: names).getLast?.bind (T.first b) = some ((names.getLast?.bind (T.first b)).getD w) := by
  rw [List.getLast?_cons]
  cases hlast : names.getLast? with
  | none => exact hw
  | some l =>
    obtain ⟨u, hu⟩ := h l (List.mem_of_getLast? hlast)
    show T.first b l = some ((T.first b l).getD w)
    rw [hu]
    rfl

/-- The node the walk ends at is the first with the last name; the directory is the last one
before the first node with the last name that is not empty. -/
theorem rootwalk_some (h : ∀ c ∈ names, ∃ w, T.first b c = some w) (v d : Nat) :
    rootwalk (T.build b) names (sort T.nodes v) (sort T.nodes d) =
      some (sort T.nodes ((names.getLast?.bind (T.first b)).getD v),
        sort T.nodes ((((names.filter (· ≠ [])).getLast?.bind (T.first b)).map T.lastDir).getD d)) := by
  induction names generalizing v d with
  | nil => rfl
  | cons c rest ih =>
    obtain ⟨⟨w, hw⟩, hrest⟩ := List.forall_mem_cons.mp h
    have hlt := sort_lt (first_lt hw)
    unfold rootwalk
    rw [rootscan_eq, show (T.build b).roottab.length = T.nodes.length from T.roottab_length, hw]
    dsimp only
    rw [if_neg (by omega), ih hrest, first_last_cons hw hrest, List.filter_cons]
    by_cases hc : c = []
    · have hzero : w = 0 := by
        rw [hc, T.first_nil b] at hw
        exact (Option.some.inj hw).symm
      rw [if_pos hzero, if_neg (by simpa using hc)]
      rfl
    · have hnamed := fun c hmem => hrest c (List.mem_of_mem_filter (p := (· ≠ [])) hmem)
      rw [if_neg (first_ne_zero hw hc), if_pos (by simpa using hc), first_last_cons hw hnamed]
      cases (rest.filter (· ≠ [])).getLast?.bind (T.first b) <;> rfl

-- ---------------------------------------------------------------------------
-- The names of a path
-- ---------------------------------------------------------------------------

theorem slice_spec (path : List Char) :
    slice path ≠ [] ∧ components path = (slice path).filter (· ≠ []) := by
  have hsplit : path.splitOn '/' = path.splitOnP (· == '/') := rfl
  unfold slice components
  cases path with
  | nil => exact ⟨by decide, rfl⟩
  | cons a rest =>
    by_cases ha : a = '/'
    · have hcons : (a :: rest).splitOn '/' = [] :: rest.splitOnP (· == '/') := by
        rw [hsplit, List.splitOnP_cons_eq_if_modifyHead, if_pos (by simpa using ha)]
      rw [if_pos (by simpa using ha), hcons]
      exact ⟨List.splitOnP_ne_nil _ _, rfl⟩
    · rw [if_neg (by simpa using ha)]
      exact ⟨List.splitOnP_ne_nil _ _, rfl⟩

theorem slice_last (path : List Char) :
    (slice path).getLast? = some [] ∨ (slice path).getLast? = (components path).getLast? := by
  obtain ⟨hne, hcomps⟩ := slice_spec path
  rw [hcomps]
  obtain ⟨l, c, hl⟩ := (List.eq_nil_or_concat (slice path)).resolve_left hne
  rw [hl, List.concat_eq_append, List.getLast?_concat, List.filter_append]
  by_cases hc : c = []
  · exact .inl (congrArg some hc)
  · refine .inr ?_
    rw [List.filter_cons_of_pos (by simpa using hc)]
    exact List.getLast?_concat.symm

def ends (T : RootTree) (b : Build) (path : List Char) : Nat := ((slice path).getLast?.bind (T.first b)).getD 0

def passes (T : RootTree) (b : Build) (path : List Char) : Nat :=
  (((components path).getLast?.bind (T.first b)).map T.lastDir).getD 0

theorem ends_lt (T : RootTree) (b : Build) (path : List Char) : T.ends b path < T.nodes.length := by
  unfold ends
  cases h : (slice path).getLast?.bind (T.first b) with
  | none => exact T.length_pos
  | some v =>
    obtain ⟨c, -, hc⟩ := Option.bind_eq_some_iff.mp h
    exact first_lt hc

theorem passes_lt (T : RootTree) (b : Build) (path : List Char) : T.passes b path < T.nodes.length := by
  unfold passes
  cases (components path).getLast?.bind (T.first b) with
  | none => exact T.length_pos
  | some v => exact T.lastDir_lt v

theorem rootqid_none {path : List Char}
    (h : ∃ c ∈ components path, T.first b c = none) :
    rootqid (T.build b) path = .error (some .enoent) := by
  obtain ⟨c, hc, hnone⟩ := h
  rw [(slice_spec path).2] at hc
  have hwalk := rootwalk_none ⟨c, List.mem_of_mem_filter hc, hnone⟩ 0 0
  rw [sort_zero] at hwalk
  unfold rootqid
  rw [hwalk]

theorem rootqid_some {path : List Char}
    (h : ∀ c ∈ components path, ∃ w, T.first b c = some w) :
    rootqid (T.build b) path =
      if T.dotdot (T.ends b path) = T.passes b path then .ok (T.qid (T.ends b path))
      else .error (some .enoent) := by
  have hcomps := (slice_spec path).2
  have hall : ∀ c ∈ slice path, ∃ w, T.first b c = some w := by
    intro c hc
    by_cases hnil : c = []
    · exact ⟨0, hnil ▸ T.first_nil b⟩
    · exact h c (hcomps ▸ List.mem_filter.mpr ⟨hc, by simpa using hnil⟩)
  have hwalk := rootwalk_some hall 0 0
  rw [sort_zero, ← hcomps] at hwalk
  change _ = some (sort T.nodes (T.ends b path), sort T.nodes (T.passes b path)) at hwalk
  unfold rootqid
  rw [hwalk]
  dsimp only
  rw [show (T.build b).roottab = roottab T.nodes from rfl, roottab_sort (T.ends_lt b path)]
  dsimp only
  by_cases heq : T.dotdot (T.ends b path) = T.passes b path
  · rw [if_pos heq, heq, if_neg (not_not.mpr rfl)]
  · rw [if_neg heq, if_pos fun hsort =>
      heq (sort_inj (dotdot_lt (T.ends_lt b path)) (T.passes_lt b path) hsort)]

-- ---------------------------------------------------------------------------
-- The tree
-- ---------------------------------------------------------------------------

theorem resolve_some (h : T.resolve q names = some v) :
    (names = [] → v = q) ∧ (names ≠ [] → v < T.nodes.length ∧ 1 ≤ v) := by
  induction names generalizing q with
  | nil => exact ⟨fun _ => (Option.some.inj h).symm, fun hne => absurd rfl hne⟩
  | cons c rest ih =>
    unfold resolve at h
    split at h
    · rename_i q2 hwalk
      obtain ⟨hlt, hpos, -⟩ := mem_entries.mp (walk_some hwalk).1
      obtain ⟨hnil, hlast⟩ := ih h
      refine ⟨nofun, fun _ => ?_⟩
      by_cases hrest : rest = []
      · rw [hnil hrest]
        exact ⟨hlt, hpos⟩
      · exact hlast hrest
    · cases h

-- ---------------------------------------------------------------------------
-- Opening
-- ---------------------------------------------------------------------------

theorem rootopen_cases {b : Build} {s : Fs} {path : List Char} (h : rootOverruns path = false) :
    (s.rootopen b path).1.intact = s.intact ∧
    ((∃ qid, rootqid b path = .ok qid ∧ s.newfd < maxFiles ∧
        (s.rootopen b path).2 = .ok s.newfd ∧
        ((s.rootopen b path).1.files s.newfd).qid = qid ∧
        ((s.rootopen b path).1.files s.newfd).type = b.devno '/') ∨
      ((∀ qid, rootqid b path = .ok qid → maxFiles ≤ s.newfd) ∧
        ∀ fd, (s.rootopen b path).2 ≠ .ok fd)) := by
  unfold Fs.rootopen Fs.driver
  rw [h]
  cases hqid : rootqid b path with
  | error e => exact ⟨rfl, .inr ⟨nofun, nofun⟩⟩
  | ok qid =>
    dsimp only
    by_cases hfull : s.newfd ≥ maxFiles
    · rw [if_pos hfull]
      exact ⟨rfl, .inr ⟨fun _ _ => hfull, nofun⟩⟩
    · rw [if_neg hfull]
      refine ⟨rfl, .inl ⟨qid, rfl, by omega, rfl, ?_⟩⟩
      show (Function.update s.files s.newfd _ s.newfd).qid = qid ∧
        (Function.update s.files s.newfd _ s.newfd).type = b.devno '/'
      rw [Function.update_self]
      exact ⟨rfl, rfl⟩

theorem right_iff {b : Build} {s : Fs} {path : List Char} (h : rootOverruns path = false)
    (hs : s.intact = true) : T.Right b s path ↔
      (∀ v, T.Names path v → s.newfd < maxFiles ∧ rootqid (T.build b) path = .ok (T.qid v)) ∧
      ((∀ v, ¬T.Names path v) → ∀ qid, rootqid (T.build b) path = .ok qid →
        maxFiles ≤ s.newfd) := by
  obtain ⟨hintact, ⟨qid, hqid, hfree, hok, hfile, htype⟩ | ⟨hnone, hfail⟩⟩ :=
    rootopen_cases (b := T.build b) (s := s) h
  · constructor
    · intro hright
      obtain ⟨v, hv, hfound, -⟩ := hright.found _ hok
      rw [hfile] at hfound
      refine ⟨fun v' hv' => ⟨hfree, ?_⟩, fun hno => absurd hv (hno v)⟩
      rw [hqid, hfound, Option.some.inj (hv.symm.trans hv')]
    · rintro ⟨hnames, hno⟩
      refine ⟨hintact.trans hs, fun _ => ⟨_, hok⟩, fun fd hfd => ?_⟩
      by_cases hv : ∃ v, T.Names path v
      · obtain ⟨v, hv⟩ := hv
        rw [← Except.ok.inj (hok.symm.trans hfd), hfile]
        exact ⟨v, hv, Except.ok.inj (hqid.symm.trans (hnames v hv).2), htype⟩
      · exact absurd hfree (Nat.not_lt.mpr (hno (not_exists.mp hv) qid hqid))
  · constructor
    · intro hright
      refine ⟨fun v hv => ?_, fun _ => hnone⟩
      obtain ⟨fd, hfd⟩ := hright.opens ⟨v, hv⟩
      exact absurd hfd (hfail fd)
    · rintro ⟨hnames, -⟩
      refine ⟨hintact.trans hs, fun ⟨v, hv⟩ => ?_, fun fd hfd => absurd hfd (hfail fd)⟩
      obtain ⟨hfree, hqid⟩ := hnames v hv
      exact absurd hfree (Nat.not_lt.mpr (hnone _ hqid))

theorem qid_inj (h : q < T.nodes.length) (h2 : v < T.nodes.length) (heq : T.qid q = T.qid v) :
    q = v := sort_inj h h2 (congrArg Qid.path heq)

theorem ends_passes {path : List Char} {w : Nat} (hlast : (components path).getLast? = some c)
    (hw : T.first b c = some w) :
    T.ends b path = (if (slice path).getLast? = some c then w else 0) ∧
      T.passes b path = T.lastDir w := by
  constructor
  · unfold ends
    by_cases hc : (slice path).getLast? = some c
    · rw [if_pos hc, hc]
      exact congrArg (·.getD 0) hw
    · have hnil := (slice_last path).resolve_right fun h => hc (h.trans hlast)
      rw [if_neg hc, hnil]
      exact congrArg (·.getD 0) (T.first_nil b)
  · unfold passes
    rw [hlast]
    show ((T.first b c).map T.lastDir).getD 0 = T.lastDir w
    rw [hw]
    rfl

theorem dotdot_zero (T : RootTree) : T.dotdot 0 = 0 := congrArg RootNode.dotdot T.node_zero

theorem rootqid_names {path : List Char} (h : T.Names path v) :
    rootqid (T.build b) path = .ok (T.qid v) ↔ (∀ c ∈ components path, (T.first b c).isSome) ∧
      ∀ c, (components path).getLast? = some c →
        (slice path).getLast? = some c ∧ T.first b c = some v ∧ T.lastDir v = T.dotdot v := by
  by_cases hnone : ∃ c ∈ components path, T.first b c = none
  · rw [rootqid_none hnone]
    refine iff_of_false nofun fun hfinds => ?_
    obtain ⟨c, hc, hmissing⟩ := hnone
    exact absurd (hmissing ▸ hfinds.1 c hc) (by decide)
  have hall : ∀ c ∈ components path, ∃ w, T.first b c = some w := fun c hc =>
    Option.ne_none_iff_exists'.mp fun heq => hnone ⟨c, hc, heq⟩
  rw [iff_true_intro fun c hc => Option.isSome_iff_exists.mpr (hall c hc), true_and]
  obtain ⟨hnil, hnamed⟩ := resolve_some h
  rw [rootqid_some hall]
  cases hlast : (components path).getLast? with
  | none =>
    have hslice := (slice_last path).resolve_right fun heq =>
      (slice_spec path).1 (List.getLast?_eq_none_iff.mp (heq.trans hlast))
    have hends : T.ends b path = 0 := by
      unfold ends
      rw [hslice]
      exact congrArg (·.getD 0) (T.first_nil b)
    have hpasses : T.passes b path = 0 := by
      unfold passes
      rw [hlast]
      rfl
    rw [hends, hpasses, T.dotdot_zero, if_pos rfl, hnil (List.getLast?_eq_none_iff.mp hlast)]
    simp
  | some c =>
    obtain ⟨hlt, hpos⟩ := hnamed fun heq => by
      rw [heq] at hlast
      cases hlast
    obtain ⟨w, hw⟩ := hall c (List.mem_of_getLast? hlast)
    obtain ⟨hends, hpasses⟩ := ends_passes hlast hw
    rw [hends, hpasses]
    by_cases hc : (slice path).getLast? = some c
    · rw [if_pos hc]
      constructor
      · intro hok c' hc'
        split at hok
        · rename_i hdir
          have hwv := qid_inj (first_lt hw) hlt (Except.ok.inj hok)
          rw [← Option.some.inj hc', ← hwv]
          exact ⟨hc, hw, hdir.symm⟩
        · cases hok
      · intro hfinds
        obtain ⟨-, hfirst, hdir⟩ := hfinds c rfl
        rw [Option.some.inj (hw.symm.trans hfirst), if_pos hdir.symm]
    · rw [if_neg hc]
      constructor
      · intro hok
        split at hok
        · have hzero := qid_inj T.length_pos hlt (Except.ok.inj hok)
          omega
        · cases hok
      · exact fun hfinds => absurd (hfinds c rfl).1 hc

theorem rootqid_nameless {b : Build} {path : List Char}
    (h : T.resolve 0 (components path) = none) :
    (∀ qid, rootqid (T.build b) path ≠ .ok qid) ↔
      (∃ c ∈ components path, T.first b c = none) ∨
      ∃ c w, (components path).getLast? = some c ∧ T.first b c = some w ∧
        T.lastDir w ≠ if (slice path).getLast? = some c then T.dotdot w else 0 := by
  by_cases hnone : ∃ c ∈ components path, T.first b c = none
  · rw [rootqid_none hnone]
    exact ⟨fun _ => .inl hnone, fun _ => nofun⟩
  · have hall : ∀ c ∈ components path, ∃ w, T.first b c = some w := fun c hc =>
      Option.ne_none_iff_exists'.mp fun heq => hnone ⟨c, hc, heq⟩
    cases hlast : (components path).getLast? with
    | none =>
      rw [List.getLast?_eq_none_iff.mp hlast] at h
      cases h
    | some c =>
      obtain ⟨w, hw⟩ := hall c (List.mem_of_getLast? hlast)
      obtain ⟨hends, hpasses⟩ := ends_passes hlast hw
      have hdotdot : T.dotdot (T.ends b path) =
          if (slice path).getLast? = some c then T.dotdot w else 0 := by
        rw [hends]
        split
        · rfl
        · exact T.dotdot_zero
      rw [rootqid_some hall, hpasses, hdotdot]
      constructor
      · intro hno
        refine .inr ⟨c, w, rfl, hw, fun heq => ?_⟩
        rw [if_pos heq.symm] at hno
        exact hno _ rfl
      · rintro (hmissing | ⟨c', w', hc', hw', hne⟩) qid
        · exact absurd hmissing hnone
        · obtain rfl := Option.some.inj hc'
          obtain rfl := Option.some.inj (hw.symm.trans hw')
          rw [if_neg (Ne.symm hne)]
          nofun

end RootTree

-- ---------------------------------------------------------------------------
-- The root of `xm_i386`
-- ---------------------------------------------------------------------------

/-- The root's part of its configuration; the source of each directory is a directory. -/
def prtkcf : List (List Char × Bool) :=
  [("/dev".toList, true), ("/tmp".toList, true), ("/usr".toList, true),
    ("/usr/NOTES".toList, false)]

def prtkRoot : RootTree := .ofConf prtkcf (by decide +kernel) (by decide +kernel)

def noFiles : Fs := (FileTable.start fun _ => .reset).fs

end Xmertl.Partikle
