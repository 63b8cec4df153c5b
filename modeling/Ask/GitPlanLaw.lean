/-
  The plan of a git ingest partitions the tree.

  The discovery is a search for the topmost marked directories.  What it finds
  is skipped by the walk, so that a file lies below one repository, below one
  submodule, or is walked.
-/
import Ask.Lib.Topmost
import Ask.SandboxLaw

namespace Ask

open Lib Lib.OsStr

variable {Named : String → Prop} {host : Host Named} {root names names' : List String} {n : String}

/-! ## Entries of a directory -/

/-- An entry's path is the directory's, with the name pushed. -/
theorem joinPath_pathText (h : ∀ m ∈ names, ValidName m) (hn : ValidName n) :
    joinPath (pathText names) n = pathText (names ++ [n]) := by
  have hhead : n.toList.head? ≠ some '/' := fun hhead => hn.2.2.2 (List.mem_of_mem_head? hhead)
  rw [← String.toList_inj, toList_pathText (by simp), List.flatMap_append, joinPath, if_neg hhead]
  rcases List.eq_nil_or_concat' names with rfl | ⟨init, m, rfl⟩
  · simp [pathText, pathParts]
  · obtain ⟨hempty, -, -, hslash⟩ := h m (by simp)
    have hm : m.toList ≠ [] := fun hnil => hempty (by simpa using hnil)
    have hlast : (pathText (init ++ [m])).toList.getLast? = some (m.toList.getLast hm) := by
      rw [toList_pathText (by simp), List.flatMap_append, List.flatMap_singleton,
        List.getLast?_append_of_ne_nil _ (List.cons_ne_nil _ _), List.getLast?_cons,
        List.getLast?_eq_some_getLast hm]
      rfl
    have hne : m.toList.getLast hm ≠ '/' := fun heq => hslash (heq ▸ List.getLast_mem hm)
    rw [hlast, if_pos (by simpa using hne), String.toList_append, String.toList_append,
      toList_pathText (by simp)]
    simp

namespace Host

/-- What is there has valid names on its path. -/
theorem valid_of_node {found : Node String Bytes} (h : host.tree.node names = some found) :
    ∀ n ∈ names, ValidName n := by
  refine host.valid names ?_
  rw [h]
  exact Option.some_ne_none found

/-- What an entry of a directory is. -/
theorem symlinkMetadata_pathText (hdir : host.tree.node names = some .dir) (hn : ValidName n) :
    host.symlinkMetadata (pathText (names ++ [n])) = host.tree.node (names ++ [n]) := by
  have hreal : host.tree.Real names := .inl hdir
  have hvalid : ∀ m ∈ names ++ [n], ValidName m := by
    intro m hm
    rcases List.mem_append.1 hm with hm | hm
    · exact valid_of_node hdir m hm
    · rwa [List.mem_singleton.1 hm]
  have hhops : hops (pathText (names ++ [n])) = (.root :: .here :: names.map .name) ++ [.name n] := by
    rw [hops_pathText hvalid, if_neg (by simp), List.map_append]
    rfl
  unfold symlinkMetadata FileTree.lookup
  rw [if_neg pathText_ne, hhops, List.getLast?_concat, List.dropLast_concat]
  dsimp only
  rw [FileTree.resolve_names hreal, Option.bind_some]

/-! ## What the discovery reads -/

/-- The directory carries this marker. -/
def Marked (host : Host Named) (marker : RepoMarker) (names : List String) : Prop :=
  host.tree.node names = some .dir ∧ host.detectRepoMarker (pathText names) = .ok (some marker)

/-- A finite tree without an enclosing repository, of which all can be read. -/
structure Readable (host : Host Named) (root : List String) : Prop where
  dir : host.tree.node root = some .dir
  outermost : host.discoverEnclosingRepoRoot (pathText root) = .ok none
  marker : ∀ names, root <+: names → host.tree.node names = some .dir →
    ∃ marker, host.detectRepoMarker (pathText names) = .ok marker
  listed : ∀ names, root <+: names → host.tree.node names = some .dir →
    ∃ entries : List String, host.readDir (pathText names) = .ok (entries.map .ok) ∧ entries.Nodup ∧
      ∀ n, n ∈ entries ↔ host.tree.node (names ++ [n]) ≠ none
  finite : {names | root <+: names ∧ host.tree.node names = some .dir}.Finite

/-- The names of the directories right below, in the order of the listing. -/
def dirNames (host : Host Named) (names : List String) : List String :=
  match host.readDir (pathText names) with
  | .error _ => []
  | .ok entries => (entries.filterMap Except.toOption).filter fun n =>
      decide (host.tree.node (names ++ [n]) = some .dir)

/-- The marker of a directory, if it can be told. -/
def markerAt (host : Host Named) (names : List String) : Option RepoMarker :=
  (host.detectRepoMarker (pathText names)).toOption.join

/-- The directory is a repository or a submodule. -/
def isMarked (host : Host Named) (names : List String) : Bool := (host.markerAt names).isSome

variable (host) in
theorem dirNames_eq {entries : List String} (h : host.readDir (pathText names) = .ok (entries.map .ok)) :
    host.dirNames names = entries.filter fun n => decide (host.tree.node (names ++ [n]) = some .dir) := by
  unfold dirNames
  rw [h]
  dsimp only
  rw [List.filterMap_map]
  congr 1
  exact List.filterMap_some

theorem Readable.mem_dirNames (h : host.Readable root) (hroot : root <+: names)
    (hdir : host.tree.node names = some .dir) :
    n ∈ host.dirNames names ↔ host.tree.node (names ++ [n]) = some .dir := by
  obtain ⟨entries, hread, -, hmem⟩ := h.listed names hroot hdir
  rw [dirNames_eq host hread, List.mem_filter, hmem, decide_eq_true_iff]
  constructor
  · exact fun hn => hn.2
  · intro hn
    refine ⟨?_, hn⟩
    rw [hn]
    exact Option.some_ne_none _

theorem Readable.nodup_dirNames (h : host.Readable root) (hroot : root <+: names)
    (hdir : host.tree.node names = some .dir) : (host.dirNames names).Nodup := by
  obtain ⟨entries, hread, hnodup, -⟩ := h.listed names hroot hdir
  rw [dirNames_eq host hread]
  exact hnodup.filter _

/-- The tree of the listings has the directories at and below the root. -/
theorem Readable.below_iff (h : host.Readable root) :
    Below host.dirNames root names ↔ root <+: names ∧ host.tree.node names = some .dir := by
  constructor
  · intro hbelow
    induction hbelow with
    | refl => exact ⟨List.prefix_refl root, h.dir⟩
    | @child names n _ hn ih =>
      exact ⟨ih.1.trans (List.prefix_append _ _), (h.mem_dirNames ih.1 ih.2).1 hn⟩
  · rintro ⟨⟨below, rfl⟩, hdir⟩
    induction below using List.reverseRecOn with
    | nil =>
      rw [List.append_nil]
      exact .refl
    | append_singleton below n ih =>
      rw [← List.append_assoc] at hdir ⊢
      have hparent : host.tree.node (root ++ below) = some .dir :=
        host.tree.parent _ n (by rw [hdir]; exact Option.some_ne_none _)
      exact .child (ih hparent) ((h.mem_dirNames (List.prefix_append root below) hparent).2 hdir)

theorem markerAt_eq_some {marker : RepoMarker} : host.markerAt names = some marker ↔
    host.detectRepoMarker (pathText names) = .ok (some marker) := by
  unfold markerAt
  cases host.detectRepoMarker (pathText names) with
  | error e => simp [Except.toOption]
  | ok found => simp [Except.toOption]

/-! ## The discovery as a search -/

/-- The directories among the entries, as their paths. -/
theorem subdirs_pathText (hdir : host.tree.node names = some .dir) (entries : List String)
    (hentries : ∀ n ∈ entries, host.tree.node (names ++ [n]) ≠ none) :
    host.subdirs (pathText names) (entries.map .ok) =
      .ok ((entries.filter fun n => decide (host.tree.node (names ++ [n]) = some .dir)).map fun n =>
        pathText (names ++ [n])) := by
  induction entries with
  | nil => rfl
  | cons n entries ih =>
    have hnode : host.tree.node (names ++ [n]) ≠ none := hentries n List.mem_cons_self
    have hvalid : ∀ m ∈ names ++ [n], ValidName m := host.valid _ hnode
    have hn : ValidName n := hvalid n (by simp)
    rw [List.map_cons, subdirs, joinPath_pathText (fun m hm => hvalid m (List.mem_append_left _ hm)) hn,
      symlinkMetadata_pathText hdir hn, ih fun m hm => hentries m (List.mem_cons_of_mem n hm)]
    cases hfound : host.tree.node (names ++ [n]) with
    | none => exact absurd hfound hnode
    | some found =>
      cases found with
      | dir =>
        rw [List.filter_cons_of_pos (by simp [hfound])]
        rfl
      | file content => rw [List.filter_cons_of_neg (by simp [hfound])]
      | link target => rw [List.filter_cons_of_neg (by simp [hfound])]

/-- The paths of the directories with this marker. -/
def withMarker (host : Host Named) (marker : RepoMarker) (found : List (List String)) : List String :=
  (found.filter fun names => decide (host.markerAt names = some marker)).map pathText

theorem withMarker_append {marker : RepoMarker} {found : List (List String)} :
    host.withMarker marker (found ++ [names]) = host.withMarker marker found ++
      if host.markerAt names = some marker then [pathText names] else [] := by
  unfold withMarker
  rw [List.filter_append, List.map_append, List.filter_singleton]
  split_ifs <;> simp_all

/-- The loop computes the search, the found directories apart by their markers. -/
theorem Readable.discoverRepos_eq (h : host.Readable root) (fuel : ℕ) (stack found : List (List String))
    (hstack : ∀ names ∈ stack, Below host.dirNames root names) :
    host.discoverRepos fuel (stack.map pathText) (host.withMarker .repo found)
        (host.withMarker .submodule found) =
      (topmostSearch host.dirNames host.isMarked fuel stack found).map fun found =>
        .ok (host.withMarker .repo found, host.withMarker .submodule found) := by
  induction fuel generalizing stack found with
  | zero =>
    cases stack with
    | nil => rfl
    | cons names stack => rfl
  | succ fuel ih =>
    cases stack with
    | nil => rfl
    | cons names stack =>
      have hbelow : Below host.dirNames root names := hstack names List.mem_cons_self
      have hrest : ∀ q ∈ stack, Below host.dirNames root q := fun q hq => hstack q (List.mem_cons_of_mem names hq)
      obtain ⟨hroot, hdir⟩ := h.below_iff.1 hbelow
      obtain ⟨marker, hmarker⟩ := h.marker names hroot hdir
      have hat : host.markerAt names = marker := by
        unfold markerAt
        rw [hmarker]
        rfl
      rw [List.map_cons, discoverRepos, hmarker, topmostSearch, isMarked, hat]
      cases marker with
      | some marker =>
        have hgo := ih stack (found ++ [names]) hrest
        rw [withMarker_append, withMarker_append, hat] at hgo
        cases marker with
        | repo => simpa using hgo
        | submodule => simpa using hgo
      | none =>
        obtain ⟨entries, hread, -, hmem⟩ := h.listed names hroot hdir
        have hgo := ih ((children host.dirNames names).reverse ++ stack) found ?_
        · rw [hread]
          dsimp only
          rw [subdirs_pathText hdir entries fun n hn => (hmem n).1 hn]
          simpa [children, dirNames_eq host hread, List.map_reverse, Function.comp_def] using hgo
        · intro q hq
          rcases List.mem_append.1 hq with hq | hq
          · obtain ⟨n, hn, rfl⟩ := List.mem_map.1 (List.mem_reverse.1 hq)
            exact .child hbelow hn
          · exact hrest q hq

/-! ## Topmost markers -/

/-- The directory carries this marker, and none above it, from the root on, is marked. -/
structure TopMarked (host : Host Named) (root : List String) (marker : RepoMarker) (names : List String) :
    Prop where
  below : root <+: names
  marked : host.Marked marker names
  clear : ∀ q, root <+: q → q <+: names → q ≠ names → ∀ other, ¬host.Marked other q

variable {marker marker' : RepoMarker} {p q t t' r : List String} {found : List (List String)}

theorem isMarked_iff (hdir : host.tree.node q = some .dir) :
    host.isMarked q = true ↔ ∃ marker, host.Marked marker q := by
  unfold isMarked Marked
  rw [Option.isSome_iff_exists]
  simp only [markerAt_eq_some, hdir, true_and]

theorem dir_of_above (hdir : host.tree.node names = some .dir) (hq : q <+: names) :
    host.tree.node q = some .dir := by
  obtain ⟨below, rfl⟩ := hq
  by_cases hnil : below = []
  · rwa [hnil, List.append_nil] at hdir
  · exact FileTree.dir_of_append hnil (by rw [hdir]; exact Option.some_ne_none _)

theorem Readable.topMarked_iff (h : host.Readable root) : host.TopMarked root marker names ↔
    Topmost host.dirNames host.isMarked root names ∧ host.markerAt names = some marker := by
  constructor
  · rintro ⟨hbelow, hmarked, hclear⟩
    refine ⟨⟨h.below_iff.2 ⟨hbelow, hmarked.1⟩, (isMarked_iff hmarked.1).2 ⟨marker, hmarked⟩, ?_⟩,
      markerAt_eq_some.2 hmarked.2⟩
    intro q hroot hq hne
    rw [Bool.eq_false_iff, ne_eq, isMarked_iff (dir_of_above hmarked.1 hq)]
    rintro ⟨other, hother⟩
    exact hclear q hroot hq hne other hother
  · rintro ⟨⟨hbelow, -, hclear⟩, hat⟩
    obtain ⟨hroot, hdir⟩ := h.below_iff.1 hbelow
    refine ⟨hroot, ⟨hdir, markerAt_eq_some.1 hat⟩, ?_⟩
    intro q hrootq hq hne other hother
    have hunmarked := hclear q hrootq hq hne
    rw [(isMarked_iff hother.1).2 ⟨other, hother⟩] at hunmarked
    cases hunmarked

theorem TopMarked.unique (ht : host.TopMarked root marker t) (ht' : host.TopMarked root marker' t')
    (hle : t <+: p) (hle' : t' <+: p) : t = t' := by
  by_contra hne
  rcases List.prefix_or_prefix_of_prefix hle hle' with hpre | hpre
  · exact ht'.clear t ht.below hpre hne marker ht.marked
  · exact ht.clear t' ht'.below hpre (Ne.symm hne) marker' ht'.marked

theorem TopMarked.marker_unique (ht : host.TopMarked root marker t) (ht' : host.TopMarked root marker' t) :
    marker = marker' := by
  have heq := ht.marked.2.symm.trans ht'.marked.2
  exact Option.some.inj (Except.ok.inj heq)

/-- At a marked directory or above it is a topmost one. -/
theorem Readable.exists_topMarked (h : host.Readable root) (hroot : root <+: q) (hq : host.Marked marker q) :
    ∃ marker t, host.TopMarked root marker t ∧ t <+: q := by
  obtain ⟨t, ht, hle⟩ := (h.below_iff.2 ⟨hroot, hq.1⟩).exists_topmost
    ⟨q, hroot, List.prefix_refl q, (isMarked_iff hq.1).2 ⟨marker, hq⟩⟩
  obtain ⟨other, hother⟩ := Option.isSome_iff_exists.1 ht.marked
  exact ⟨other, t, h.topMarked_iff.2 ⟨ht, hother⟩, hle⟩

theorem TopMarked.valid (ht : host.TopMarked root marker t) : ∀ n ∈ t, ValidName n :=
  valid_of_node ht.marked.1

/-! ## The plan -/

/-- The walk visits the entry: it and what is above it, below the root, is admitted. -/
def Walked (root : List String) (plan : GitIngestPlan) (names : List String) : Prop :=
  ∀ q, root <+: q → q ≠ root → q <+: names →
    shouldVisitWalkEntry (pathText q) (pathText root) plan.skippedWalkRoots = true

/-- A repository of the plan has the path below it. -/
def Covers (plan : GitIngestPlan) (names : List String) (repoRoot : String) : Prop :=
  repoRoot ∈ plan.repoRoots ∧ pathStartsWith (pathText names) repoRoot = true

/-- The path lies below a topmost submodule. -/
def InSubmodule (host : Host Named) (root names : List String) : Prop :=
  ∃ s, host.TopMarked root .submodule s ∧ s <+: names

/-- A plan gives every file below the root to one repository, to a submodule, or to the walk. -/
structure Partitions (host : Host Named) (root : List String) (plan : GitIngestPlan) : Prop where
  fallback : plan.fallbackRoot = some (pathText root)
  nodup : plan.repoRoots.Nodup
  repoRoots : ∀ repoRoot, repoRoot ∈ plan.repoRoots ↔
    ∃ t, host.TopMarked root .repo t ∧ repoRoot = pathText t
  skipped : ∀ skippedRoot, skippedRoot ∈ plan.skippedWalkRoots ↔
    ∃ marker t, host.TopMarked root marker t ∧ skippedRoot = pathText t
  /-- No repository lies inside another. -/
  apart : ∀ repoRoot ∈ plan.repoRoots, ∀ other ∈ plan.repoRoots,
    pathStartsWith repoRoot other = true → repoRoot = other
  /-- No repository lies inside a skipped submodule. -/
  outside : ∀ repoRoot ∈ plan.repoRoots, ∀ s, host.TopMarked root .submodule s →
    pathStartsWith repoRoot (pathText s) = false
  walked : ∀ names, root <+: names → names ≠ root → (∀ n ∈ names, ValidName n) →
    (Walked root plan names ↔ ∀ q, root <+: q → q <+: names → ∀ marker, ¬host.Marked marker q)
  files : ∀ names content, root <+: names → host.tree.node names = some (.file content) →
    (∃! repoRoot, Covers plan names repoRoot) ∧ ¬host.InSubmodule root names ∧ ¬Walked root plan names ∨
    (¬∃ repoRoot, Covers plan names repoRoot) ∧ host.InSubmodule root names ∧ ¬Walked root plan names ∨
    (¬∃ repoRoot, Covers plan names repoRoot) ∧ ¬host.InSubmodule root names ∧ Walked root plan names

theorem Readable.mem_withMarker (h : host.Readable root)
    (hfound : ∀ p, p ∈ found ↔ Topmost host.dirNames host.isMarked root p) {text : String} :
    text ∈ host.withMarker marker found ↔ ∃ t, host.TopMarked root marker t ∧ text = pathText t := by
  unfold withMarker
  rw [List.mem_map]
  simp only [List.mem_filter, hfound, decide_eq_true_iff, ← h.topMarked_iff, eq_comm (b := text)]

theorem Readable.nodup_withMarker (h : host.Readable root)
    (hfound : ∀ p, p ∈ found ↔ Topmost host.dirNames host.isMarked root p) (hnodup : found.Nodup) :
    (host.withMarker marker found).Nodup := by
  have hvalid : ∀ p ∈ found, ∀ n ∈ p, ValidName n := fun p hp =>
    valid_of_node (h.below_iff.1 ((hfound p).1 hp).below).2
  refine (hnodup.filter _).map_on ?_
  intro p hp q hq heq
  exact pathText_injective (hvalid p (List.mem_of_mem_filter hp)) (hvalid q (List.mem_of_mem_filter hq)) heq

section
variable {plan : GitIngestPlan}

/-- The walk is admitted exactly where nothing on the way down is marked. -/
theorem Readable.walked_iff (h : host.Readable root)
    (hskipped : ∀ skippedRoot, skippedRoot ∈ plan.skippedWalkRoots ↔
      ∃ marker t, host.TopMarked root marker t ∧ skippedRoot = pathText t)
    (hroot : root <+: names) (hne : names ≠ root) (hvalid : ∀ n ∈ names, ValidName n) :
    Walked root plan names ↔ ∀ q, root <+: q → q <+: names → ∀ marker, ¬host.Marked marker q := by
  have hvalidq : ∀ {q}, q <+: names → ∀ n ∈ q, ValidName n := fun hq n hn => hvalid n (hq.subset hn)
  -- an entry below the root is admitted where no topmost marked directory is above it
  have hvisit : ∀ q, root <+: q → q ≠ root → q <+: names →
      (shouldVisitWalkEntry (pathText q) (pathText root) plan.skippedWalkRoots = true ↔
        ∀ marker t, host.TopMarked root marker t → ¬t <+: q) := by
    intro q hrootq hneq hq
    have hsame : samePath (pathText q) (pathText root) = false := by
      rw [Bool.eq_false_iff, ne_eq, samePath_pathText (hvalidq hq) (hvalidq hroot)]
      exact hneq
    unfold shouldVisitWalkEntry
    rw [hsame, Bool.false_or, Bool.not_eq_true', Bool.eq_false_iff, ne_eq, List.any_eq_true]
    constructor
    · intro hno marker t ht hle
      exact hno ⟨pathText t, (hskipped _).2 ⟨marker, t, ht, rfl⟩,
        (pathStartsWith_pathText (hvalidq hq) ht.valid).2 hle⟩
    · rintro hno ⟨text, hmem, hstarts⟩
      obtain ⟨marker, t, ht, rfl⟩ := (hskipped text).1 hmem
      exact hno marker t ht ((pathStartsWith_pathText (hvalidq hq) ht.valid).1 hstarts)
  constructor
  · intro hwalked q hrootq hq marker hmarked
    obtain ⟨marker, t, ht, hle⟩ := h.exists_topMarked hrootq hmarked
    exact (hvisit names hroot hne (List.prefix_refl names)).1
      (hwalked names hroot hne (List.prefix_refl names)) marker t ht (hle.trans hq)
  · intro hnone q hrootq hneq hq
    refine (hvisit q hrootq hneq hq).2 fun marker t ht hle => ?_
    exact hnone t ht.below (hle.trans hq) marker ht.marked

theorem covers_iff (hrepo : ∀ repoRoot, repoRoot ∈ plan.repoRoots ↔
      ∃ t, host.TopMarked root .repo t ∧ repoRoot = pathText t) (hvalid : ∀ n ∈ names, ValidName n)
    {repoRoot : String} : Covers plan names repoRoot ↔
      ∃ t, host.TopMarked root .repo t ∧ t <+: names ∧ repoRoot = pathText t := by
  unfold Covers
  rw [hrepo]
  constructor
  · rintro ⟨⟨t, ht, rfl⟩, hstarts⟩
    exact ⟨t, ht, (pathStartsWith_pathText hvalid ht.valid).1 hstarts, rfl⟩
  · rintro ⟨t, ht, hle, rfl⟩
    exact ⟨⟨t, ht, rfl⟩, (pathStartsWith_pathText hvalid ht.valid).2 hle⟩

/-- Each path below the root falls to one repository, to a submodule or to the walk. -/
theorem Readable.falls_to_one (h : host.Readable root)
    (hrepo : ∀ repoRoot, repoRoot ∈ plan.repoRoots ↔
      ∃ t, host.TopMarked root .repo t ∧ repoRoot = pathText t)
    (hskipped : ∀ skippedRoot, skippedRoot ∈ plan.skippedWalkRoots ↔
      ∃ marker t, host.TopMarked root marker t ∧ skippedRoot = pathText t)
    (hroot : root <+: names) (hne : names ≠ root) (hvalid : ∀ n ∈ names, ValidName n) :
    (∃! repoRoot, Covers plan names repoRoot) ∧ ¬host.InSubmodule root names ∧ ¬Walked root plan names ∨
    (¬∃ repoRoot, Covers plan names repoRoot) ∧ host.InSubmodule root names ∧ ¬Walked root plan names ∨
    (¬∃ repoRoot, Covers plan names repoRoot) ∧ ¬host.InSubmodule root names ∧ Walked root plan names := by
  simp only [covers_iff hrepo hvalid, h.walked_iff hskipped hroot hne hvalid]
  by_cases hmarked : ∃ q, root <+: q ∧ q <+: names ∧ ∃ marker, host.Marked marker q
  · obtain ⟨q, hrootq, hq, marker, hmarker⟩ := hmarked
    have hnot : ¬∀ q, root <+: q → q <+: names → ∀ marker, ¬host.Marked marker q :=
      fun hnone => hnone q hrootq hq marker hmarker
    obtain ⟨marker, t, ht, hle⟩ := h.exists_topMarked hrootq hmarker
    have hbelow : t <+: names := hle.trans hq
    cases marker with
    | repo =>
      refine .inl ⟨⟨pathText t, ⟨t, ht, hbelow, rfl⟩, ?_⟩, ?_, hnot⟩
      · rintro _ ⟨t', ht', hle', rfl⟩
        rw [ht'.unique ht hle' hbelow]
      · rintro ⟨s, hs, hles⟩
        obtain rfl := ht.unique hs hbelow hles
        cases ht.marker_unique hs
    | submodule =>
      refine .inr (.inl ⟨?_, ⟨t, ht, hbelow⟩, hnot⟩)
      rintro ⟨_, t', ht', hle', rfl⟩
      obtain rfl := ht'.unique ht hle' hbelow
      cases ht'.marker_unique ht
  · have hnone : ∀ q, root <+: q → q <+: names → ∀ marker, ¬host.Marked marker q :=
      fun q hrootq hq marker hm => hmarked ⟨q, hrootq, hq, marker, hm⟩
    refine .inr (.inr ⟨?_, ?_, hnone⟩)
    · rintro ⟨_, t, ht, hle, rfl⟩
      exact hnone t ht.below hle .repo ht.marked
    · rintro ⟨s, hs, hle⟩
      exact hnone s hs.below hle .submodule hs.marked

end

/-- A plan that holds the topmost marked directories partitions the tree. -/
theorem Readable.partitions (h : host.Readable root) (hnodup : found.Nodup)
    (hfound : ∀ p, p ∈ found ↔ Topmost host.dirNames host.isMarked root p) :
    host.Partitions root ⟨host.withMarker .repo found, some (pathText root),
      host.withMarker .submodule found ++ host.withMarker .repo found⟩ := by
  have hrepo : ∀ text, text ∈ host.withMarker .repo found ↔
      ∃ t, host.TopMarked root .repo t ∧ text = pathText t := fun text => h.mem_withMarker hfound
  have hskipped : ∀ text, text ∈ host.withMarker .submodule found ++ host.withMarker .repo found ↔
      ∃ marker t, host.TopMarked root marker t ∧ text = pathText t := by
    intro text
    rw [List.mem_append, h.mem_withMarker hfound, h.mem_withMarker hfound]
    constructor
    · rintro (⟨t, ht, rfl⟩ | ⟨t, ht, rfl⟩)
      · exact ⟨.submodule, t, ht, rfl⟩
      · exact ⟨.repo, t, ht, rfl⟩
    · rintro ⟨marker, t, ht, rfl⟩
      cases marker with
      | repo => exact .inr ⟨t, ht, rfl⟩
      | submodule => exact .inl ⟨t, ht, rfl⟩
  refine ⟨rfl, h.nodup_withMarker hfound hnodup, hrepo, hskipped, ?_, ?_,
    fun names => h.walked_iff hskipped, ?_⟩
  · intro repoRoot hmem other hother hstarts
    obtain ⟨t, ht, rfl⟩ := (hrepo _).1 hmem
    obtain ⟨t', ht', rfl⟩ := (hrepo _).1 hother
    have hle : t' <+: t := (pathStartsWith_pathText ht.valid ht'.valid).1 hstarts
    rw [ht.unique ht' (List.prefix_refl t) hle]
  · intro repoRoot hmem s hs
    obtain ⟨t, ht, rfl⟩ := (hrepo _).1 hmem
    rw [Bool.eq_false_iff]
    intro hstarts
    have hle : s <+: t := (pathStartsWith_pathText ht.valid hs.valid).1 hstarts
    obtain rfl := ht.unique hs (List.prefix_refl t) hle
    cases ht.marker_unique hs
  · intro names content hroot hfile
    have hvalid : ∀ n ∈ names, ValidName n := valid_of_node hfile
    have hne : names ≠ root := by
      rintro rfl
      rw [h.dir] at hfile
      cases hfile
    exact h.falls_to_one hrepo hskipped hroot hne hvalid

/-- The discovery ends, and its plan partitions the tree. -/
theorem git_plan_partitions (h : host.Readable root) : ∃ plan : GitIngestPlan,
    (∃ enough, ∀ fuel ≥ enough, host.buildGitIngestPlan fuel (pathText root) = some (.ok plan)) ∧
      host.Partitions root plan := by
  have hfin : {p | Below host.dirNames root p}.Finite :=
    h.finite.subset fun p hp => h.below_iff.1 hp
  have hnodupKids : ∀ p, Below host.dirNames root p → (host.dirNames p).Nodup := fun p hp =>
    h.nodup_dirNames (h.below_iff.1 hp).1 (h.below_iff.1 hp).2
  obtain ⟨found, ⟨enough, hrun⟩, hnodup, hfound⟩ := topmostSearch_exact hfin hnodupKids
  refine ⟨_, ⟨enough, fun fuel hge => ?_⟩, h.partitions hnodup hfound⟩
  have hloop := h.discoverRepos_eq fuel [root] [] (by simpa using Below.refl)
  rw [hrun fuel hge] at hloop
  unfold buildGitIngestPlan
  rw [h.outermost]
  dsimp only
  show (host.discoverRepos fuel ([root].map pathText) (host.withMarker .repo [])
    (host.withMarker .submodule [])).map _ = _
  rw [hloop]
  rfl

/-- `/srv` has a repository, a directory whose name starts like it, and a submodule with a
    repository inside. -/
def forestEntries : List (List String × Node String Bytes) :=
  [([], .dir), (["srv"], .dir), (["srv", "app"], .dir), (["srv", "app", ".git"], .dir),
    (["srv", "app", ".git", "HEAD"], .file [0x61]), (["srv", "app2"], .dir),
    (["srv", "app2", "notes.md"], .file [0x62]), (["srv", "sub"], .dir),
    (["srv", "sub", ".git"], .file (utf8Bytes "gitdir: ../.git/modules/sub")),
    (["srv", "sub", "inner"], .dir), (["srv", "sub", "inner", ".git"], .dir),
    (["srv", "sub", "inner", ".git", "HEAD"], .file [0x61])]

/-- The names in a directory of the forest. -/
def forestNames (path : String) : List String :=
  (forestEntries.filter fun e => decide (e.1 ≠ [] ∧ pathText e.1.dropLast = path)).filterMap fun e =>
    e.1.getLast?

/-- The host of these entries. -/
def forestHost : Host where
  tree := FileTree.ofEntries forestEntries (by decide) (by decide)
  valid names h := by
    obtain ⟨e, he, rfl⟩ := FileTree.exists_mem_of_lookup h
    have hvalid : ∀ e ∈ forestEntries, ∀ n ∈ e.1, ValidName n := by decide
    exact hvalid e he
  named names h := by
    obtain ⟨e, he, rfl⟩ := FileTree.exists_mem_of_lookup h
    have htext : ∀ e ∈ forestEntries, ∀ n ∈ e.1, TextName n := by decide
    exact htext e he
  cwd := []
  cwd_dir := rfl
  readDir path := .ok ((forestNames path).map .ok)
  revParse _ := .ok ⟨false, [], utf8Bytes "fatal: not a git repository"⟩
  lsFiles _ := .ok ⟨true, [], []⟩
  walk _ := []
  walk_file _ _ _ hmem _ := absurd hmem List.not_mem_nil

theorem mem_forest (h : forestHost.tree.node names ≠ none) : ∃ e ∈ forestEntries, e.1 = names :=
  FileTree.exists_mem_of_lookup h

theorem readable_forest : forestHost.Readable ["srv"] where
  dir := rfl
  outermost := rfl
  marker names _ hdir := by
    obtain ⟨e, he, rfl⟩ := mem_forest (hdir ▸ Option.some_ne_none _)
    have htold : ∀ e ∈ forestEntries, (forestHost.detectRepoMarker (pathText e.1)).toOption.isSome = true := by
      decide +kernel
    obtain ⟨marker, hmarker⟩ := Option.isSome_iff_exists.1 (htold e he)
    exact ⟨marker, toOption_eq_some.1 hmarker⟩
  listed names _ hdir := by
    obtain ⟨e, he, rfl⟩ := mem_forest (hdir ▸ Option.some_ne_none _)
    have hnodup : ∀ e ∈ forestEntries, (forestNames (pathText e.1)).Nodup := by decide +kernel
    have hthere : ∀ e ∈ forestEntries, ∀ n ∈ forestNames (pathText e.1),
        forestEntries.lookup (e.1 ++ [n]) ≠ none := by decide +kernel
    refine ⟨forestNames (pathText e.1), rfl, hnodup e he, fun n => ⟨hthere e he n, fun hn => ?_⟩⟩
    obtain ⟨child, hchild, hpath⟩ := FileTree.exists_mem_of_lookup hn
    refine List.mem_filterMap.2 ⟨child, List.mem_filter.2 ⟨hchild, ?_⟩, ?_⟩
    · rw [hpath, List.dropLast_concat, decide_eq_true_iff]
      exact ⟨by simp, rfl⟩
    · rw [hpath, List.getLast?_concat]
  finite := by
    refine (forestEntries.map Prod.fst).finite_toSet.subset ?_
    rintro names ⟨-, hdir⟩
    obtain ⟨e, he, rfl⟩ := mem_forest (hdir ▸ Option.some_ne_none _)
    exact List.mem_map_of_mem he

theorem git_plan_partitions_forest :
    (forestHost.buildGitIngestPlan 5 "/srv").map Except.toOption =
        some (some ⟨["/srv/app"], some "/srv", ["/srv/sub", "/srv/app"]⟩) ∧
      ∃ plan : GitIngestPlan,
        (∃ enough, ∀ fuel ≥ enough, forestHost.buildGitIngestPlan fuel "/srv" = some (.ok plan)) ∧
          forestHost.Partitions ["srv"] plan :=
  ⟨by decide +kernel, git_plan_partitions readable_forest⟩

end Host

end Ask
