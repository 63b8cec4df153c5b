/-
  The paths shown in responses (`http/response_paths.rs`): a stored path is
  shown below the display string of the deepest configured root above it.
-/
import Ask.Lib.Ranking
import Ask.Paths

namespace Ask

/-- A directory and the name responses give it. -/
structure ResponsePathRoot where
  root : String
  displayRoot : String
  deriving DecidableEq, Repr

/-- All roots, in the order they are tried. -/
structure ResponsePathTranslator where
  roots : List ResponsePathRoot

/-- `Path::components().count()` of a root. -/
def ResponsePathRoot.depth (root : ResponsePathRoot) : ℕ := (components root.root).length

/-- The roots, deepest first; the sort is stable. -/
def ResponsePathTranslator.new (roots : List ResponsePathRoot) : ResponsePathTranslator :=
  ⟨roots.insertionSort fun left right => right.depth ≤ left.depth⟩

/-! ## Display roots -/

/-- Three bytes: a drive letter, a colon and a slash. -/
def isWindowsDriveRoot : List Char → Bool
  | [drive, ':', '/'] => drive.utf8Size = 1
  | _ => false

/-- Drop slashes from the end. -/
def trimDisplayRoot (path : List Char) : List Char :=
  if 1 < path.length ∧ path.getLast? = some '/' ∧ isWindowsDriveRoot path = false then
    trimDisplayRoot path.dropLast
  else path
termination_by path.length
decreasing_by
  rename_i h
  rw [List.length_dropLast]
  omega

/-- A display name with slashes only, and none at its end. -/
def displayPathRoot (path : String) : String :=
  let normalized := path.toList.map fun c => if c = '\\' then '/' else c
  if normalized = [] then "." else String.ofList (trimDisplayRoot normalized)

/-! ## Translation -/

/-- The names among the components, joined by slashes. -/
def normalizeRelativeResponsePath (path : List Component) : String :=
  let names := path.filterMap fun
    | .normal value => some value.toList
    | .curDir | .parentDir | .rootDir => none
  String.ofList (['/'].intercalate names)

/-- What lies below a root, under the root's name. -/
def joinDisplayPath (displayRoot : String) (relative : List Component) : String :=
  let relative := normalizeRelativeResponsePath relative
  if relative = "" then displayRoot
  else if displayRoot = "/" then "/" ++ relative
  else if displayRoot = "." then "./" ++ relative
  else if displayRoot.toList.getLast? = some '/' then displayRoot ++ relative
  else displayRoot ++ "/" ++ relative

/-- Translate below the first of the roots that the path lies below. -/
def translateBelow (storedFilepath : String) : List ResponsePathRoot → String
  | [] => storedFilepath
  | root :: roots =>
    match stripPrefix storedFilepath root.root with
    | none => translateBelow storedFilepath roots
    | some [] => root.displayRoot
    | some (c :: relative) => joinDisplayPath root.displayRoot (c :: relative)

/-- The path that a response gives a stored file. -/
def ResponsePathTranslator.responseFilepath (translator : ResponsePathTranslator)
    (storedFilepath : String) : String :=
  translateBelow storedFilepath translator.roots

/-! ## Display roots end in one slash at most -/

/-- The display string is `base`, or `base` and a slash, where `base` ends in none. -/
def Display (base : List Char) (display : String) : Prop :=
  base.getLast? ≠ some '/' ∧ (display.toList = base ∨ display.toList = base ++ ['/'])

theorem of_isWindowsDriveRoot {path : List Char} (h : isWindowsDriveRoot path = true) :
    ∃ drive, path = [drive, ':', '/'] := by
  unfold isWindowsDriveRoot at h
  split at h
  · exact ⟨_, rfl⟩
  · cases h

theorem trimDisplayRoot_base (path : List Char) : ∃ base : List Char, base.getLast? ≠ some '/' ∧
    (trimDisplayRoot path = base ∨ trimDisplayRoot path = base ++ ['/']) := by
  fun_induction trimDisplayRoot path with
  | case1 path _ ih => exact ih
  | case2 path h =>
    by_cases hlast : path.getLast? = some '/'
    · obtain ⟨base, rfl⟩ := List.getLast?_eq_some_iff.1 hlast
      refine ⟨base, fun hbase => ?_, .inr rfl⟩
      obtain ⟨front, rfl⟩ := List.getLast?_eq_some_iff.1 hbase
      -- two slashes at the end are no drive root, so that the loop goes on
      refine h ⟨by simp, hlast, Bool.eq_false_iff.2 fun hdrive => ?_⟩
      obtain ⟨drive, heq⟩ := of_isWindowsDriveRoot hdrive
      have := congrArg (fun l => l.dropLast.getLast?) heq
      simp at this
    · exact ⟨path, hlast, .inl rfl⟩

theorem display_displayPathRoot (path : String) : ∃ base, Display base (displayPathRoot path) := by
  unfold displayPathRoot
  dsimp only
  split_ifs
  · exact ⟨['.'], by decide, .inl rfl⟩
  · obtain ⟨base, hbase, htrim⟩ := trimDisplayRoot_base (path.toList.map fun c => if c = '\\' then '/' else c)
    exact ⟨base, hbase, by rwa [String.toList_ofList]⟩

/-! ## Names below a root -/

variable {names names' rest : List String} {base : List Char} {display shown : String}

/-- The names, a slash between each two. -/
def joinNames (names : List String) : List Char := ['/'].intercalate (names.map String.toList)

theorem splitOn_joinNames (h : ∀ n ∈ names, ValidName n) (hne : names ≠ []) :
    (joinNames names).splitOn '/' = names.map String.toList := by
  refine List.splitOn_intercalate '/' ?_ (by simpa using hne)
  intro part hpart
  obtain ⟨n, hn, rfl⟩ := List.mem_map.1 hpart
  exact (h n hn).2.2.2

theorem joinNames_ne_nil (h : ∀ n ∈ names, ValidName n) (hne : names ≠ []) : joinNames names ≠ [] := by
  intro hnil
  have hsplit := splitOn_joinNames h hne
  rw [hnil] at hsplit
  obtain ⟨n, names, rfl⟩ := List.exists_cons_of_ne_nil hne
  have hname : n.toList = [] := (List.cons.inj hsplit).1.symm
  exact (h n List.mem_cons_self).1 (by simpa using hname)

theorem joinNames_injective (h : ∀ n ∈ names, ValidName n) (h' : ∀ n ∈ names', ValidName n)
    (hne : names ≠ []) (hne' : names' ≠ []) (heq : joinNames names = joinNames names') :
    names = names' := by
  have hmap : names.map String.toList = names'.map String.toList := by
    rw [← splitOn_joinNames h hne, heq, splitOn_joinNames h' hne']
  exact List.map_injective_iff.2 (fun _ _ => String.toList_inj.1) hmap

theorem normalizeRelativeResponsePath_names :
    (normalizeRelativeResponsePath (names.map .normal)).toList = joinNames names := by
  unfold normalizeRelativeResponsePath joinNames
  rw [String.toList_ofList, List.filterMap_map, ← List.filterMap_eq_map]
  rfl

/-- The root's display string, or that, one slash and the names below. -/
def ShownBelow (display : String) (names : List String) (shown : String) : Prop :=
  if names = [] then shown = display
  else ∃ base, Display base display ∧ shown.toList = base ++ '/' :: joinNames names

/-- All four ways of joining put one slash in between. -/
theorem joinDisplayPath_names (hd : Display base display) (h : ∀ n ∈ names, ValidName n) (hne : names ≠ []) :
    (joinDisplayPath display (names.map .normal)).toList = base ++ '/' :: joinNames names := by
  have hrel : normalizeRelativeResponsePath (names.map .normal) ≠ "" := by
    intro heq
    refine joinNames_ne_nil h hne ?_
    rw [← normalizeRelativeResponsePath_names, heq]
    rfl
  have hjoin : (joinDisplayPath display (names.map .normal)).toList =
      if display.toList.getLast? = some '/' then display.toList ++ joinNames names
      else display.toList ++ '/' :: joinNames names := by
    unfold joinDisplayPath
    dsimp only
    rw [if_neg hrel]
    split_ifs with hslash hdot hlast hlast' hlast''
    all_goals simp_all [String.toList_append, normalizeRelativeResponsePath_names]
  rw [hjoin]
  obtain ⟨hbase, heq | heq⟩ := hd
  · rw [heq, if_neg hbase]
  · rw [heq, List.getLast?_append, if_pos (by simp), List.append_assoc, List.singleton_append]

/-! ## The deepest root -/

/-- A configured directory and the directory that it is displayed as. -/
structure DisplayedRoot where
  names : List String
  displayDir : String

/-- The root as the translator has it. -/
def DisplayedRoot.toRoot (r : DisplayedRoot) : ResponsePathRoot :=
  ⟨pathText r.names, displayPathRoot r.displayDir⟩

/-- Of the roots above the path, none has more components than `r`, and `r` comes first of its path. -/
structure Deepest (roots : List DisplayedRoot) (names : List String) (r : DisplayedRoot) : Prop where
  first : roots.find? (fun q => decide (q.names = r.names)) = some r
  above : r.names <+: names
  longest : ∀ q ∈ roots, q.names <+: names → q.names.length ≤ r.names.length

variable {roots : List DisplayedRoot} {r r' : DisplayedRoot}

theorem Deepest.unique (h : Deepest roots names r) (h' : Deepest roots names r') : r = r' := by
  have hmem : r ∈ roots := List.mem_of_find?_eq_some h.first
  have hmem' : r' ∈ roots := List.mem_of_find?_eq_some h'.first
  have hlen : r.names.length = r'.names.length :=
    Nat.le_antisymm (h'.longest r hmem h.above) (h.longest r' hmem' h'.above)
  have hnames : r.names = r'.names :=
    (List.prefix_of_prefix_length_le h.above h'.above hlen.le).eq_of_length hlen
  have hfirst := h.first
  rw [hnames, h'.first] at hfirst
  exact (Option.some.inj hfirst).symm

theorem displayRoot_toRoot : r.toRoot.displayRoot = displayPathRoot r.displayDir := rfl

theorem depth_toRoot (h : ∀ n ∈ r.names, ValidName n) : r.toRoot.depth = r.names.length + 1 := by
  unfold ResponsePathRoot.depth DisplayedRoot.toRoot
  rw [components_pathText h, List.length_cons, List.length_map]

/-- The path starts with the root. -/
def ResponsePathRoot.isAbove (stored : String) (root : ResponsePathRoot) : Bool :=
  pathStartsWith stored root.root

theorem isAbove_toRoot (hr : ∀ n ∈ r.names, ValidName n) (h : ∀ n ∈ names, ValidName n) :
    r.toRoot.isAbove (pathText names) = true ↔ r.names <+: names := by
  unfold ResponsePathRoot.isAbove DisplayedRoot.toRoot
  exact pathStartsWith_pathText h hr

/-- The loop over the roots stops at the first one above the path. -/
theorem translateBelow_eq (sorted : List ResponsePathRoot) (stored : String) :
    translateBelow stored sorted =
      ((sorted.find? (ResponsePathRoot.isAbove stored)).elim stored fun root =>
        translateBelow stored [root]) := by
  induction sorted with
  | nil => rfl
  | cons root sorted ih =>
    cases hstrip : stripPrefix stored root.root with
    | none =>
      have hnot : ¬root.isAbove stored = true := by simp [ResponsePathRoot.isAbove, pathStartsWith, hstrip]
      rw [List.find?_cons_of_neg hnot, ← ih, translateBelow, hstrip]
    | some relative =>
      have hyes : root.isAbove stored = true := by simp [ResponsePathRoot.isAbove, pathStartsWith, hstrip]
      rw [List.find?_cons_of_pos hyes, Option.elim_some]
      cases relative <;> simp only [translateBelow, hstrip]

theorem translateBelow_toRoot (hr : ∀ n ∈ r.names, ValidName n) (h : ∀ n ∈ names, ValidName n)
    (hpre : r.names <+: names) : ShownBelow (displayPathRoot r.displayDir) (names.drop r.names.length)
      (translateBelow (pathText names) [r.toRoot]) := by
  have hstrip : stripPrefix (pathText names) r.toRoot.root =
      some ((names.drop r.names.length).map .normal) := by
    rw [DisplayedRoot.toRoot, stripPrefix_pathText h hr, if_pos hpre]
  unfold ShownBelow
  cases hdrop : names.drop r.names.length with
  | nil =>
    rw [hdrop, List.map_nil] at hstrip
    rw [if_pos rfl, translateBelow, hstrip]
    rfl
  | cons n below =>
    rw [hdrop, List.map_cons] at hstrip
    have hbelow : ∀ m ∈ n :: below, ValidName m := fun m hm => h m (List.mem_of_mem_drop (hdrop ▸ hm))
    obtain ⟨base, hbase⟩ := display_displayPathRoot r.displayDir
    have hjoin : translateBelow (pathText names) [r.toRoot] =
        joinDisplayPath (displayPathRoot r.displayDir) ((n :: below).map .normal) := by
      simp only [translateBelow, hstrip, displayRoot_toRoot, List.map_cons]
    rw [if_neg (List.cons_ne_nil n below), hjoin]
    exact ⟨base, hbase, joinDisplayPath_names hbase hbelow (List.cons_ne_nil n below)⟩

/-- What the sorted roots are searched for is the deepest root. -/
theorem find?_new (hroots : ∀ q ∈ roots, ∀ n ∈ q.names, ValidName n) (h : ∀ n ∈ names, ValidName n)
    {root : ResponsePathRoot}
    (hfind : (ResponsePathTranslator.new (roots.map DisplayedRoot.toRoot)).roots.find?
      (ResponsePathRoot.isAbove (pathText names)) = some root) :
    ∃ r, Deepest roots names r ∧ root = r.toRoot := by
  obtain ⟨before, after, hsplit, hp, hbefore, hafter⟩ :=
    Lib.find?_insertionSort (fun _ _ _ hab hbc => hbc.trans hab) (fun _ _ => Nat.le_total _ _) hfind
  obtain ⟨before, rest, rfl, rfl, hrest⟩ := List.map_eq_append_iff.1 hsplit
  obtain ⟨r, after, rfl, rfl, rfl⟩ := List.map_eq_cons_iff.1 hrest
  have hvalid : ∀ n ∈ r.names, ValidName n := hroots r (by simp)
  have habove : r.names <+: names := (isAbove_toRoot hvalid h).1 hp
  -- a root before `r` is less deep, a root after it no deeper
  have hlt : ∀ q ∈ before, q.names <+: names → q.names.length < r.names.length := by
    intro q hq hpre
    have hqv : ∀ n ∈ q.names, ValidName n := hroots q (by simp [hq])
    have hdeep := hbefore q.toRoot (List.mem_map_of_mem hq) ((isAbove_toRoot hqv h).2 hpre)
    rw [depth_toRoot hqv, depth_toRoot hvalid] at hdeep
    omega
  have hle : ∀ q ∈ after, q.names <+: names → q.names.length ≤ r.names.length := by
    intro q hq hpre
    have hqv : ∀ n ∈ q.names, ValidName n := hroots q (by simp [hq])
    have hdeep := hafter q.toRoot (List.mem_map_of_mem hq) ((isAbove_toRoot hqv h).2 hpre)
    rw [depth_toRoot hqv, depth_toRoot hvalid] at hdeep
    omega
  refine ⟨r, ⟨?_, habove, ?_⟩, rfl⟩
  · have hnone : before.find? (fun q => decide (q.names = r.names)) = none := by
      refine List.find?_eq_none.2 fun q hq heq => ?_
      have hsame : q.names = r.names := of_decide_eq_true heq
      have := hlt q hq (hsame ▸ habove)
      rw [hsame] at this
      exact Nat.lt_irrefl _ this
    rw [List.find?_append, hnone, Option.none_or]
    exact List.find?_cons_of_pos (decide_eq_true rfl)
  · intro q hq hpre
    rcases List.mem_append.1 hq with hq | hq
    · exact (hlt q hq hpre).le
    · rcases List.mem_cons.1 hq with rfl | hq
      · exact Nat.le_refl _
      · exact hle q hq hpre

/-- The response path of a stored path, with these roots configured. -/
def shownPath (roots : List DisplayedRoot) (names : List String) : String :=
  (ResponsePathTranslator.new (roots.map DisplayedRoot.toRoot)).responseFilepath (pathText names)

theorem shownPath_of_none (hroots : ∀ q ∈ roots, ∀ n ∈ q.names, ValidName n) (h : ∀ n ∈ names, ValidName n)
    (hnone : ∀ q ∈ roots, ¬q.names <+: names) : shownPath roots names = pathText names := by
  unfold shownPath ResponsePathTranslator.responseFilepath
  rw [translateBelow_eq, List.find?_eq_none.2, Option.elim_none]
  intro root hroot
  obtain ⟨q, hq, rfl⟩ := List.mem_map.1 ((List.mem_insertionSort _).1 hroot)
  rw [isAbove_toRoot (hroots q hq) h]
  exact hnone q hq

theorem shownPath_of_some (hroots : ∀ q ∈ roots, ∀ n ∈ q.names, ValidName n) (h : ∀ n ∈ names, ValidName n)
    (hsome : ∃ q ∈ roots, q.names <+: names) : ∃ r, Deepest roots names r ∧
      shownPath roots names = translateBelow (pathText names) [r.toRoot] := by
  obtain ⟨q, hq, hpre⟩ := hsome
  have hfound : ((ResponsePathTranslator.new (roots.map DisplayedRoot.toRoot)).roots.find?
      (ResponsePathRoot.isAbove (pathText names))).isSome := by
    rw [List.find?_isSome]
    refine ⟨q.toRoot, (List.mem_insertionSort _).2 (List.mem_map_of_mem hq), ?_⟩
    exact (isAbove_toRoot (hroots q hq) h).2 hpre
  obtain ⟨root, hroot⟩ := Option.isSome_iff_exists.1 hfound
  obtain ⟨r, hr, rfl⟩ := find?_new hroots h hroot
  refine ⟨r, hr, ?_⟩
  unfold shownPath ResponsePathTranslator.responseFilepath
  rw [translateBelow_eq, hroot, Option.elim_some]

theorem Deepest.shownBelow (hr : Deepest roots names r) (hroots : ∀ q ∈ roots, ∀ n ∈ q.names, ValidName n)
    (h : ∀ n ∈ names, ValidName n) : ShownBelow (displayPathRoot r.displayDir)
      (names.drop r.names.length) (shownPath roots names) := by
  have hmem : r ∈ roots := List.mem_of_find?_eq_some hr.first
  obtain ⟨r', hr', hshown⟩ := shownPath_of_some hroots h ⟨r, hmem, hr.above⟩
  obtain rfl := hr.unique hr'
  rw [hshown]
  exact translateBelow_toRoot (hroots r hmem) h hr.above

theorem Display.unique {base' : List Char} (h : Display base display) (h' : Display base' display) :
    base = base' := by
  obtain ⟨hlast, heq⟩ := h
  obtain ⟨hlast', heq'⟩ := h'
  rcases heq with heq | heq <;> rcases heq' with heq' | heq'
  · exact heq.symm.trans heq'
  · rw [← heq, heq'] at hlast
    simp at hlast
  · rw [← heq', heq] at hlast'
    simp at hlast'
  · exact List.append_cancel_right (heq.symm.trans heq')

/-- What is shown below a root tells the names. -/
theorem ShownBelow.injective (h : ∀ n ∈ names, ValidName n) (h' : ∀ n ∈ names', ValidName n)
    (hs : ShownBelow display names shown) (hs' : ShownBelow display names' shown) : names = names' := by
  -- below the root itself a name follows the slash
  have hroot : ∀ {below : List String}, (∀ n ∈ below, ValidName n) → below ≠ [] →
      ¬ShownBelow display below display := by
    intro below hbelow hne hshown
    unfold ShownBelow at hshown
    rw [if_neg hne] at hshown
    obtain ⟨base, ⟨hlast, hdisplay⟩, hshown⟩ := hshown
    have hlen : 0 < (joinNames below).length := List.length_pos_of_ne_nil (joinNames_ne_nil hbelow hne)
    rcases hdisplay with hdisplay | hdisplay
    · have hlong := congrArg List.length (hdisplay.symm.trans hshown)
      rw [List.length_append, List.length_cons] at hlong
      omega
    · have hlong := congrArg List.length (hdisplay.symm.trans hshown)
      rw [List.length_append, List.length_append, List.length_singleton, List.length_cons] at hlong
      omega
  by_cases hnil : names = [] <;> by_cases hnil' : names' = []
  · rw [hnil, hnil']
  · unfold ShownBelow at hs
    rw [if_pos hnil] at hs
    exact absurd (hs ▸ hs') (hroot h' hnil')
  · unfold ShownBelow at hs'
    rw [if_pos hnil'] at hs'
    exact absurd (hs' ▸ hs) (hroot h hnil)
  · unfold ShownBelow at hs hs'
    rw [if_neg hnil] at hs
    rw [if_neg hnil'] at hs'
    obtain ⟨base, hbase, hs⟩ := hs
    obtain ⟨base', hbase', hs'⟩ := hs'
    rw [hbase.unique hbase', hs'] at hs
    exact joinNames_injective h h' hnil hnil' (List.cons.inj (List.append_cancel_left hs)).2.symm

/-- Translation takes the deepest root above a path, and paths below one root stay apart. -/
theorem response_paths (roots : List DisplayedRoot) (hroots : ∀ q ∈ roots, ∀ n ∈ q.names, ValidName n)
    (names : List String) (h : ∀ n ∈ names, ValidName n) :
    ((∀ q ∈ roots, ¬q.names <+: names) → shownPath roots names = pathText names) ∧
    ((∃ q ∈ roots, q.names <+: names) → ∃ r, Deepest roots names r) ∧
    ∀ r, Deepest roots names r →
      ShownBelow (displayPathRoot r.displayDir) (names.drop r.names.length) (shownPath roots names) ∧
      ∀ names', (∀ n ∈ names', ValidName n) → Deepest roots names' r →
        shownPath roots names = shownPath roots names' → names = names' := by
  refine ⟨shownPath_of_none hroots h, fun hsome => ?_, fun r hr => ⟨hr.shownBelow hroots h, ?_⟩⟩
  · obtain ⟨r, hr, -⟩ := shownPath_of_some hroots h hsome
    exact ⟨r, hr⟩
  · intro names' h' hr' heq
    have hs := hr.shownBelow hroots h
    have hs' := hr'.shownBelow hroots h'
    rw [← heq] at hs'
    have hdrop : names.drop r.names.length = names'.drop r.names.length :=
      ShownBelow.injective (fun n hn => h n (List.mem_of_mem_drop hn))
        (fun n hn => h' n (List.mem_of_mem_drop hn)) hs hs'
    obtain ⟨below, rfl⟩ := hr.above
    obtain ⟨below', rfl⟩ := hr'.above
    rw [List.drop_left, List.drop_left] at hdrop
    rw [hdrop]

/-- One root below the other. -/
def nestedRoots : List DisplayedRoot :=
  [⟨["data"], "/data"⟩, ⟨["data", "resources"], "C:\\shared\\"⟩, ⟨["data"], "."⟩]

theorem response_paths_nested :
    shownPath nestedRoots ["data2", "x"] = "/data2/x" ∧
    (∃ r, Deepest nestedRoots ["data", "resources", "a"] r) ∧
    ShownBelow "C:/shared" ["a"] (shownPath nestedRoots ["data", "resources", "a"]) ∧
    shownPath nestedRoots ["data", "resources", "a"] ≠ shownPath nestedRoots ["data", "resources", "b"] := by
  have hroots : ∀ q ∈ nestedRoots, ∀ n ∈ q.names, ValidName n := by decide
  have habove : ∀ q ∈ nestedRoots, q.names <+: ["data", "resources"] := by decide
  have hdeep : ∀ n, Deepest nestedRoots ["data", "resources", n] ⟨["data", "resources"], "C:\\shared\\"⟩ :=
    fun n => ⟨rfl, ⟨[n], rfl⟩, fun q hq _ => (habove q hq).length_le⟩
  have houtside := (response_paths nestedRoots hroots ["data2", "x"] (by decide)).1 (by decide)
  obtain ⟨-, hsome, hbelow⟩ := response_paths nestedRoots hroots ["data", "resources", "a"] (by decide)
  obtain ⟨hshown, hinj⟩ := hbelow _ (hdeep "a")
  have hdisplay : displayPathRoot "C:\\shared\\" = "C:/shared" := by decide +kernel
  refine ⟨houtside, hsome ⟨_, List.mem_cons_self, by decide⟩, hdisplay ▸ hshown, fun heq => ?_⟩
  exact absurd (hinj ["data", "resources", "b"] (by decide) (hdeep "b") heq) (by decide)

end Ask
