/-
  Unix paths, as `std::path` reads them.

  A path is spelled as `Lib.OsStr` spells bytes, so one without a NUL is its
  text; what is compared is the list of its components.
-/
import Ask.Lib.OsStr
import Ask.Types

namespace Ask

open Lib.OsStr

/-- `std::path::Component` on Unix. -/
inductive Component where
  | rootDir
  | curDir
  | parentDir
  | normal (part : String)
  deriving DecidableEq, Repr

/-- The component of one part between slashes, if it has one. -/
def component? (part : List Char) : Option Component :=
  if part = [] ∨ part = ['.'] then none
  else if part = ['.', '.'] then some .parentDir
  else some (.normal (String.ofList part))

/-- `Path::components`: repeated slashes and inner dots count for nothing. -/
def components (path : String) : List Component :=
  let parts := path.toList.splitOn '/'
  let start :=
    if path.toList.head? = some '/' then [.rootDir]
    else if parts.head? = some ['.'] then [.curDir]
    else []
  start ++ parts.filterMap component?

/-- The components after a prefix. -/
def stripComponents : List Component → List Component → Option (List Component)
  | path, [] => some path
  | [], _ :: _ => none
  | c :: path, b :: base => if c = b then stripComponents path base else none

theorem stripComponents_eq_some {base path rest : List Component} :
    stripComponents path base = some rest ↔ path = base ++ rest := by
  induction base generalizing path with
  | nil => cases path <;> simp [stripComponents, eq_comm]
  | cons b base ih =>
    cases path with
    | nil => simp [stripComponents]
    | cons c path =>
      by_cases hcb : c = b
      · simp [stripComponents, hcb, ih]
      · simp [stripComponents, hcb]

/-- `Path::strip_prefix`, as components. -/
def stripPrefix (path base : String) : Option (List Component) :=
  stripComponents (components path) (components base)

/-- `Path::starts_with`. -/
def pathStartsWith (path base : String) : Bool := (stripPrefix path base).isSome

/-- Equality of paths. -/
def samePath (path other : String) : Bool := decide (components path = components other)

/-- `PathBuf::push` onto a copy. -/
def joinPath (base path : String) : String :=
  if path.toList.head? = some '/' then path
  else if base.toList.getLast?.any (· ≠ '/') then base ++ "/" ++ path
  else base ++ path

/-- `Path::extension`: after the last dot of the file name, unless the name only starts with it. -/
def extension (path : String) : Option String :=
  match (components path).getLast? with
  | some (.normal name) =>
    let parts := name.toList.splitOn '.'
    let before := List.intercalate ['.'] parts.dropLast
    if before = [] then none else parts.getLast?.map String.ofList
  | _ => none

theorem mem_of_mem_splitOn {part text : List Char} {a c : Char} (hpart : part ∈ text.splitOn a) (hc : c ∈ part) :
    c ∈ text := by
  have hmem : ∀ parts : List (List Char), part ∈ parts → c ∈ [a].intercalate parts := by
    intro parts hparts
    induction parts with
    | nil => exact absurd hparts List.not_mem_nil
    | cons first parts ih =>
      cases parts with
      | nil =>
        rw [List.intercalate_singleton]
        exact List.mem_singleton.1 hparts ▸ hc
      | cons second parts =>
        rw [List.intercalate_cons_cons]
        obtain rfl | hrest := List.mem_cons.1 hparts
        · exact List.mem_append_left _ (List.mem_append_left _ hc)
        · exact List.mem_append_right _ (ih hrest)
  have htext : [a].intercalate (text.splitOn a) = text := List.intercalate_splitOn a
  rw [← htext]
  exact hmem _ hpart

/-- The extension of a text is text. -/
theorem textName_extension {path ext : String} (h : TextName path) (hext : extension path = some ext) :
    TextName ext := by
  unfold extension at hext
  split at hext
  · rename_i name hlast
    dsimp only at hext
    split_ifs at hext
    obtain ⟨part, hpart, rfl⟩ := Option.map_eq_some_iff.1 hext
    intro hnul
    rw [String.toList_ofList] at hnul
    have hname := mem_of_mem_splitOn (List.mem_of_mem_getLast? hpart) hnul
    unfold components at hlast
    dsimp only at hlast
    obtain hstart | hcomp := List.mem_append.1 (List.mem_of_mem_getLast? hlast)
    · split_ifs at hstart <;> simp at hstart
    · obtain ⟨text, htext, hcomponent⟩ := List.mem_filterMap.1 hcomp
      unfold component? at hcomponent
      split_ifs at hcomponent
      · cases hcomponent
      · cases hcomponent
        rw [String.toList_ofList] at hname
        exact h (mem_of_mem_splitOn htext hname)
  · cases hext

theorem bind_toStr_extension {path : String} (h : TextName path) :
    (extension path).bind toStr = extension path := by
  cases hext : extension path with
  | none => rfl
  | some ext => exact toStr_text (textName_extension h hext)

/-- Append the components to the text, each after a slash. -/
def pushNormal : List Component → String → Option String
  | [], normalized => some normalized
  | .curDir :: cs, normalized => pushNormal cs normalized
  | .normal part :: cs, normalized =>
    pushNormal cs (if normalized = "" then toStringLossy part else normalized ++ "/" ++ toStringLossy part)
  | .rootDir :: _, _ => none
  | .parentDir :: _, _ => none

/-- The candidate's path below the root, with forward slashes. -/
def normalizeRelativePath (rootPath candidatePath : String) : Option String :=
  (stripPrefix candidatePath rootPath).bind fun relativePath => pushNormal relativePath ""

/-! ## Absolute paths, name by name -/

theorem normal_injective : Function.Injective Component.normal := fun _ _ => Component.normal.inj

/-- What an entry of a directory may be called. -/
def ValidName (name : String) : Prop :=
  name ≠ "" ∧ name ≠ "." ∧ name ≠ ".." ∧ '/' ∉ name.toList

instance (name : String) : Decidable (ValidName name) := inferInstanceAs (Decidable (_ ∧ _))

/-- What stands between the slashes of an absolute path. -/
def pathParts (names : List String) : List (List Char) :=
  [] :: if names = [] then [[]] else names.map String.toList

/-- The absolute path of an entry, as text. -/
def pathText (names : List String) : String := String.ofList (['/'].intercalate (pathParts names))

section
variable {names rest : List String}

theorem splitOn_pathText (h : ∀ n ∈ names, ValidName n) :
    (pathText names).toList.splitOn '/' = pathParts names := by
  rw [pathText, String.toList_ofList]
  refine List.splitOn_intercalate '/' ?_ (List.cons_ne_nil _ _)
  intro part hpart
  unfold pathParts at hpart
  split_ifs at hpart
  · simp_all
  · obtain rfl | hpart := List.mem_cons.1 hpart
    · exact List.not_mem_nil
    · obtain ⟨n, hn, rfl⟩ := List.mem_map.1 hpart
      exact (h n hn).2.2.2

theorem intercalate_names (part : List Char) :
    ['/'].intercalate (part :: names.map String.toList) = part ++ names.flatMap fun n => '/' :: n.toList := by
  induction names generalizing part with
  | nil => simp
  | cons n names ih =>
    rw [List.map_cons, List.intercalate_cons_cons, ih, List.flatMap_cons]
    simp

theorem toList_pathText (hne : names ≠ []) :
    (pathText names).toList = names.flatMap fun n => '/' :: n.toList := by
  unfold pathText pathParts
  rw [String.toList_ofList, if_neg hne, intercalate_names, List.nil_append]

theorem head_pathText : (pathText names).toList.head? = some '/' := by
  rw [pathText, String.toList_ofList, pathParts]
  split_ifs with hnil
  · rfl
  · cases names with
    | nil => exact absurd rfl hnil
    | cons n names => simp [List.intercalate]

theorem component?_name {n : String} (h : ValidName n) : component? n.toList = some (.normal n) := by
  obtain ⟨hempty, hdot, hdots, -⟩ := h
  have hne : ∀ cs, n ≠ String.ofList cs → n.toList ≠ cs := by
    rintro _ hn rfl
    exact hn (String.ofList_toList).symm
  unfold component?
  rw [if_neg (not_or.2 ⟨hne [] hempty, hne ['.'] hdot⟩), if_neg (hne ['.', '.'] hdots),
    String.ofList_toList]

/-- The components of an absolute path are its names. -/
theorem components_pathText (h : ∀ n ∈ names, ValidName n) :
    components (pathText names) = .rootDir :: names.map .normal := by
  unfold components
  dsimp only
  rw [splitOn_pathText h, if_pos head_pathText]
  unfold pathParts
  split_ifs with hnil
  · subst hnil
    rfl
  · have hmap : (names.map String.toList).filterMap component? = names.map .normal := by
      rw [List.filterMap_map, ← List.filterMap_eq_map]
      refine List.filterMap_congr ?_
      intro n hn
      exact component?_name (h n hn)
    show [Component.rootDir] ++ ([] :: names.map String.toList).filterMap component? = _
    rw [List.filterMap_cons_none rfl, hmap]
    rfl

theorem pathText_injective {names' : List String} (h : ∀ n ∈ names, ValidName n)
    (h' : ∀ n ∈ names', ValidName n) (heq : pathText names = pathText names') : names = names' := by
  have hcomp := components_pathText h
  rw [heq, components_pathText h'] at hcomp
  exact List.map_injective_iff.2 normal_injective (List.cons.inj hcomp).2.symm

/-- A prefix is stripped where its names come first, as whole names. -/
theorem stripPrefix_pathText {base : List String} (h : ∀ n ∈ names, ValidName n)
    (hbase : ∀ n ∈ base, ValidName n) : stripPrefix (pathText names) (pathText base) =
      if base <+: names then some ((names.drop base.length).map .normal) else none := by
  unfold stripPrefix
  rw [components_pathText h, components_pathText hbase]
  split_ifs with hpre
  · obtain ⟨below, rfl⟩ := hpre
    rw [stripComponents_eq_some, List.drop_left, List.map_append, List.cons_append]
  · rw [Option.eq_none_iff_forall_ne_some]
    intro relative hrel
    have heq := List.cons.inj (stripComponents_eq_some.1 hrel)
    have hmap : base.map Component.normal <+: names.map .normal := ⟨relative, heq.2.symm⟩
    exact hpre ((List.prefix_map_iff_of_injective normal_injective).1 hmap)

theorem pathStartsWith_pathText {base : List String} (h : ∀ n ∈ names, ValidName n)
    (hbase : ∀ n ∈ base, ValidName n) :
    pathStartsWith (pathText names) (pathText base) = true ↔ base <+: names := by
  unfold pathStartsWith
  rw [stripPrefix_pathText h hbase]
  split_ifs with hpre <;> simp [hpre]

theorem samePath_pathText {names' : List String} (h : ∀ n ∈ names, ValidName n)
    (h' : ∀ n ∈ names', ValidName n) : samePath (pathText names) (pathText names') = true ↔ names = names' := by
  unfold samePath
  rw [components_pathText h, components_pathText h', decide_eq_true_iff, List.cons_inj_right]
  exact (List.map_injective_iff.2 normal_injective).eq_iff

theorem components_absolute {path : String} (h : path.toList.head? = some '/') :
    components path = .rootDir :: (path.toList.splitOn '/').filterMap component? := by
  unfold components
  dsimp only
  rw [if_pos h]
  rfl

/-- What lies below an entry lies below what the entry lies below. -/
theorem pathStartsWith_below {root path : String} {below : List Char}
    (hroot : pathStartsWith (pathText names) root = true)
    (hpath : path.toList = (if names = [] then [] else (pathText names).toList) ++ '/' :: below) :
    pathStartsWith path root = true := by
  obtain ⟨rest, hrest⟩ := Option.isSome_iff_exists.1 hroot
  have hnames := stripComponents_eq_some.1 hrest
  have hhead : path.toList.head? = some '/' := by
    rw [hpath]
    split_ifs
    · rfl
    · rw [List.head?_append, head_pathText]
      rfl
  have hcomponents : components path =
      components (pathText names) ++ (below.splitOn '/').filterMap component? := by
    rw [components_absolute hhead, components_absolute head_pathText, hpath, List.splitOn_append_cons_self,
      List.filterMap_append]
    split_ifs with hnil
    · rw [hnil]
      rfl
    · rfl
  refine Option.isSome_iff_exists.2 ⟨rest ++ (below.splitOn '/').filterMap component?,
    stripComponents_eq_some.2 ?_⟩
  rw [hcomponents, hnames, List.append_assoc]

end

example : normalizeRelativePath "/tmp/root" "/tmp/root/src/nested/file.txt" =
    some "src/nested/file.txt" := by decide +kernel

end Ask
