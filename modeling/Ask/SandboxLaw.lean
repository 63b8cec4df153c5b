/-
  Whether an ingest stays inside the resource root.

  A tracked path may be a link, and the file behind it is stored under its own
  path, wherever that is.  What a walk calls a file is reached from the walk's
  root by names alone; but the queue keeps the root as text, and where its path
  is none the text may name another directory.  So a job is confined if and only
  if nothing that it takes up, be it tracked or walked, leads out of the root.
-/
import Ask.OrderLaw
import Ask.Sandbox

namespace Ask

open Lib Lib.OsStr Act

variable {Named : String → Prop} {E : Env} {host : Host Named} {mayFail : Prop} {resourceRoot : String}
  {α β : Type}

/-! ## Paths of the host -/

namespace Host

variable {names : List String} {path p : String}

theorem pathText_ne : pathText names ≠ "" := by
  intro h
  have hhead : (pathText names).toList.head? = some '/' := head_pathText
  rw [h] at hhead
  cases hhead

theorem hop_name {n : String} (h : ValidName n) : hop n.toList = .name n := by
  have hcomp := component?_name h
  unfold component? at hcomp
  unfold hop
  split_ifs at hcomp ⊢
  · cases hcomp
  · rw [String.ofList_toList]

theorem hops_pathText (h : ∀ n ∈ names, ValidName n) :
    hops (pathText names) = .root :: .here :: if names = [] then [.here] else names.map .name := by
  unfold hops
  rw [splitOn_pathText h, if_pos head_pathText]
  unfold pathParts
  split_ifs with hnil
  · rfl
  · have hmap : (names.map String.toList).map hop = names.map .name := by
      rw [List.map_map]
      exact List.map_congr_left fun n hn => hop_name (h n hn)
    show [Hop.root] ++ hop [] :: (names.map String.toList).map hop = _
    rw [hmap]
    rfl

/-- The path of a directory or a file leads to it. -/
theorem resolve_pathText (h : host.tree.Real names) : host.resolve (pathText names) = some names := by
  unfold resolve
  rw [if_neg pathText_ne, hops_pathText (host.valid names h.ne_none)]
  split_ifs with hnil
  · subst hnil
    exact FileTree.resolve_root_here
  · exact FileTree.resolve_names h

theorem real_of_resolve (h : host.resolve path = some names) : host.tree.Real names := by
  unfold resolve at h
  split_ifs at h
  exact FileTree.real_of_resolve host.cwd_dir h

theorem canonicalize_eq_some (h : host.canonicalize path = some p) :
    ∃ names, p = pathText names ∧ host.tree.Real names := by
  obtain ⟨names, hnames, rfl⟩ := Option.map_eq_some_iff.1 h
  exact ⟨names, rfl, real_of_resolve hnames⟩

theorem canonicalize_pathText (h : host.tree.Real names) :
    host.canonicalize (pathText names) = some (pathText names) := by
  rw [canonicalize, resolve_pathText h]
  rfl

theorem isDir_pathText (h : host.tree.Real names) :
    host.isDir (pathText names) = true ↔ host.tree.node names = some .dir := by
  unfold isDir stat
  rw [resolve_pathText h, Option.bind_some]
  constructor
  · intro hdir
    split at hdir
    · assumption
    · cases hdir
  · intro hdir
    rw [hdir]

theorem textName_pathText (h : ∀ n ∈ names, TextName n) : TextName (pathText names) := by
  unfold TextName
  by_cases hnil : names = []
  · subst hnil
    decide
  · rw [toList_pathText hnil, List.mem_flatMap]
    rintro ⟨n, hn, hmem⟩
    obtain hmem | hmem := List.mem_cons.1 hmem
    · exact absurd hmem (by decide)
    · exact h n hn hmem

/-- Where names are text, so is every resolved path. -/
theorem textName_canonicalize {host : Host} (h : host.canonicalize path = some p) : TextName p := by
  obtain ⟨names, rfl, hreal⟩ := canonicalize_eq_some h
  exact textName_pathText (host.named names hreal.ne_none)

/-- A host with text for names, as one with any names. -/
def toOs (host : Host) : Host OsName where
  tree := host.tree
  valid := host.valid
  named names h n hn := (host.named names h n hn).osName
  cwd := host.cwd
  cwd_dir := host.cwd_dir
  readDir := host.readDir
  revParse := host.revParse
  lsFiles := host.lsFiles
  walk := host.walk
  walk_file := host.walk_file

end Host

/-! ## Confinement -/

/-- Every document row that is there now and was not before lies below the root. -/
def WroteInside (resourceRoot : String) (w w' : World) : Prop :=
  ∀ d ∈ w'.store.documents.rows, d ∉ w.store.documents.rows → pathStartsWith d.filepath resourceRoot = true

/-- A dispatch on a host, among workers that may do anything. -/
def sandbox (host : Host Named) (mayFail : Prop) (resourceRoot : String) : Setting World Req Req.Ans :=
  ⟨host.Answers mayFail, fun _ _ => True, fun w _ _ w' => WroteInside resourceRoot w w'⟩

/-- From any world, every document row that the program writes lies below the root. -/
def Confined (host : Host Named) (mayFail : Prop) (resourceRoot : String) (p : Act α) : Prop :=
  ∀ w, Task.Sat (sandbox host mayFail resourceRoot) p (fun _ _ => True) w

theorem WroteInside.of_subset {w w' : World}
    (h : ∀ d ∈ w'.store.documents.rows, d ∈ w.store.documents.rows) : WroteInside resourceRoot w w' :=
  fun d hd hnew => absurd (h d hd) hnew

section
variable {p : Act α} {f : α → Act β}

theorem confined_pure {a : α} : Confined host mayFail resourceRoot (pure a) := fun _ => trivial

theorem Confined.bind (hp : Confined host mayFail resourceRoot p)
    (hf : ∀ a, Confined host mayFail resourceRoot (f a)) : Confined host mayFail resourceRoot (p >>= f) := by
  intro w
  rw [Task.sat_bind]
  refine (hp w).mono ?_
  intro x w' _
  cases x with
  | ok a => exact hf a w'
  | error e => trivial

theorem Confined.andThen {f : Except AnyError α → Act β} (hp : Confined host mayFail resourceRoot p)
    (hf : ∀ x, Confined host mayFail resourceRoot (f x)) :
    Confined host mayFail resourceRoot (p.andThen f) := by
  intro w
  rw [Task.sat_andThen]
  exact (hp w).mono fun x w' _ => hf x w'

theorem Confined.context {text : String} (hp : Confined host mayFail resourceRoot p) :
    Confined host mayFail resourceRoot (context text p) := by
  intro w
  rw [Act.context, Task.sat_mapError]
  exact (hp w).mono fun _ _ _ => trivial

theorem confined_each {f : α → Act Unit} {as : List α}
    (hf : ∀ a ∈ as, Confined host mayFail resourceRoot (f a)) :
    Confined host mayFail resourceRoot (Task.each f as) :=
  fun _ => Task.sat_each (fun a ha w _ => hf a ha w) trivial

end

/-- Anything but an upsert. -/
def NoUpsert : Req → Prop
  | .db (.upsertDocument _ _ _ _) => False
  | _ => True

theorem FileReq.noUpsert {r : Req} (h : FileReq r) : NoUpsert r := by
  cases r with
  | db op => exact h.elim
  | _ => trivial

/-- Only an upsert adds documents. -/
theorem documents_of_noUpsert {r : Req} (hr : NoUpsert r) {w w' : World} (h : Changes w r w') :
    ∀ d ∈ w'.store.documents.rows, d ∈ w.store.documents.rows := by
  intro d hd
  cases h with
  | @committed op v store hok =>
    cases op with
    | upsertDocument doc modelId chunks now => exact hr.elim
    | findDocument id =>
      obtain ⟨-, rfl⟩ := Tx.ok_query.1 hok
      exact hd
    | findModel id =>
      obtain ⟨-, rfl⟩ := Tx.ok_query.1 hok
      exact hd
    | listRecoverable docId modelId =>
      obtain ⟨-, rfl⟩ := Tx.ok_query.1 hok
      exact hd
    | completeJob jobId =>
      obtain rfl := ok_exec_ok.1 hok
      exact hd
    | deferJob jobId now retryAfterSecs =>
      obtain rfl := ok_exec_ok.1 hok
      exact hd
    | deleteDocument docId =>
      obtain rfl := ok_deleteDocument hok
      exact (AutoTable.mem_delete.1 hd).1
    | replaceEmbeddings docId modelId chunks now =>
      show d ∈ w.store.documents.rows
      rw [← (ok_replaceEmbeddingsForDocumentModel hok).documents]
      exact hd
  | called r c => exact hd
  | same r => exact hd

theorem confined_of_calls {p : Act α} (hp : Task.Calls NoUpsert p) : Confined host mayFail resourceRoot p := by
  intro w
  refine (Proc.Calls.sat (I := fun _ => True) hp (fun _ _ _ _ => trivial) ?_ trivial).mono
    fun _ _ _ => trivial
  intro w r a w' hr hans _
  exact ⟨.of_subset (documents_of_noUpsert hr hans.1.changes), trivial⟩

/-- A request other than an upsert, and the program after each answer of the host. -/
theorem confined_ask {r : Req} {f : r.Ans → Act β} (hr : NoUpsert r)
    (hf : ∀ a, host.Says mayFail r a → Confined host mayFail resourceRoot (f a)) :
    Confined host mayFail resourceRoot (ask r >>= f) := by
  intro w
  rw [Task.sat_bind]
  rintro w₁ - a w₂ hans
  exact ⟨.of_subset (documents_of_noUpsert hr hans.1.changes), hf a hans.2 w₂⟩

/-- The document row an upsert writes has the path of its document. -/
theorem wroteInside_upsert {doc : Document} {modelId now : ℤ} {chunks : List ChunkRef} {w w' : World}
    (hpath : pathStartsWith doc.filepath resourceRoot = true)
    (h : Changes w (.db (.upsertDocument doc modelId chunks now)) w') : WroteInside resourceRoot w w' := by
  cases h with
  | @committed op v store hok =>
    obtain ⟨id, changed⟩ := v
    obtain ⟨-, rfl, -⟩ | ⟨-, s₁, hi⟩ := ok_upsertDocumentAndReplacePendingEmbeddings hok
    · exact .of_subset fun _ hd => hd
    · intro d hd hnew
      rw [hi.documents, hi.written.mem] at hd
      obtain rfl | ⟨hold, -⟩ := hd
      · exact hpath
      · exact absurd hold hnew
  | called r c => exact .of_subset fun _ hd => hd
  | same r => exact .of_subset fun _ hd => hd

theorem confined_upsert {doc : Document} {modelId now : ℤ} {chunks : List ChunkRef}
    (hpath : pathStartsWith doc.filepath resourceRoot = true) :
    Confined host mayFail resourceRoot (db (.upsertDocument doc modelId chunks now)) := by
  intro w
  rw [sat_db]
  rintro w₁ - a w₂ hans
  exact ⟨wroteInside_upsert hpath hans.1.changes, trivial⟩

/-! ## Candidates -/

/-- A candidate below the root that matches the pattern and that the git filter keeps. -/
def Passes (requestRoot : String) (isMatch : String → Bool) (applyGitFilters : Bool)
    (candidatePath : String) : Prop :=
  (∃ relativePath, normalizeRelativePath requestRoot candidatePath = some relativePath ∧
    isMatch relativePath = true) ∧ (applyGitFilters && shouldSkipGitCandidate candidatePath) = false

/-- A candidate that passes and leads to the file at `p`. -/
structure Leads (host : Host Named) (requestRoot : String) (isMatch : String → Bool) (applyGitFilters : Bool)
    (candidatePath p : String) : Prop where
  passes : Passes requestRoot isMatch applyGitFilters candidatePath
  canonical : host.canonicalize candidatePath = some p
  file : host.view p ≠ none

/-- What `ingest_candidate_file` does with a candidate that passes. -/
def ingestResolved (E : Env) (candidatePath : String) (model : EmbeddingModel) : Act Unit := do
  let canonical : Except IoError String ← ask (.canonicalize candidatePath)
  match canonical with
  | .error _ => pure ()
  | .ok canonicalPath =>
    match ← tryMetadata canonicalPath with
    | .error _ => pure ()
    | .ok metadata => if !metadata.isFile then pure () else ingestFile E canonicalPath metadata model

section
variable {requestRoot candidatePath : String} {isMatch : String → Bool} {model : EmbeddingModel}
  {applyGitFilters : Bool}

theorem ingestCandidateFile_passes (h : Passes requestRoot isMatch applyGitFilters candidatePath) :
    ingestCandidateFile E requestRoot candidatePath isMatch model applyGitFilters =
      ingestResolved E candidatePath model := by
  obtain ⟨⟨relativePath, hrel, hmatch⟩, hkept⟩ := h
  unfold ingestCandidateFile
  rw [hrel]
  dsimp only
  rw [hmatch, hkept]
  rfl

theorem ingestCandidateFile_skipped (h : ¬Passes requestRoot isMatch applyGitFilters candidatePath) :
    ingestCandidateFile E requestRoot candidatePath isMatch model applyGitFilters = pure () := by
  unfold ingestCandidateFile
  split
  · rfl
  · rename_i relativePath hrel
    split_ifs with hmatch hkept
    · rfl
    · rfl
    · exact absurd ⟨⟨relativePath, hrel, by simpa using hmatch⟩, by simpa using hkept⟩ h

end

theorem confined_ingestFile {path : String} {metadata : Metadata} {model : EmbeddingModel}
    (hin : pathStartsWith (toStringLossy path) resourceRoot = true) :
    Confined host mayFail resourceRoot (ingestFile E path metadata model) := by
  refine Confined.bind (confined_of_calls (Task.calls_ask (r := Req.now) trivial)) ?_
  intro now
  refine Confined.bind (Confined.andThen (confined_of_calls ((calls_hashFile E path).mono fun _ =>
    FileReq.noUpsert)) fun _ => confined_pure) ?_
  intro hashed
  cases hashed with
  | error e => exact confined_pure
  | ok fileHash =>
    refine Confined.bind (Confined.andThen (confined_of_calls
      ((calls_readPrefixWithBudget path _).mono fun _ => FileReq.noUpsert)) fun _ => confined_pure) ?_
    intro read
    refine Confined.bind (confined_of_calls (calls_context (calls_connect trivial))) fun _ => ?_
    exact Confined.bind (Confined.context (confined_upsert hin)) fun _ => confined_pure

theorem confined_ingestResolved {candidatePath : String} {model : EmbeddingModel}
    (hin : ∀ p, host.canonicalize candidatePath = some p → host.view p ≠ none →
      pathStartsWith (toStringLossy p) resourceRoot = true) :
    Confined host mayFail resourceRoot (ingestResolved E candidatePath model) := by
  refine confined_ask trivial ?_
  intro canonical hsays
  cases canonical with
  | error e => exact confined_pure
  | ok canonicalPath =>
    have hcanonical : host.canonicalize candidatePath = some canonicalPath := by
      obtain ⟨p, hp, heq⟩ | ⟨-, e, heq⟩ := hsays
      · cases heq
        exact hp
      · cases heq
    intro w
    show Task.Sat _ (ask (.metadata canonicalPath) >>= _) _ _
    rw [Task.sat_bind]
    rintro w₁ - found w₂ hans
    refine ⟨.of_subset (documents_of_noUpsert (r := .metadata canonicalPath) trivial hans.1.changes), ?_⟩
    cases found with
    | error e => trivial
    | ok metadata =>
      show Task.Sat _ (if !metadata.isFile then _ else _) _ _
      split_ifs with hfile
      · trivial
      · refine confined_ingestFile (hin canonicalPath hcanonical ?_) w₂
        -- an answer that tells of a file comes from the tree
        obtain ⟨-, ⟨file, m, hview, -⟩ | ⟨-, ⟨m, heq, hm⟩ | ⟨e, heq, -⟩⟩ | ⟨-, e, heq, -⟩⟩ := hans.1
        · rw [hview]
          exact Option.some_ne_none file
        · cases heq
          exact absurd (by simp [hm]) hfile
        · cases heq
        · cases heq

/-- The file that a candidate leads to, if it passes, is recorded inside the resource root. -/
def LeadsInside (host : Host Named) (resourceRoot requestRoot : String) (isMatch : String → Bool)
    (applyGitFilters : Bool) (candidatePath : String) : Prop :=
  ∀ p, Leads host requestRoot isMatch applyGitFilters candidatePath p →
    pathStartsWith (toStringLossy p) resourceRoot = true

/-- A candidate is confined when the file it leads to is inside. -/
theorem confined_ingestCandidateFile {requestRoot candidatePath : String} {isMatch : String → Bool}
    {model : EmbeddingModel} {applyGitFilters : Bool}
    (hin : LeadsInside host resourceRoot requestRoot isMatch applyGitFilters candidatePath) :
    Confined host mayFail resourceRoot
      (ingestCandidateFile E requestRoot candidatePath isMatch model applyGitFilters) := by
  by_cases hpass : Passes requestRoot isMatch applyGitFilters candidatePath
  · rw [ingestCandidateFile_passes hpass]
    exact confined_ingestResolved fun p hcanonical hview => hin p ⟨hpass, hcanonical, hview⟩
  · rw [ingestCandidateFile_skipped hpass]
    exact confined_pure

/-! ## Walks -/

/-- The entries of a walk that are visited. -/
def Host.visited (host : Host Named) (walkRoot : String) (skippedRoots : List String) :
    List (Except String DirEntry) :=
  (host.walk walkRoot).filter fun entry =>
    match entry with
    | .ok entry => shouldVisitWalkEntry entry.path walkRoot skippedRoots
    | .error _ => true

/-- The files that a walk reports. -/
def Host.walkedCandidates (host : Host Named) (walkRoot : String) (skippedRoots : List String) : List String :=
  (host.visited walkRoot skippedRoots).filterMap fun entry =>
    match entry with
    | .ok entry => if entry.isFile = some true then some entry.path else none
    | .error _ => none

section
variable {requestRoot walkRoot : String} {isMatch : String → Bool} {model : EmbeddingModel}
  {skippedRoots : List String} {applyGitFilters : Bool}

theorem Host.mem_walkedCandidates {c : String} : c ∈ host.walkedCandidates walkRoot skippedRoots ↔
    ∃ entry, .ok entry ∈ host.visited walkRoot skippedRoots ∧ entry.isFile = some true ∧ entry.path = c := by
  unfold walkedCandidates
  rw [List.mem_filterMap]
  constructor
  · rintro ⟨entry, hentry, hc⟩
    cases entry with
    | error e => cases hc
    | ok entry =>
      dsimp only at hc
      split_ifs at hc with hfile
      exact ⟨entry, hentry, hfile, Option.some.inj hc⟩
  · rintro ⟨entry, hentry, hfile, rfl⟩
    exact ⟨.ok entry, hentry, if_pos hfile⟩

/-- A walk is confined when nothing it reports leads out. -/
theorem confined_ingestWalkRoot
    (hin : ∀ c ∈ host.walkedCandidates walkRoot skippedRoots,
      LeadsInside host resourceRoot requestRoot isMatch applyGitFilters c) :
    Confined host mayFail resourceRoot
      (ingestWalkRoot E requestRoot walkRoot isMatch model skippedRoots applyGitFilters) := by
  unfold ingestWalkRoot
  refine confined_ask trivial ?_
  intro walker hwalker
  obtain rfl : walker = host.walk walkRoot := hwalker
  refine confined_each fun entry hentry => ?_
  unfold ingestWalkEntry
  split
  · exact confined_pure
  · rename_i entry
    split_ifs with hisFile
    · exact confined_ingestCandidateFile (hin _ (Host.mem_walkedCandidates.2 ⟨entry, hentry, hisFile, rfl⟩))
    · exact confined_pure

/-- What is walked below a directory inside the resource root stays inside, if the path of the directory is
    text. -/
theorem leadsInside_walked {root : List String} (hroot : host.tree.node root = some .dir)
    (htext : TextName (pathText root)) (hin : pathStartsWith (pathText root) resourceRoot = true) :
    ∀ c ∈ host.walkedCandidates (pathText root) skippedRoots,
      LeadsInside host resourceRoot requestRoot isMatch applyGitFilters c := by
  intro c hc p hp
  obtain ⟨entry, hentry, hisFile, rfl⟩ := Host.mem_walkedCandidates.1 hc
  obtain ⟨names, content, hpath, hfile⟩ :=
    host.walk_file root entry hroot (List.mem_filter.1 hentry).1 hisFile
  have hcanonical := hp.canonical
  rw [hpath, Host.canonicalize_pathText (.inr ⟨content, hfile⟩)] at hcanonical
  obtain rfl := Option.some.inj hcanonical
  have hne : names ≠ [] := by
    rintro rfl
    rw [List.append_nil, hroot] at hfile
    cases hfile
  -- the path is the root's, a slash and more; the root's is kept
  obtain ⟨n, names, rfl⟩ := List.exists_cons_of_ne_nil hne
  have hkept : '\x00' ∉ (if root = [] then [] else (pathText root).toList) := by
    split_ifs
    · exact List.not_mem_nil
    · exact htext
  have hprefix : (pathText (root ++ n :: names)).toList = (if root = [] then [] else (pathText root).toList) ++
      '/' :: (n.toList ++ names.flatMap fun m => '/' :: m.toList) := by
    rw [toList_pathText (by simp), List.flatMap_append, List.flatMap_cons]
    split_ifs with hnil
    · rw [hnil]
      rfl
    · rw [toList_pathText hnil]
      rfl
  have hlossy : (toStringLossy (pathText (root ++ n :: names))).toList =
      (if root = [] then [] else (pathText root).toList) ++
        '/' :: lossyFrom none (n.toList ++ names.flatMap fun m => '/' :: m.toList) := by
    rw [toStringLossy, String.toList_ofList, hprefix, lossyFrom_append hkept]
    rfl
  exact pathStartsWith_below hin hlossy

end

/-! ## Repositories -/

/-- What git lists is read path by path: none is left out, and their bytes stay what they are. -/
theorem Host.bytesOf_parseGitPathList (stdout : Bytes) :
    (parseGitPathList stdout).map bytesOf = (stdout.splitOn 0).filter (· ≠ []) := by
  have hread : bytesOf ∘ spell = id := funext fun _ => bytesOf_spell
  rw [parseGitPathList, List.map_map, hread, List.map_id]

/-- The candidates of the repositories, up to the first whose files git does not list. -/
def Host.trackedCandidates (host : Host Named) : List String → List String
  | [] => []
  | repoRoot :: repoRoots =>
    match host.gitListTrackedFiles repoRoot with
    | .error _ => []
    | .ok tracked => tracked.map (joinPath repoRoot) ++ trackedCandidates host repoRoots

/-- Git lists the files of all of them. -/
def Host.AllListed (host : Host Named) (repoRoots : List String) : Prop :=
  ∀ repoRoot ∈ repoRoots, ∃ tracked, host.gitListTrackedFiles repoRoot = .ok tracked

theorem Host.trackedCandidates_ok {repoRoot : String} {repoRoots tracked : List String}
    (h : host.gitListTrackedFiles repoRoot = .ok tracked) :
    host.trackedCandidates (repoRoot :: repoRoots) =
      tracked.map (joinPath repoRoot) ++ host.trackedCandidates repoRoots := by
  rw [trackedCandidates, h]

/-- What no repository holds is walked from the root itself. -/
theorem Host.fallbackRoot_eq {fuel : ℕ} {rootPath fallbackRoot : String} {plan : GitIngestPlan}
    (h : host.buildGitIngestPlan fuel rootPath = some (.ok plan))
    (hfallback : plan.fallbackRoot = some fallbackRoot) : fallbackRoot = rootPath := by
  unfold buildGitIngestPlan at h
  split at h
  · cases h
  · cases h
    cases hfallback
  · obtain ⟨found, -, h⟩ := Option.map_eq_some_iff.1 h
    cases found with
    | error e => cases h
    | ok found =>
      cases h
      exact (Option.some.inj hfallback).symm

section
variable {requestRoot repoRoot : String} {repoRoots : List String} {isMatch : String → Bool}
  {model : EmbeddingModel}

/-- A repository: when it ends well, git has listed its files. -/
theorem sat_ingestGitRepo
    (hin : ∀ tracked, host.gitListTrackedFiles repoRoot = .ok tracked →
      ∀ c ∈ tracked.map (joinPath repoRoot), LeadsInside host resourceRoot requestRoot isMatch true c)
    (w : World) :
    Task.Sat (sandbox host mayFail resourceRoot) (ingestGitRepo E requestRoot repoRoot isMatch model)
      (fun x _ => x = .ok () → ∃ tracked, host.gitListTrackedFiles repoRoot = .ok tracked) w := by
  unfold ingestGitRepo
  rw [Task.sat_bind]
  rintro w₁ - answer w₂ hans
  refine ⟨.of_subset (documents_of_noUpsert (r := .trackedFiles repoRoot) trivial hans.1.changes), ?_⟩
  cases answer with
  | error e =>
    intro hx
    cases hx
  | ok tracked =>
    have hlist : host.gitListTrackedFiles repoRoot = .ok tracked := by
      obtain heq | ⟨-, e, heq⟩ := hans.2
      · exact heq.symm
      · cases heq
    have heach : Confined host mayFail resourceRoot (Task.each (fun trackedPath =>
        ingestCandidateFile E requestRoot (joinPath repoRoot trackedPath) isMatch model true) tracked) := by
      refine confined_each fun trackedPath htracked => ?_
      exact confined_ingestCandidateFile (hin tracked hlist _ (List.mem_map_of_mem htracked))
    exact (heach w₂).mono fun _ _ _ _ => ⟨tracked, hlist⟩

/-- The repositories, when no tracked path leads out: when they end well, git has listed all files. -/
theorem sat_repos
    (hin : ∀ c ∈ host.trackedCandidates repoRoots, LeadsInside host resourceRoot requestRoot isMatch true c)
    (w : World) : Task.Sat (sandbox host mayFail resourceRoot)
      (Task.each (fun repoRoot => ingestGitRepo E requestRoot repoRoot isMatch model) repoRoots)
      (fun x _ => x = .ok () → host.AllListed repoRoots) w := by
  induction repoRoots generalizing w with
  | nil => exact fun _ repoRoot h => absurd h List.not_mem_nil
  | cons repoRoot repoRoots ih =>
    rw [Task.each, Task.sat_bind]
    refine (sat_ingestGitRepo (fun tracked hlist c hc => ?_) w).mono ?_
    · refine hin c ?_
      rw [Host.trackedCandidates_ok hlist]
      exact List.mem_append_left _ hc
    · intro x w' hx
      cases x with
      | error e =>
        intro h
        cases h
      | ok u =>
        obtain ⟨tracked, hlist⟩ := hx rfl
        refine (ih (fun c hc => hin c ?_) w').mono ?_
        · rw [Host.trackedCandidates_ok hlist]
          exact List.mem_append_right _ hc
        · intro x w' hrest hx
          exact List.forall_mem_cons.2 ⟨⟨tracked, hlist⟩, hrest hx⟩

end

/-! ## Jobs -/

/-- The payload of an accepted request: the text of its root with all links resolved, and its pattern. -/
def IngestRequest.payload? (host : Host Named) (body : IngestRequest) : Option IngestFolderPayload :=
  (host.canonicalize (ofText body.rootPath)).map fun rootPath =>
    ⟨toStringLossy rootPath, body.filePattern.getD defaultFilePattern⟩

theorem calls_loadIngestModel (ctx : JobContext) : Task.Calls NoUpsert (loadIngestModel ctx) :=
  Task.calls_bind (calls_context (calls_connect trivial)) fun _ =>
    Task.calls_bind (calls_db trivial) fun _ => calls_someOr _ _

theorem calls_finishJob (entry : JobQueueEntry) (x : Except AnyError Unit) :
    Task.Calls NoUpsert (finishJob entry x) := by
  unfold finishJob
  split
  · exact Task.calls_bind (calls_context (calls_connect trivial)) fun _ => calls_context (calls_db trivial)
  · split
    · exact Task.calls_bind (Task.calls_ask (r := Req.now) trivial) fun _ =>
        Task.calls_bind (Task.calls_bind (calls_context (calls_connect trivial)) fun _ =>
          calls_context (calls_db trivial)) fun _ => Task.calls_fail
    · exact Task.calls_fail

theorem confined_withIngestRoot {ctx : JobContext}
    {body : IngestFolderPayload → (String → Bool) → EmbeddingModel → Act Unit}
    (hbody : ∀ payload isMatch model, E.decodeIngestPayload ctx.entry.payload = .ok payload →
      E.compilePattern payload.filePattern = .ok isMatch → host.isDir payload.rootPath = true →
        Confined host mayFail resourceRoot (body payload isMatch model)) :
    Confined host mayFail resourceRoot (withIngestRoot E ctx body) := by
  unfold withIngestRoot
  cases hpayload : E.decodeIngestPayload ctx.entry.payload with
  | error e => exact fun _ => trivial
  | ok payload =>
    show Confined host mayFail resourceRoot
      (context _ (context _ (Task.ofExcept (E.compilePattern payload.filePattern))) >>= _)
    cases hmatch : E.compilePattern payload.filePattern with
    | error e => exact fun _ => trivial
    | ok isMatch =>
      show Confined host mayFail resourceRoot (ask (.isDir payload.rootPath) >>= _)
      refine confined_ask trivial ?_
      intro isDir hsays
      cases isDir with
      | false => exact confined_pure
      | true =>
        refine Confined.bind (confined_of_calls (calls_loadIngestModel ctx)) fun model => ?_
        refine hbody payload isMatch model hpayload hmatch ?_
        obtain h | ⟨-, h⟩ := hsays
        · exact h.symm
        · cases h

/-- What the job of a route takes up at a root, and whether the git filters apply to it. -/
inductive TakesUp (host : Host Named) (rootPath : String) : IngestRoute → Bool → String → Prop
  | walked {c : String} : c ∈ host.walkedCandidates rootPath [] → TakesUp host rootPath .ingest false c
  | tracked {fuel : ℕ} {plan : GitIngestPlan} {c : String} :
      host.buildGitIngestPlan fuel rootPath = some (.ok plan) → c ∈ host.trackedCandidates plan.repoRoots →
      TakesUp host rootPath .ingestGit true c
  | rest {fuel : ℕ} {plan : GitIngestPlan} {fallbackRoot c : String} :
      host.buildGitIngestPlan fuel rootPath = some (.ok plan) → plan.fallbackRoot = some fallbackRoot →
      host.AllListed plan.repoRoots → c ∈ host.walkedCandidates fallbackRoot plan.skippedWalkRoots →
      TakesUp host rootPath .ingestGit false c

/-- What the job of a request takes up with the git filters, or without them, leads to no file outside the
    resource root. -/
def TakenInside (E : Env) (host : Host Named) (resourceRoot : String) (route : IngestRoute)
    (body : IngestRequest) (applyGitFilters : Bool) : Prop :=
  ∀ payload isMatch, body.payload? host = some payload → E.compilePattern payload.filePattern = .ok isMatch →
    host.isDir payload.rootPath = true → ∀ c, TakesUp host payload.rootPath route applyGitFilters c →
      LeadsInside host resourceRoot payload.rootPath isMatch applyGitFilters c

/-- No tracked path that the job takes up leads to a file outside. -/
def TrackedInside (E : Env) (host : Host Named) (resourceRoot : String) (route : IngestRoute)
    (body : IngestRequest) : Prop := TakenInside E host resourceRoot route body true

/-- No file that the job walks lies outside. -/
def WalkedInside (E : Env) (host : Host Named) (resourceRoot : String) (route : IngestRoute)
    (body : IngestRequest) : Prop := TakenInside E host resourceRoot route body false

/-- The job of a request is confined when nothing that it takes up leads out. -/
theorem confined_dispatch {route : IngestRoute} {body : IngestRequest} {payload : IngestFolderPayload}
    {entry : JobQueueEntry} {modelId : ℤ} (hpayload : body.payload? host = some payload)
    (hty : entry.jobType = route.jobType) (hdecode : E.decodeIngestPayload entry.payload = .ok payload)
    (htracked : TrackedInside E host resourceRoot route body)
    (hwalked : WalkedInside E host resourceRoot route body) :
    Confined host mayFail resourceRoot (dispatchJob E entry modelId) := by
  rw [dispatchJob_eq, hty]
  refine Confined.andThen ?_ fun x => confined_of_calls (calls_finishJob entry x)
  cases route with
  | ingest =>
    refine confined_withIngestRoot fun payload isMatch model h hmatch hdir => ?_
    obtain rfl := Except.ok.inj (hdecode.symm.trans h)
    exact confined_ingestWalkRoot fun c hc => hwalked _ _ hpayload hmatch hdir c (.walked hc)
  | ingestGit =>
    refine confined_withIngestRoot fun payload isMatch model h hmatch hdir => ?_
    obtain rfl := Except.ok.inj (hdecode.symm.trans h)
    refine confined_ask trivial ?_
    intro answer hsays
    cases answer with
    | error e => exact fun _ => trivial
    | ok plan =>
      obtain ⟨fuel, hplan⟩ | ⟨-, e, h⟩ := hsays
      · intro w
        show Task.Sat _ (Task.each (fun repoRoot =>
          ingestGitRepo E payload.rootPath repoRoot isMatch model) plan.repoRoots >>= _) _ w
        rw [Task.sat_bind]
        refine (sat_repos (fun c hc => htracked _ _ hpayload hmatch hdir c (.tracked hplan hc)) w).mono ?_
        intro x w' hlisted
        cases x with
        | error e => trivial
        | ok u =>
          split
          · rename_i fallbackRoot hfallback
            refine confined_ingestWalkRoot (fun c hc => ?_) w'
            exact hwalked _ _ hpayload hmatch hdir c (.rest hplan hfallback (hlisted rfl) hc)
          · trivial
      · cases h

/-! ## Runs without failures -/

theorem Host.Says.weaken {r : Req} {a : r.Ans} (h : host.Says False r a) : host.Says mayFail r a := by
  cases r with
  | canonicalize path => exact h.imp_right fun h => ⟨h.1.imp_right False.elim, h.2⟩
  | isDir path => exact h.imp_right fun h => h.1.elim
  | gitPlan root => exact h.imp_right fun h => h.1.elim
  | trackedFiles repoRoot => exact h.imp_right fun h => h.1.elim
  | walk root => exact h
  | _ => trivial

theorem Host.Answers.weaken {w w' : World} {r : Req} {a : r.Ans} (h : host.Answers False w r a w') :
    host.Answers mayFail w r a w' := ⟨h.1.mayFail, h.2.weaken⟩

/-- A program without failures, on a host. -/
abbrev Host.Done (host : Host Named) (p : Act α) (w : World) (a : α) (w' : World) : Prop :=
  Task.Done (host.Answers False) p w a w'

section
variable {w w' : World} {p : Act α} {a : α} {path : String} {file : Bytes}

theorem Host.done_connect : host.Done connect w () w :=
  Task.Done.bind (Task.done_ask.2 ⟨⟨rfl, .inl rfl⟩, trivial⟩) (.ofExcept rfl)

theorem Host.done_db {op : DbReq} {v : op.Val} {store : Store} (h : op.run.Ok w.store v store) :
    host.Done (db op) w v { w with store := store, planned := op.planned v ++ w.planned } :=
  Task.Done.bind (Task.done_ask.2 ⟨.inl ⟨v, store, rfl, h, rfl⟩, trivial⟩) (.ofExcept rfl)

theorem Host.done_attempt (h : host.Done p w a w') : host.Done (attempt p) w (.ok a) w' :=
  Task.done_andThen.2 ⟨.ok a, w', h, .pure⟩

theorem Host.done_openFile (h : host.view path = some file) : host.Done (openFile path) w () w :=
  Task.Done.bind (Task.done_ask.2 ⟨⟨rfl, .inl ⟨file, h, rfl⟩⟩, trivial⟩) (.ofExcept rfl)

theorem Host.done_readFile (h : host.view path = some file) : host.Done (readFile path) w file w :=
  Task.Done.bind (Task.done_ask.2 ⟨⟨rfl, .inl ⟨file, h, rfl⟩⟩, trivial⟩) (.ofExcept rfl)

theorem Host.done_tryMetadata (h : host.view path = some file) :
    host.Done (tryMetadata path) w (.ok ⟨true, file.length, none⟩) w :=
  Task.done_ask.2 ⟨⟨rfl, .inl ⟨file, _, h, rfl, rfl, rfl⟩⟩, trivial⟩

theorem Host.done_hashFile (h : host.view path = some file) :
    host.Done (hashFile E path) w (E.hash file) w := by
  refine Task.Done.bind (done_openFile h).mapError ?_
  exact Task.Done.bind (done_readFile h).mapError .pure

theorem Host.done_readPrefix (h : host.view path = some file) :
    host.Done (readPrefix path) w (readContentPrefixWithBudget file contentByteBudget) w := by
  refine Task.Done.bind (Task.Done.bind (done_tryMetadata h) (.ofExcept rfl)).mapError ?_
  refine Task.Done.bind (done_openFile h).mapError ?_
  exact Task.Done.bind (done_readFile h).mapError .pure

end

/-- An upsert leaves a row for its document's path. -/
theorem exists_row_upsert {doc : Document} {modelId now id : ℤ} {chunks : List ChunkRef} {changed : Bool}
    {s s' : Store}
    (h : (upsertDocumentAndReplacePendingEmbeddings doc modelId chunks now).Ok s (id, changed) s') :
    ∃ d ∈ s'.documents.rows, d.filepath = doc.filepath := by
  obtain ⟨-, rfl, d, hd, -, hpath, -⟩ | ⟨-, s₁, hi⟩ := ok_upsertDocumentAndReplacePendingEmbeddings h
  · exact ⟨d, hd, hpath⟩
  · refine ⟨{ doc with id := id }, ?_, rfl⟩
    rw [hi.documents, hi.written.mem]
    exact .inl rfl

section
variable {w : World} {model : EmbeddingModel}

/-- With its model registered, a file can be ingested. -/
theorem Host.done_ingestFile {path : String} {file : Bytes} {metadata : Metadata}
    (hview : host.view path = some file) (hmodel : model ∈ w.store.models.rows) :
    ∃ w', host.Done (ingestFile E path metadata model) w () w' ∧ w'.store.models = w.store.models ∧
      ∃ d ∈ w'.store.documents.rows, d.filepath = toStringLossy path := by
  let planned := planPendingEmbeddingsForReadPlan E.f64
    (readContentPrefixWithBudget file contentByteBudget) model
  let doc : Document :=
    { id := 0, filepath := toStringLossy path, fileType := ((extension path).bind toStr).getD "",
      docCategory := .resource,
      fileModifiedAt := metadata.modified.getD 0, fileSize := metadata.len, fileHash := E.hash file,
      metadataJson := planned.metadataJson, updatedAt := 0 }
  have hupsert : Tx.Succeeds (upsertDocumentAndReplacePendingEmbeddings doc model.id planned.chunks 0)
      w.store := succeeds_upsert ⟨model, hmodel, rfl⟩
  obtain ⟨⟨id, changed⟩, store, hok⟩ := hupsert
  let op : DbReq := .upsertDocument doc model.id planned.chunks 0
  let w' : World := { w with store := store, planned := op.planned (id, changed) ++ w.planned }
  refine ⟨w', ?_, models_upsert hok, exists_row_upsert hok⟩
  have hnow : host.Done unixNow w 0 w := Task.done_ask.2 ⟨rfl, trivial⟩
  have hstored : host.Done (db op) w (id, changed) w' := Host.done_db hok
  refine Task.Done.bind hnow ?_
  refine Task.Done.bind (Host.done_attempt (Host.done_hashFile hview)) ?_
  refine Task.Done.bind (Host.done_attempt (Host.done_readPrefix hview)) ?_
  refine Task.Done.bind Host.done_connect.mapError ?_
  exact Task.Done.bind hstored.mapError .pure

theorem Host.done_ingestResolved (E : Env) (host : Host Named) (candidatePath : String)
    (hmodel : model ∈ w.store.models.rows) :
    ∃ w', host.Done (ingestResolved E candidatePath model) w () w' ∧
      w'.store.models = w.store.models ∧
      ∀ p, host.canonicalize candidatePath = some p → host.view p ≠ none →
        ∃ d ∈ w'.store.documents.rows, d.filepath = toStringLossy p := by
  cases hcanonical : host.canonicalize candidatePath with
  | none =>
    have hask : host.Done (ask (.canonicalize candidatePath)) w (.error ⟨true, ""⟩) w :=
      Task.done_ask.2 ⟨rfl, .inr ⟨.inl hcanonical, _, rfl⟩⟩
    exact ⟨w, Task.Done.bind hask .pure, rfl, fun p hp => by cases hp⟩
  | some canonicalPath =>
    have hask : host.Done (ask (.canonicalize candidatePath)) w (.ok canonicalPath) w :=
      Task.done_ask.2 ⟨rfl, .inl ⟨_, hcanonical, rfl⟩⟩
    cases hview : host.view canonicalPath with
    | none =>
      have hmetadata : host.Done (tryMetadata canonicalPath) w (.error ⟨true, ""⟩) w :=
        Task.done_ask.2 ⟨⟨rfl, .inr (.inl ⟨hview, .inr ⟨_, rfl, rfl⟩⟩)⟩, trivial⟩
      refine ⟨w, Task.Done.bind hask (Task.Done.bind hmetadata .pure), rfl, ?_⟩
      rintro p ⟨⟩ hfile
      exact absurd hview hfile
    | some file =>
      have hfile : ∃ w', host.Done (ingestFile E canonicalPath ⟨true, file.length, none⟩ model) w () w' ∧
          w'.store.models = w.store.models ∧
          ∃ d ∈ w'.store.documents.rows, d.filepath = toStringLossy canonicalPath :=
        done_ingestFile hview hmodel
      obtain ⟨w', hdone, hmodels, hrow⟩ := hfile
      refine ⟨w', Task.Done.bind hask (Task.Done.bind (done_tryMetadata hview) hdone), hmodels, ?_⟩
      rintro p ⟨⟩ -
      exact hrow

/-- Any candidate can be dealt with; where it leads to a file, that file has a row then. -/
theorem Host.done_ingestCandidateFile (E : Env) (host : Host Named) (requestRoot candidatePath : String)
    (isMatch : String → Bool) (applyGitFilters : Bool) (hmodel : model ∈ w.store.models.rows) :
    ∃ w', host.Done (ingestCandidateFile E requestRoot candidatePath isMatch model applyGitFilters) w () w' ∧
      w'.store.models = w.store.models ∧
      ∀ p, Leads host requestRoot isMatch applyGitFilters candidatePath p →
        ∃ d ∈ w'.store.documents.rows, d.filepath = toStringLossy p := by
  by_cases hpass : Passes requestRoot isMatch applyGitFilters candidatePath
  · rw [ingestCandidateFile_passes hpass]
    obtain ⟨w', hdone, hmodels, hrow⟩ := done_ingestResolved E host candidatePath hmodel
    exact ⟨w', hdone, hmodels, fun p hp => hrow p hp.canonical hp.file⟩
  · rw [ingestCandidateFile_skipped hpass]
    exact ⟨w, .pure, rfl, fun p hp => absurd hp.passes hpass⟩

end

/-! ## A confined program is confined from any point on -/

section
variable {p : Act α} {f : α → Act β} {w w' : World} {a : α}

theorem confined_of_sat (h : Task.Sat (sandbox host mayFail resourceRoot) p (fun _ _ => True) w) :
    Confined host mayFail resourceRoot p :=
  fun _ => Proc.Sat.later (fun _ _ => trivial) h trivial

/-- What a confined program has written once it is done. -/
theorem Confined.documents_inside (h : Confined host mayFail resourceRoot p) (hrun : host.Done p w a w')
    (hw : w.store.documents.rows = []) :
    ∀ d ∈ w'.store.documents.rows, pathStartsWith d.filepath resourceRoot = true := by
  obtain ⟨hguarded, -⟩ := Proc.Runs.sat (fun _ => trivial) (fun hs => hs.weaken) hrun (h w)
  refine hguarded.invariant (I := fun w => ∀ d ∈ w.store.documents.rows,
    pathStartsWith d.filepath resourceRoot = true) ?_ ?_
  · rintro w r a w' ⟨-, hguar⟩ hin d hd
    by_cases hold : d ∈ w.store.documents.rows
    · exact hin d hold
    · exact hguar d hd hold
  · rw [hw]
    exact fun d hd => absurd hd List.not_mem_nil

theorem Confined.head (h : Confined host mayFail resourceRoot (p >>= f)) :
    Confined host mayFail resourceRoot p := by
  intro w
  have hw := h w
  rw [Task.sat_bind] at hw
  exact hw.mono fun _ _ _ => trivial

theorem Confined.tail (h : Confined host mayFail resourceRoot (p >>= f)) (hrun : host.Done p w a w') :
    Confined host mayFail resourceRoot (f a) := by
  have hw := h w
  rw [Task.sat_bind] at hw
  exact confined_of_sat (Proc.Runs.sat (fun _ => trivial) (fun hs => hs.weaken) hrun hw).2

/-- A confined loop has confined rounds. -/
theorem Confined.round {γ : Type} {f : γ → Act Unit} {I : World → Prop} :
    ∀ {as : List γ} {w : World}, Confined host mayFail resourceRoot (Task.each f as) →
      (∀ a ∈ as, ∀ w, I w → ∃ w', host.Done (f a) w () w' ∧ I w') → I w →
        ∀ a ∈ as, Confined host mayFail resourceRoot (f a)
  | a :: as, w, h, hf, hw, a', ha' => by
    obtain ⟨w', hdone, hw'⟩ := hf a List.mem_cons_self w hw
    obtain rfl | ha' := List.mem_cons.1 ha'
    · exact h.head
    · exact (h.tail hdone).round (fun b hb => hf b (List.mem_cons_of_mem a hb)) hw' a' ha'

end

section
variable {w : World} {model : EmbeddingModel} {requestRoot repoRoot walkRoot c : String}
  {repoRoots tracked skippedRoots : List String} {isMatch : String → Bool} {applyGitFilters : Bool}

/-- A confined candidate leads inside. -/
theorem inside_of_confined
    (h : Confined host mayFail resourceRoot
      (ingestCandidateFile E requestRoot c isMatch model applyGitFilters))
    (hmodel : model ∈ w.store.models.rows) (hw : w.store.documents.rows = []) :
    LeadsInside host resourceRoot requestRoot isMatch applyGitFilters c := by
  intro p hp
  obtain ⟨w', hdone, -, hrow⟩ :=
    Host.done_ingestCandidateFile E host requestRoot c isMatch applyGitFilters hmodel
  obtain ⟨d, hd, hpath⟩ := hrow p hp
  rw [← hpath]
  exact h.documents_inside hdone hw d hd

/-- Any candidate can be dealt with, again and again. -/
theorem Host.done_candidate_keeps (hmodel : model ∈ w.store.models.rows) :
    ∃ w', host.Done (ingestCandidateFile E requestRoot c isMatch model applyGitFilters) w () w' ∧
      model ∈ w'.store.models.rows := by
  obtain ⟨w', hdone, hmodels, -⟩ :=
    Host.done_ingestCandidateFile E host requestRoot c isMatch applyGitFilters hmodel
  exact ⟨w', hdone, by rwa [hmodels]⟩

/-- So can any entry of a walk. -/
theorem Host.done_entry_keeps {entry : Except String DirEntry} (hmodel : model ∈ w.store.models.rows) :
    ∃ w', host.Done (ingestWalkEntry E requestRoot isMatch model applyGitFilters entry) w () w' ∧
      model ∈ w'.store.models.rows := by
  unfold ingestWalkEntry
  split
  · exact ⟨w, .pure, hmodel⟩
  · split_ifs
    · exact Host.done_candidate_keeps hmodel
    · exact ⟨w, .pure, hmodel⟩

/-- A confined walk has confined candidates. -/
theorem Confined.walked
    (h : Confined host mayFail resourceRoot
      (ingestWalkRoot E requestRoot walkRoot isMatch model skippedRoots applyGitFilters))
    (hmodel : model ∈ w.store.models.rows) :
    ∀ c ∈ host.walkedCandidates walkRoot skippedRoots, Confined host mayFail resourceRoot
      (ingestCandidateFile E requestRoot c isMatch model applyGitFilters) := by
  intro c hc
  obtain ⟨entry, hentry, hisFile, rfl⟩ := Host.mem_walkedCandidates.1 hc
  have hwalk : host.Done (ask (.walk walkRoot)) w (host.walk walkRoot) w := Task.done_ask.2 ⟨rfl, rfl⟩
  unfold ingestWalkRoot at h
  have htail := Confined.tail h hwalk
  have heach : Confined host mayFail resourceRoot (Task.each
    (ingestWalkEntry E requestRoot isMatch model applyGitFilters) (host.visited walkRoot skippedRoots)) := htail
  have hround := heach.round (I := fun w => model ∈ w.store.models.rows)
    (fun entry _ w hw => Host.done_entry_keeps hw) hmodel _ hentry
  rwa [ingestWalkEntry, if_pos hisFile] at hround

theorem Host.done_tracked (hlist : host.gitListTrackedFiles repoRoot = .ok tracked) :
    host.Done (ask (.trackedFiles repoRoot)) w (.ok tracked) w :=
  Task.done_ask.2 ⟨⟨rfl, fun e he => by cases he⟩, .inl hlist.symm⟩

theorem Host.done_ingestGitRepo (hlist : host.gitListTrackedFiles repoRoot = .ok tracked)
    (hmodel : model ∈ w.store.models.rows) :
    ∃ w', host.Done (ingestGitRepo E requestRoot repoRoot isMatch model) w () w' ∧
      model ∈ w'.store.models.rows := by
  have heach : ∃ w', host.Done (Task.each (fun trackedPath =>
      ingestCandidateFile E requestRoot (joinPath repoRoot trackedPath) isMatch model true) tracked) w () w' ∧
        model ∈ w'.store.models.rows :=
    Task.exists_done_each (I := fun w : World => model ∈ w.store.models.rows)
      (fun trackedPath _ w hw => Host.done_candidate_keeps hw) hmodel
  obtain ⟨w', hdone, hw'⟩ := heach
  exact ⟨w', Task.Done.bind (Host.done_tracked hlist) (Task.Done.bind (.mapError (.ofExcept rfl)) hdone), hw'⟩

/-- Confined repositories have confined candidates. -/
theorem Confined.candidate
    (h : Confined host mayFail resourceRoot
      (Task.each (fun repoRoot => ingestGitRepo E requestRoot repoRoot isMatch model) repoRoots))
    (hmodel : model ∈ w.store.models.rows) :
    ∀ c ∈ host.trackedCandidates repoRoots,
      Confined host mayFail resourceRoot (ingestCandidateFile E requestRoot c isMatch model true) := by
  induction repoRoots generalizing w with
  | nil => exact fun c hc => absurd hc List.not_mem_nil
  | cons repoRoot repoRoots ih =>
    intro c hc
    cases hlist : host.gitListTrackedFiles repoRoot with
    | error e =>
      rw [Host.trackedCandidates, hlist] at hc
      exact absurd hc List.not_mem_nil
    | ok tracked =>
      rw [Host.trackedCandidates_ok hlist] at hc
      obtain hc | hc := List.mem_append.1 hc
      · obtain ⟨trackedPath, htracked, rfl⟩ := List.mem_map.1 hc
        have heach : Confined host mayFail resourceRoot (Task.each (fun trackedPath =>
            ingestCandidateFile E requestRoot (joinPath repoRoot trackedPath) isMatch model true) tracked) :=
          h.head.tail (Host.done_tracked (w := w) hlist)
        exact heach.round (I := fun w => model ∈ w.store.models.rows)
          (fun trackedPath _ w hw => Host.done_candidate_keeps hw) hmodel trackedPath htracked
      · obtain ⟨w', hdone, hw'⟩ := Host.done_ingestGitRepo hlist hmodel
        exact ih (h.tail hdone) hw' c hc

end

/-! ## Accepted requests -/

/-- A store with one model and no documents. -/
theorem exists_start (modelId : ℤ) : ∃ (w : World) (model : EmbeddingModel), model.id = modelId ∧
    model ∈ w.store.models.rows ∧ w.store.documents.rows = [] := by
  let model : EmbeddingModel := ⟨modelId, "m", 1, 4, 0, 0⟩
  let models : Models := ⟨[model], modelId, List.pairwise_singleton _ _,
    fun r hr => by rw [List.mem_singleton.1 hr], List.pairwise_singleton _ _⟩
  exact ⟨⟨{ Store.empty with models := models }, [], []⟩, model, rfl, List.mem_singleton.2 rfl, rfl⟩

section
variable {w : World} {model : EmbeddingModel} {ctx : JobContext} {payload : IngestFolderPayload}
  {isMatch : String → Bool} {handle : IngestFolderPayload → (String → Bool) → EmbeddingModel → Act Unit}

theorem Host.done_loadIngestModel (hmodel : model ∈ w.store.models.rows) (hid : model.id = ctx.ingestModelId) :
    host.Done (loadIngestModel ctx) w model w := by
  have hfind : (DbReq.findModel ctx.ingestModelId).run.Ok w.store (some model) w.store :=
    Tx.ok_query.2 ⟨congrArg Except.ok (AutoTable.get?_eq_some.2 ⟨hmodel, hid⟩), rfl⟩
  refine Task.Done.bind Host.done_connect.mapError ?_
  exact Task.Done.bind (Host.done_db hfind) .pure

theorem Host.done_isDir {path : String} : host.Done (ask (.isDir path)) w (host.isDir path) w :=
  Task.done_ask.2 ⟨rfl, .inl rfl⟩

/-- A confined handler has a confined body. -/
theorem Confined.body (h : Confined host mayFail resourceRoot (withIngestRoot E ctx handle))
    (hdecode : E.decodeIngestPayload ctx.entry.payload = .ok payload)
    (hmatch : E.compilePattern payload.filePattern = .ok isMatch)
    (hdir : host.isDir payload.rootPath = true) (hmodel : model ∈ w.store.models.rows)
    (hid : model.id = ctx.ingestModelId) : Confined host mayFail resourceRoot (handle payload isMatch model) := by
  unfold withIngestRoot at h
  rw [hdecode] at h
  have hmatched : Confined host mayFail resourceRoot
    (Act.context _ (Act.context _ (Task.ofExcept (E.compilePattern payload.filePattern))) >>= _) := h
  rw [hmatch] at hmatched
  have hisDir : Confined host mayFail resourceRoot (ask (.isDir payload.rootPath) >>= _) := hmatched
  have hload := hisDir.tail (Host.done_isDir (w := w))
  rw [hdir] at hload
  have hloaded : Confined host mayFail resourceRoot (loadIngestModel ctx >>= _) := hload
  exact hloaded.tail (Host.done_loadIngestModel hmodel hid)

end

theorem resolveFilePattern_eq_ok {given : Option String} {filePattern : String}
    (h : resolveFilePattern E given = .ok filePattern) : filePattern = given.getD defaultFilePattern := by
  unfold resolveFilePattern at h
  cases hc : E.compilePattern (given.getD defaultFilePattern) with
  | error e =>
    rw [hc] at h
    cases h
  | ok isMatch =>
    rw [hc] at h
    cases h
    rfl

section
variable {route : IngestRoute} {request : IngestRequest} {pool : Except String Unit} {s s' : Store}
  {now : ℤ} {jobType : JobType}

/-- A request is accepted, its root a directory inside, and its job queued; or it is refused and
    the database is as it was. -/
theorem queueIngestRequest_cases {x : Except ErrorResponse JobType}
    (h : (queueIngestRequest E host resourceRoot pool request route now).Ok s x s') :
    (x = .ok route.jobType ∧ ∃ root payload, host.canonicalize (ofText request.rootPath) = some root ∧
      host.isDir root = true ∧ pathStartsWith root resourceRoot = true ∧
      request.payload? host = some payload ∧ payload.rootPath = toStringLossy root ∧
      s' = { s with jobs := (enqueueJob s.jobs route.jobType (ingestPayloadJson payload) now).2 }) ∨
    (∃ e, x = .error e) ∧ s' = s := by
  obtain ⟨outcome, s₁, hout, hpure⟩ := Tx.ok_bind.1 h
  obtain ⟨rfl, rfl⟩ := Tx.ok_pure.1 hpure
  unfold ingestOutcome at hout
  split at hout
  · obtain ⟨rfl, rfl⟩ := Tx.ok_pure.1 hout
    exact .inr ⟨⟨_, rfl⟩, rfl⟩
  · rename_i filePattern hpattern
    split at hout
    · obtain ⟨rfl, rfl⟩ := Tx.ok_pure.1 hout
      exact .inr ⟨⟨_, rfl⟩, rfl⟩
    · rename_i canonicalRoot hcanonical
      split_ifs at hout with hdir hinside
      · obtain ⟨rfl, rfl⟩ := Tx.ok_pure.1 hout
        exact .inr ⟨⟨_, rfl⟩, rfl⟩
      · obtain ⟨rfl, rfl⟩ := Tx.ok_pure.1 hout
        exact .inr ⟨⟨_, rfl⟩, rfl⟩
      · dsimp only at hout
        split at hout
        · obtain ⟨rfl, rfl⟩ := Tx.ok_pure.1 hout
          exact .inr ⟨⟨_, rfl⟩, rfl⟩
        · obtain ⟨result, s₂, henq, hresult⟩ := Tx.ok_bind.1 hout
          obtain ⟨henq, hstate⟩ := Tx.ok_attempt.1 henq
          cases result with
          | error e =>
            obtain ⟨rfl, rfl⟩ := Tx.ok_pure.1 hresult
            rw [← hstate]
            exact .inr ⟨⟨_, rfl⟩, Tx.atomic_exec.state_of_fails henq⟩
          | ok u =>
            obtain ⟨rfl, rfl⟩ := Tx.ok_pure.1 hresult
            obtain rfl := resolveFilePattern_eq_ok hpattern
            exact .inl ⟨rfl, canonicalRoot, _, hcanonical, by simpa using hdir, by simpa using hinside,
              by rw [IngestRequest.payload?, hcanonical]; rfl, rfl, ok_enqueueJobDb ⟨henq, hstate⟩⟩

variable {queued entry : JobQueueEntry} {modelId : ℤ}

/-- The job of an accepted request carries the request's payload. -/
theorem exists_payload
    (haccepted : (queueIngestRequest E host resourceRoot pool request route now).Ok s (.ok jobType) s')
    (hqueued : queued ∈ s'.jobs.rows) (hnew : queued ∉ s.jobs.rows) :
    ∃ root payload, host.canonicalize (ofText request.rootPath) = some root ∧ host.isDir root = true ∧
      pathStartsWith root resourceRoot = true ∧ request.payload? host = some payload ∧
      payload.rootPath = toStringLossy root ∧
      queued.uniqueKey = (route.jobType, ingestPayloadJson payload) := by
  obtain ⟨-, root, payload, hroot, hdir, hinside, hpayload, htext, rfl⟩ | ⟨⟨e, he⟩, -⟩ :=
    queueIngestRequest_cases haccepted
  swap
  · cases he
  obtain hold | ⟨-, hkey, -⟩ := mem_of_mem_enqueueJob _ _ _ _ hqueued
  · exact absurd hold hnew
  · exact ⟨root, payload, hroot, hdir, hinside, hpayload, htext, hkey⟩

/-- A job that is confined takes up nothing that leads out. -/
theorem takenInside_of_confined {payload : IngestFolderPayload} {applyGitFilters : Bool}
    (hpayload : request.payload? host = some payload) (hty : entry.jobType = route.jobType)
    (hdecode : E.decodeIngestPayload entry.payload = .ok payload)
    (h : Confined host mayFail resourceRoot (dispatchJob E entry modelId)) :
    TakenInside E host resourceRoot route request applyGitFilters := by
  intro payload' isMatch hpayload' hmatch hdir c htaken
  obtain rfl := Option.some.inj (hpayload.symm.trans hpayload')
  obtain ⟨w, model, hid, hmodel, hw⟩ := exists_start modelId
  rw [dispatchJob_eq, hty] at h
  have hprocess : Confined host mayFail resourceRoot
      ((resolveHandler E route.jobType).process ⟨entry, modelId⟩) := by
    intro w
    have hsat := h w
    rw [Task.sat_andThen] at hsat
    exact hsat.mono fun _ _ _ => trivial
  have hplanned : ∀ {fuel : ℕ} {plan : GitIngestPlan},
      host.buildGitIngestPlan fuel payload.rootPath = some (.ok plan) →
        host.Done (ask (.gitPlan payload.rootPath)) w (.ok plan) w := fun {fuel plan} hplan =>
    Task.done_ask.2 ⟨⟨rfl, fun e he => by cases he⟩, .inl ⟨fuel, hplan⟩⟩
  cases htaken with
  | walked hc =>
    have hbody := Confined.body hprocess hdecode hmatch hdir hmodel hid
    exact inside_of_confined (hbody.walked hmodel c hc) hmodel hw
  | @tracked fuel plan c hplan hc =>
    have hbody := Confined.body hprocess hdecode hmatch hdir hmodel hid
    have hrepos : Confined host mayFail resourceRoot (Task.each (fun repoRoot =>
        ingestGitRepo E payload.rootPath repoRoot isMatch model) plan.repoRoots >>= _) :=
      hbody.tail (hplanned hplan)
    exact inside_of_confined (hrepos.head.candidate hmodel c hc) hmodel hw
  | @rest fuel plan fallbackRoot c hplan hfallback hlisted hc =>
    have hbody := Confined.body hprocess hdecode hmatch hdir hmodel hid
    have hrepos : Confined host mayFail resourceRoot (Task.each (fun repoRoot =>
        ingestGitRepo E payload.rootPath repoRoot isMatch model) plan.repoRoots >>= _) :=
      hbody.tail (hplanned hplan)
    obtain ⟨w', hdone, hw'⟩ : ∃ w', host.Done (Task.each (fun repoRoot =>
        ingestGitRepo E payload.rootPath repoRoot isMatch model) plan.repoRoots) w () w' ∧
          model ∈ w'.store.models.rows :=
      Task.exists_done_each (I := fun w : World => model ∈ w.store.models.rows)
        (fun repoRoot hrepo w hw => (hlisted repoRoot hrepo).elim fun _ hlist =>
          Host.done_ingestGitRepo hlist hw) hmodel
    have hwalk := hrepos.tail hdone
    rw [hfallback] at hwalk
    exact inside_of_confined (Confined.walked hwalk hmodel c hc) hmodel hw

/-- Every dispatch of an accepted request's job writes inside the resource root, if and only if nothing
    that the job takes up leads out of it.  What is walked does not, where the path of the root is text. -/
theorem ingest_confined {host : Host OsName}
    (hdecode : ∀ payload, request.payload? host = some payload →
      E.decodeIngestPayload (ingestPayloadJson payload) = .ok payload)
    (haccepted : (queueIngestRequest E host resourceRoot pool request route now).Ok s (.ok jobType) s')
    (hqueued : queued ∈ s'.jobs.rows) (hnew : queued ∉ s.jobs.rows)
    (hentry : entry.uniqueKey = queued.uniqueKey) :
    (Confined host mayFail resourceRoot (dispatchJob E entry modelId) ↔
      TrackedInside E host resourceRoot route request ∧ WalkedInside E host resourceRoot route request) ∧
    ((∀ root, host.canonicalize (ofText request.rootPath) = some root → TextName root) →
      WalkedInside E host resourceRoot route request) := by
  obtain ⟨root, payload, hroot, hdir, hinside, hpayload, htext, hkey⟩ :=
    exists_payload haccepted hqueued hnew
  rw [hkey] at hentry
  have hty : entry.jobType = route.jobType := congrArg Prod.fst hentry
  have hread : E.decodeIngestPayload entry.payload = .ok payload := by
    rw [show entry.payload = ingestPayloadJson payload from congrArg Prod.snd hentry]
    exact hdecode payload hpayload
  refine ⟨⟨fun h => ?_, fun h => confined_dispatch hpayload hty hread h.1 h.2⟩, fun hutf8 => ?_⟩
  · exact ⟨takenInside_of_confined hpayload hty hread h, takenInside_of_confined hpayload hty hread h⟩
  · intro payload' isMatch hpayload' hmatch hdir' c htaken
    obtain rfl := Option.some.inj (hpayload.symm.trans hpayload')
    have hsame : payload.rootPath = root := htext.trans (toStringLossy_text (hutf8 root hroot))
    obtain ⟨names, rfl, hreal⟩ := Host.canonicalize_eq_some hroot
    have hnode := (Host.isDir_pathText hreal).1 hdir
    rw [hsame] at htaken ⊢
    cases htaken with
    | walked hc => exact leadsInside_walked hnode (hutf8 _ hroot) hinside c hc
    | @rest fuel plan fallbackRoot c hplan hfallback hlisted hc =>
      obtain rfl := Host.fallbackRoot_eq hplan hfallback
      exact leadsInside_walked hnode (hutf8 _ hroot) hinside c hc

/-- A git job of one repository with one tracked path runs to its end; the file the path leads to
    has a row then. -/
theorem Host.done_gitJob (E : Env) (host : Host Named) (entry : JobQueueEntry) (w : World)
    {payload : IngestFolderPayload} {isMatch : String → Bool} {fuel : ℕ}
    {repoRoot trackedPath : String} {model : EmbeddingModel}
    (hty : entry.jobType = .ingestFolderGit) (hread : E.decodeIngestPayload entry.payload = .ok payload)
    (hmatch : E.compilePattern payload.filePattern = .ok isMatch)
    (hdir : host.isDir payload.rootPath = true) (hmodel : model ∈ w.store.models.rows)
    (hplan : host.buildGitIngestPlan fuel payload.rootPath = some (.ok ⟨[repoRoot], none, []⟩))
    (hlist : host.gitListTrackedFiles repoRoot = .ok [trackedPath]) :
    ∃ w', host.Done (dispatchJob E entry model.id) w () w' ∧
      ∀ p, Leads host payload.rootPath isMatch true (joinPath repoRoot trackedPath) p →
        ∃ d ∈ w'.store.documents.rows, d.filepath = toStringLossy p := by
  obtain ⟨w', hdone, -, hrow⟩ :=
    Host.done_ingestCandidateFile E host payload.rootPath (joinPath repoRoot trackedPath) isMatch true hmodel
  have hrepo : host.Done (ingestGitRepo E payload.rootPath repoRoot isMatch model) w () w' := by
    refine Task.Done.bind (Host.done_tracked hlist) ?_
    refine Task.Done.bind (.mapError (.ofExcept rfl)) ?_
    exact Task.Done.bind hdone .pure
  have hplanned : host.Done (ask (.gitPlan payload.rootPath)) w (.ok ⟨[repoRoot], none, []⟩) w :=
    Task.done_ask.2 ⟨⟨rfl, fun e he => by cases he⟩, .inl ⟨fuel, hplan⟩⟩
  have hisDir : host.Done (ask (.isDir payload.rootPath)) w true w := by
    rw [← hdir]
    exact Host.done_isDir
  have hprocess : host.Done (ingestFolderGitProcess E ⟨entry, model.id⟩) w () w' := by
    refine Task.Done.bind (.mapError (.ofExcept hread)) ?_
    refine Task.Done.bind (.mapError (.mapError (.ofExcept hmatch))) ?_
    refine Task.Done.bind hisDir ?_
    refine Task.Done.bind (Host.done_loadIngestModel hmodel rfl) ?_
    refine Task.Done.bind hplanned ?_
    refine Task.Done.bind (.mapError (.ofExcept rfl)) ?_
    exact Task.Done.bind (Task.Done.bind hrepo .pure) .pure
  let s' : Store := { w'.store with jobs := completeJob w'.store.jobs entry.id }
  have hcomplete : (DbReq.completeJob entry.id).run.Ok w'.store () s' := by
    rw [DbReq.run, completeJobDb, Tx.ok_exec]
  refine ⟨{ w' with store := s' }, ?_, hrow⟩
  rw [dispatchJob_eq, hty]
  refine Task.done_andThen.2 ⟨.ok (), w', hprocess, ?_⟩
  exact Task.Done.bind Host.done_connect.mapError (Host.done_db hcomplete).mapError

end

/-! ## A link out of the root -/

/-- `/srv` is a repository that tracks a link to `/etc/passwd`. -/
def linkEntries : List (List String × Node String Bytes) :=
  [([], .dir), (["etc"], .dir), (["etc", "passwd"], .file [0x61]), (["srv"], .dir),
    (["srv", ".git"], .dir), (["srv", ".git", "HEAD"], .file [0x62]),
    (["srv", "leak.txt"], .link [.root, .name "etc", .name "passwd"])]

/-- The host of these entries; git lists the link, the walker calls it no file. -/
def linkHost : Host where
  tree := FileTree.ofEntries linkEntries (by decide) (by decide)
  valid names h := by
    obtain ⟨e, he, rfl⟩ := FileTree.exists_mem_of_lookup h
    have hvalid : ∀ e ∈ linkEntries, ∀ n ∈ e.1, ValidName n := by decide
    exact hvalid e he
  named names h := by
    obtain ⟨e, he, rfl⟩ := FileTree.exists_mem_of_lookup h
    have htext : ∀ e ∈ linkEntries, ∀ n ∈ e.1, TextName n := by decide
    exact htext e he
  cwd := []
  cwd_dir := rfl
  readDir _ := .ok [.ok ".git", .ok "leak.txt"]
  revParse _ := .ok ⟨true, utf8Bytes "/srv\n", []⟩
  lsFiles _ := .ok ⟨true, utf8Bytes "leak.txt" ++ [0], []⟩
  walk root := [.ok ⟨root, some false⟩, .ok ⟨joinPath root "leak.txt", some false⟩]
  walk_file root entry _ hmem hfile := by
    rw [List.mem_cons, List.mem_singleton, Except.ok.injEq, Except.ok.injEq] at hmem
    obtain rfl | rfl := hmem
    · cases hfile
    · cases hfile

/-- The payload of a request for `/srv`. -/
def linkPayload : IngestFolderPayload := ⟨"/srv", defaultFilePattern⟩

/-- An environment that reads one payload back. -/
def payloadEnv (payload : IngestFolderPayload) : Env :=
  { sampleEnv with
    decodeIngestPayload := fun text =>
      if text = ingestPayloadJson payload then .ok payload
      else .error (.msg "expected value at line 1 column 1") }

/-- An environment that reads that payload back. -/
def linkEnv : Env := payloadEnv linkPayload

/-- A request for `/srv`. -/
def linkRequest : IngestRequest := ⟨"/srv", none⟩

/-- A store with a model. -/
def linkStore : Store := (insertModel sampleModel 0 Store.empty).state

/-- The store in which the request was accepted. -/
def linkQueued (route : IngestRoute) : Store :=
  (queueIngestRequest linkEnv linkHost.toOs "/srv" (.ok ()) linkRequest route 0 linkStore).state

/-- The job of the request, as a worker has claimed it. -/
def linkJob (route : IngestRoute) : JobQueueEntry :=
  ⟨1, route.jobType, ingestPayloadJson linkPayload, some 1, 0⟩

theorem accepted_link (route : IngestRoute) :
    (queueIngestRequest linkEnv linkHost.toOs "/srv" (.ok ()) linkRequest route 0).Ok linkStore
      (.ok route.jobType) (linkQueued route) := by
  have hfinish : (finish (queueIngestRequest linkEnv linkHost.toOs "/srv" (.ok ()) linkRequest route 0)
      linkStore).map Prod.fst = some (.ok route.jobType) := by
    cases route
    · decide +kernel
    · decide +kernel
  obtain ⟨⟨x, s⟩, hrun, rfl⟩ := Option.map_eq_some_iff.1 hfinish
  exact ⟨(ok_of_finish hrun).1, rfl⟩

theorem rows_linkQueued (route : IngestRoute) :
    (linkQueued route).jobs.rows = [{ linkJob route with claimedAt := none }] := by
  cases route
  · decide +kernel
  · decide +kernel

theorem decode_payloadEnv {payload : IngestFolderPayload} :
    (payloadEnv payload).decodeIngestPayload (ingestPayloadJson payload) = .ok payload := by
  simp [payloadEnv]

theorem decode_link : linkEnv.decodeIngestPayload (ingestPayloadJson linkPayload) = .ok linkPayload :=
  decode_payloadEnv

theorem leads_link :
    Leads linkHost.toOs "/srv" (fun _ => true) true (joinPath "/srv" "leak.txt") "/etc/passwd" where
  passes := ⟨⟨"leak.txt", by decide +kernel, rfl⟩, by decide +kernel⟩
  canonical := by decide +kernel
  file := by decide +kernel

theorem plan_link : linkHost.toOs.buildGitIngestPlan 0 "/srv" = some (.ok ⟨["/srv"], none, []⟩) := by
  have hplan : (linkHost.toOs.buildGitIngestPlan 0 "/srv").map Except.toOption =
      some (some ⟨["/srv"], none, []⟩) := by decide +kernel
  obtain ⟨x, hx, hok⟩ := Option.map_eq_some_iff.1 hplan
  rw [hx, toOption_eq_some.1 hok]

theorem tracked_link : linkHost.toOs.gitListTrackedFiles "/srv" = .ok ["leak.txt"] := by
  have hlist : (linkHost.toOs.gitListTrackedFiles "/srv").toOption = some ["leak.txt"] := by decide +kernel
  exact toOption_eq_some.1 hlist

/-- The request is accepted, its job is claimed and dispatched without a failure, and the
    documents hold a file outside `/srv`. -/
theorem tracked_link_escapes :
    (queueIngestRequest linkEnv linkHost.toOs "/srv" (.ok ()) linkRequest .ingestGit 0).Ok linkStore
        (.ok .ingestFolderGit) (linkQueued .ingestGit) ∧
      (claimJob (linkQueued .ingestGit).jobs 1).1 = some (linkJob .ingestGit) ∧
      ∃ w, linkHost.toOs.Done (dispatchJob linkEnv (linkJob .ingestGit) 1)
          ⟨{ linkQueued .ingestGit with jobs := (claimJob (linkQueued .ingestGit).jobs 1).2 }, [], []⟩ () w ∧
        ∃ d ∈ w.store.documents.rows, d ∉ (linkQueued .ingestGit).documents.rows ∧
          d.filepath = "/etc/passwd" ∧ pathStartsWith d.filepath "/srv" = false := by
  refine ⟨accepted_link .ingestGit, by decide +kernel, ?_⟩
  have hmodel : (⟨1, "m", 1, 4, 0, 0⟩ : EmbeddingModel) ∈ (linkQueued .ingestGit).models.rows := by
    decide +kernel
  let w₀ : World :=
    ⟨{ linkQueued .ingestGit with jobs := (claimJob (linkQueued .ingestGit).jobs 1).2 }, [], []⟩
  obtain ⟨w, hdone, hrow⟩ := Host.done_gitJob linkEnv linkHost.toOs (linkJob .ingestGit) w₀ rfl decode_link rfl
    (by decide +kernel) hmodel plan_link tracked_link
  obtain ⟨d, hd, hlossy⟩ := hrow "/etc/passwd" leads_link
  have hpath : d.filepath = "/etc/passwd" := hlossy.trans (toStringLossy_text (by decide))
  have hnone : (linkQueued .ingestGit).documents.rows = [] := by decide +kernel
  refine ⟨w, hdone, d, hd, ?_, hpath, ?_⟩
  · rw [hnone]
    exact List.not_mem_nil
  · rw [hpath]
    decide +kernel

/-! ## A root whose path is no text -/

/-- The byte FF. -/
def strayName : String := "\x00\u01FF\x00"

theorem osName_strayName : OsName strayName := ⟨[0xFF], by decide, by decide +kernel⟩

/-- `/srv/x` is a link to the directory FF beside it, and `/srv/\uFFFD` one to `/etc`. -/
def strayEntries : List (List String × Node String Bytes) :=
  [([], .dir), (["etc"], .dir), (["etc", "passwd"], .file [0x61]), (["srv"], .dir),
    (["srv", strayName], .dir), (["srv", "x"], .link [.name strayName]),
    (["srv", "\uFFFD"], .link [.root, .name "etc"])]

/-- The host of these entries. -/
def strayHost : Host OsName where
  tree := FileTree.ofEntries strayEntries (by decide) (by decide)
  valid names h := by
    obtain ⟨e, he, rfl⟩ := FileTree.exists_mem_of_lookup h
    have hvalid : ∀ e ∈ strayEntries, ∀ n ∈ e.1, ValidName n := by decide
    exact hvalid e he
  named names h n hn := by
    obtain ⟨e, he, rfl⟩ := FileTree.exists_mem_of_lookup h
    have hnamed : ∀ e ∈ strayEntries, ∀ n ∈ e.1, TextName n ∨ n = strayName := by decide
    obtain htext | rfl := hnamed e he n hn
    · exact htext.osName
    · exact osName_strayName
  cwd := []
  cwd_dir := rfl
  readDir _ := .ok []
  revParse _ := .error "not a repository"
  lsFiles _ := .error "not a repository"
  walk root := if root = "/srv/\uFFFD" then [.ok ⟨root, some false⟩, .ok ⟨joinPath root "passwd", some true⟩]
    else []
  walk_file root entry hroot hmem _ := by
    obtain ⟨e, he, rfl⟩ := FileTree.exists_mem_of_lookup (p := root) (fun h => by cases h.symm.trans hroot)
    have hlink : ∀ e ∈ strayEntries, pathText e.1 = "/srv/\uFFFD" → strayEntries.lookup e.1 ≠ some .dir := by
      decide +kernel
    split_ifs at hmem with htext
    · exact absurd hroot (hlink e he htext)
    · cases hmem

/-- A request for the link to the directory. -/
def strayRequest : IngestRequest := ⟨"/srv/x", none⟩

/-- Its payload names the other link. -/
def strayPayload : IngestFolderPayload := ⟨"/srv/\uFFFD", defaultFilePattern⟩

/-- The store in which the request was accepted. -/
def strayQueued : Store :=
  (queueIngestRequest (payloadEnv strayPayload) strayHost "/srv" (.ok ()) strayRequest .ingest 0 linkStore).state

/-- The job of the request, before it is claimed. -/
def strayJob : JobQueueEntry := ⟨1, .ingestFolder, ingestPayloadJson strayPayload, none, 0⟩

theorem accepted_stray :
    (queueIngestRequest (payloadEnv strayPayload) strayHost "/srv" (.ok ()) strayRequest .ingest 0).Ok linkStore
      (.ok .ingestFolder) strayQueued ∧ strayQueued.jobs.rows = [strayJob] := by
  have hfinish : (finish (queueIngestRequest (payloadEnv strayPayload) strayHost "/srv" (.ok ()) strayRequest
      .ingest 0) linkStore).map Prod.fst = some (.ok .ingestFolder) := by decide +kernel
  obtain ⟨⟨x, s⟩, hrun, rfl⟩ := Option.map_eq_some_iff.1 hfinish
  exact ⟨⟨(ok_of_finish hrun).1, rfl⟩, by decide +kernel⟩

theorem leads_stray :
    Leads strayHost "/srv/\uFFFD" (fun _ => true) false "/srv/\uFFFD/passwd" "/etc/passwd" where
  passes := ⟨⟨"passwd", by decide +kernel, rfl⟩, by decide +kernel⟩
  canonical := by decide +kernel
  file := by decide +kernel

/-- On the first host the folder job is confined and the git job is not; on the second one the folder job
    is not confined either. -/
theorem sample_ingest_confined :
    Confined linkHost.toOs True "/srv" (dispatchJob linkEnv (linkJob .ingest) 1) ∧
      ¬Confined linkHost.toOs True "/srv" (dispatchJob linkEnv (linkJob .ingestGit) 1) ∧
      ¬Confined strayHost True "/srv" (dispatchJob (payloadEnv strayPayload) strayJob 1) := by
  have hpayload : linkRequest.payload? linkHost.toOs = some linkPayload := by decide +kernel
  have hdecode : ∀ payload, linkRequest.payload? linkHost.toOs = some payload →
      linkEnv.decodeIngestPayload (ingestPayloadJson payload) = .ok payload := by
    intro payload h
    obtain rfl := Option.some.inj (hpayload.symm.trans h)
    exact decode_link
  have hqueued : ∀ route, { linkJob route with claimedAt := none } ∈ (linkQueued route).jobs.rows := by
    intro route
    rw [rows_linkQueued]
    exact List.mem_singleton.2 rfl
  have hnew : ∀ e, e ∉ linkStore.jobs.rows := fun e => List.not_mem_nil
  refine ⟨?_, fun h => ?_, fun h => ?_⟩
  · have hlaw : (Confined linkHost.toOs True "/srv" (dispatchJob linkEnv (linkJob .ingest) 1) ↔ _) ∧ _ :=
      ingest_confined hdecode (accepted_link .ingest) (hqueued .ingest) (hnew _) rfl
    refine hlaw.1.2 ⟨?_, hlaw.2 ?_⟩
    · rintro payload isMatch - - - c ⟨⟩
    · intro root hroot
      have hsrv : linkHost.toOs.canonicalize (ofText linkRequest.rootPath) = some "/srv" := by decide +kernel
      obtain rfl := Option.some.inj (hsrv.symm.trans hroot)
      decide
  · obtain ⟨htracked, -⟩ := (ingest_confined hdecode (accepted_link .ingestGit) (hqueued .ingestGit)
      (hnew _) rfl).1.1 h
    have hout := htracked linkPayload (fun _ => true) hpayload rfl (by decide +kernel)
      (joinPath "/srv" "leak.txt") (.tracked plan_link (by simp [Host.trackedCandidates, tracked_link]))
      "/etc/passwd" leads_link
    revert hout
    decide +kernel
  · have hstray : strayRequest.payload? strayHost = some strayPayload := by decide +kernel
    have hread : ∀ payload, strayRequest.payload? strayHost = some payload →
        (payloadEnv strayPayload).decodeIngestPayload (ingestPayloadJson payload) = .ok payload := by
      intro payload h
      obtain rfl := Option.some.inj (hstray.symm.trans h)
      exact decode_payloadEnv
    obtain ⟨haccepted, hrows⟩ := accepted_stray
    have hmem : strayJob ∈ strayQueued.jobs.rows := by
      rw [hrows]
      exact List.mem_singleton.2 rfl
    obtain ⟨-, hwalked⟩ := (ingest_confined hread haccepted hmem (hnew _) rfl).1.1 h
    have hout := hwalked strayPayload (fun _ => true) hstray rfl (by decide +kernel) "/srv/\uFFFD/passwd"
      (.walked (by decide +kernel)) "/etc/passwd" leads_stray
    revert hout
    decide +kernel

end Ask
