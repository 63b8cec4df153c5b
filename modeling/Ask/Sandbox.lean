/-
  Ingest requests and the host they are about: `http/ingest.rs`, `ingest.rs`
  and the git discovery of `worker/ingest.rs`.

  A host has a directory tree with links, git and a directory walker.  Names
  are bytes, spelled as `Lib.OsStr` does it, or text, which is its own spelling;
  what the server may not read counts as absent.  Git and the walker are
  third-party programs: their outputs are fields.
-/
import Ask.Lib.FileTree
import Ask.Worker

namespace Ask

open Lib Lib.Utf8 Lib.OsStr

/-! ## Text from bytes -/

/-- The text of valid bytes. -/
def textOf (bytes : Bytes) : String := (String.fromUTF8? ⟨bytes.toArray⟩).getD ""

/-- The text of a `FromUtf8Error`. -/
def utf8ErrorText (e : Utf8.Error) : String :=
  match e.errorLen with
  | some n => s!"invalid utf-8 sequence of {n} bytes from index {e.validUpTo}"
  | none => s!"incomplete utf-8 byte sequence from index {e.validUpTo}"

/-- `String::from_utf8_lossy`: U+FFFD for what is no scalar. -/
def fromUtf8Lossy : Bytes → Bytes
  | [] => []
  | b :: bs =>
    match scan (b :: bs) with
    | .scalar w => (b :: bs).take w ++ fromUtf8Lossy (bs.drop (w - 1))
    | .incomplete => [0xEF, 0xBF, 0xBD]
    | .invalid n => [0xEF, 0xBF, 0xBD] ++ fromUtf8Lossy (bs.drop (n - 1))
termination_by bytes => bytes.length

/-! ## Hosts -/

/-- What a finished process left: `std::process::Output`. -/
structure ProcessOutput where
  success : Bool
  stdout : Bytes
  stderr : Bytes
  deriving DecidableEq, Repr

/-- The hop of one part between slashes. -/
def hop (part : List Char) : Hop String :=
  if part = [] ∨ part = ['.'] then .here
  else if part = ['.', '.'] then .up
  else .name (String.ofList part)

/-- The hops of a path: an absolute one starts at the root. -/
def hops (path : String) : List (Hop String) :=
  (if path.toList.head? = some '/' then [.root] else []) ++ (path.toList.splitOn '/').map hop

/-- The number of links a resolution may follow. -/
def maxSymlinks : ℕ := 40

/-- A machine as the server sees it, whose files have names of a kind: any, or text. -/
structure Host (Named : String → Prop := TextName) where
  tree : FileTree String Bytes
  valid : ∀ names, tree.node names ≠ none → ∀ n ∈ names, ValidName n
  named : ∀ names, tree.node names ≠ none → ∀ n ∈ names, Named n
  cwd : List String
  cwd_dir : tree.node cwd = some .dir
  /-- `std::fs::read_dir`: the names in a directory, as the system lists them. -/
  readDir : String → Except String (List (Except String String))
  /-- `git -C DIR rev-parse --show-toplevel` -/
  revParse : String → Except String ProcessOutput
  /-- `git -C DIR ls-files --cached -z` -/
  lsFiles : String → Except String ProcessOutput
  /-- `WalkBuilder` with `follow_links(false)`. -/
  walk : String → List (Except String DirEntry)
  /-- The walker reports a link as a link: what it calls a file is one, below the directory. -/
  walk_file : ∀ root entry, tree.node root = some .dir → .ok entry ∈ walk (pathText root) →
    entry.isFile = some true → ∃ names content, entry.path = pathText (root ++ names) ∧
      tree.node (root ++ names) = some (.file content)

namespace Host

variable {Named : String → Prop} (host : Host Named)

/-- Where a path leads, through all its links. -/
def resolve (path : String) : Option (List String) :=
  if path = "" then none else host.tree.resolve maxSymlinks host.cwd (hops path)

/-- `std::fs::canonicalize`, where it succeeds. -/
def canonicalize (path : String) : Option String := (host.resolve path).map pathText

/-- `std::fs::metadata`: what is there, behind all links. -/
def stat (path : String) : Option (Node String Bytes) := (host.resolve path).bind host.tree.node

/-- `std::fs::symlink_metadata`: what is there, be it a link. -/
def symlinkMetadata (path : String) : Option (Node String Bytes) :=
  if path = "" then none else host.tree.lookup maxSymlinks host.cwd (hops path)

/-- `Path::is_dir` -/
def isDir (path : String) : Bool :=
  match host.stat path with
  | some .dir => true
  | _ => false

/-- `Path::is_file` -/
def isFile (path : String) : Bool :=
  match host.stat path with
  | some (.file _) => true
  | _ => false

/-- What a dispatch reads. -/
def view : View := fun path =>
  match host.stat path with
  | some (.file content) => some content
  | _ => none

/-! ## Git repositories -/

/-- What the `.git` of a directory makes of it. -/
inductive RepoMarker where
  | repo
  | submodule
  deriving DecidableEq, Repr

/-- The repository that a directory lies in, by git's word. -/
def discoverEnclosingRepoRoot (rootPath : String) : Except AnyError (Option String) :=
  match host.revParse rootPath with
  | .error err => .error (.context s!"failed to invoke git for {toStringLossy rootPath}" (.msg err))
  | .ok output =>
    if !output.success then .ok none
    else match fromUtf8 output.stdout with
      | .error e => .error (.context "git rev-parse returned non-utf8 path" (.msg (utf8ErrorText e)))
      | .ok stdout =>
        let repoRoot := trim stdout.bytes
        if repoRoot = [] then .ok none else .ok (some (ofText (textOf repoRoot)))

/-- The path after `gitdir:` in a `.git` file. -/
def parseGitdirPointer (dir gitFile : String) (content : Bytes) : Except AnyError String :=
  match fromUtf8 content with
  | .error _ => .error (.context s!"failed to read {toStringLossy gitFile}"
      (.msg "stream did not contain valid UTF-8"))
  | .ok raw =>
    match ((trim raw.bytes).dropPrefix? (utf8Bytes "gitdir:")).map trim with
    | none | some [] => .error (.msg s!"invalid gitdir pointer in {toStringLossy gitFile}")
    -- `join` keeps an absolute path
    | some gitdir => .ok (joinPath dir (ofText (textOf gitdir)))

/-- A `modules` right after a `.git`, other components than names aside. -/
def gitdirPointsToSubmodule : Bool → List Component → Bool
  | _, [] => false
  | sawDotGit, .normal part :: cs =>
    if sawDotGit && decide (part = "modules") then true
    else gitdirPointsToSubmodule (decide (part = ".git")) cs
  | sawDotGit, _ :: cs => gitdirPointsToSubmodule sawDotGit cs

/-- A directory with a `.git` directory that has a `HEAD`, or with a `.git` file. -/
def detectRepoMarker (dir : String) : Except AnyError (Option RepoMarker) :=
  let gitPath := joinPath dir ".git"
  match host.symlinkMetadata gitPath with
  | none => .ok none
  | some .dir => .ok (if host.isFile (joinPath gitPath "HEAD") then some .repo else none)
  | some (.link _) => .ok none
  | some (.file content) =>
    (parseGitdirPointer dir gitPath content).map fun gitdir =>
      some (if gitdirPointsToSubmodule false (components gitdir) then .submodule else .repo)

/-- The directories among the entries of `dir`; links are left out. -/
def subdirs (dir : String) : List (Except String String) → Except AnyError (List String)
  | [] => .ok []
  | .error err :: _ =>
    .error (.context s!"failed to inspect directory entry under {toStringLossy dir}" (.msg err))
  | .ok name :: entries =>
    match host.symlinkMetadata (joinPath dir name) with
    | none => .error (.context s!"failed to read entry type under {toStringLossy dir}"
        (.msg "No such file or directory (os error 2)"))
    | some .dir => (subdirs dir entries).map fun dirs => joinPath dir name :: dirs
    | some _ => subdirs dir entries

/-- The loop of `build_git_ingest_plan`, the stack with its top first: the repositories and the
    submodules found. -/
def discoverRepos : ℕ → List String → List String → List String →
    Option (Except AnyError (List String × List String))
  | _, [], repoRoots, skipped => some (.ok (repoRoots, skipped))
  | 0, _ :: _, _, _ => none
  | fuel + 1, dir :: stack, repoRoots, skipped =>
    match host.detectRepoMarker dir with
    | .error e => some (.error e)
    | .ok (some .repo) => discoverRepos fuel stack (repoRoots ++ [dir]) skipped
    | .ok (some .submodule) => discoverRepos fuel stack repoRoots (skipped ++ [dir])
    | .ok none =>
      match host.readDir dir with
      | .error err => some (.error (.context s!"failed to read directory {toStringLossy dir}" (.msg err)))
      | .ok entries =>
        match host.subdirs dir entries with
        | .error e => some (.error e)
        | .ok dirs => discoverRepos fuel (dirs.reverse ++ stack) repoRoots skipped

/-- The enclosing repository, or those below the root, with the walk of the rest. -/
def buildGitIngestPlan (fuel : ℕ) (rootPath : String) : Option (Except AnyError GitIngestPlan) :=
  match host.discoverEnclosingRepoRoot rootPath with
  | .error e => some (.error e)
  | .ok (some repoRoot) => some (.ok ⟨[repoRoot], none, []⟩)
  | .ok none => (host.discoverRepos fuel [rootPath] [] []).map fun found =>
      found.map fun (repoRoots, skipped) => ⟨repoRoots, some rootPath, skipped ++ repoRoots⟩

/-- The paths of a NUL-separated list, on Unix. -/
def parseGitPathList (stdout : Bytes) : List String := ((stdout.splitOn 0).filter (· ≠ [])).map spell

/-- The paths in the index of a repository, links and files that are gone included. -/
def gitListTrackedFiles (repoRoot : String) : Except AnyError (List String) :=
  match host.lsFiles repoRoot with
  | .error err => .error (.context s!"failed to invoke git for {toStringLossy repoRoot}" (.msg err))
  | .ok output =>
    if !output.success then
      let stderr := textOf (trim (fromUtf8Lossy output.stderr))
      .error (.msg s!"git ls-files failed for {toStringLossy repoRoot}: {stderr}")
    else .ok (parseGitPathList output.stdout)

/-! ## Answers -/

/-- What the host says to a request. -/
def Says (mayFail : Prop) : (r : Req) → r.Ans → Prop
  | .canonicalize path, a => (∃ p, host.canonicalize path = some p ∧ a = .ok p) ∨
      (host.canonicalize path = none ∨ mayFail) ∧ ∃ e, a = .error e
  | .isDir path, a => a = host.isDir path ∨ mayFail ∧ a = false
  | .walk root, a => a = host.walk root
  | .gitPlan root, a => (∃ fuel, host.buildGitIngestPlan fuel root = some a) ∨ mayFail ∧ ∃ e, a = .error e
  | .trackedFiles repoRoot, a => a = host.gitListTrackedFiles repoRoot ∨ mayFail ∧ ∃ e, a = .error e
  | _, _ => True

/-- How requests are answered while the host stays as it is. -/
def Answers (mayFail : Prop) (w : World) (r : Req) (a : r.Ans) (w' : World) : Prop :=
  Ask.Answers host.view mayFail w r a w' ∧ host.Says mayFail r a

end Host

/-! ## Requests -/

/-- The body of a request. -/
structure IngestRequest where
  rootPath : String
  filePattern : Option String
  deriving DecidableEq, Repr

/-- The two routes: `POST /ingest` and `POST /ingest/git`. -/
inductive IngestRoute where
  | ingest
  | ingestGit
  deriving DecidableEq, Repr

/-- The job that a route queues. -/
def IngestRoute.jobType : IngestRoute → JobType
  | ingest => .ingestFolder
  | ingestGit => .ingestFolderGit

/-- What becomes of a request. -/
inductive IngestOutcome where
  | queued (jobType : JobType)
  | notFound (path : String)
  | notADirectory (path : String)
  | outsideAllowedRoot (path : String)
  | invalidPattern (msg : String)
  | conflict (msg : String)
  deriving DecidableEq, Repr

/-- `error_response`: a status with a code and a message. -/
structure ErrorResponse where
  status : ℕ
  code : String
  message : String
  deriving DecidableEq, Repr

/-- The answer to the client. -/
def IngestOutcome.response : IngestOutcome → Except ErrorResponse JobType
  | queued jobType => .ok jobType
  | notFound p => .error ⟨404, "not_found", s!"path does not exist: {p}"⟩
  | notADirectory p => .error ⟨400, "bad_request", s!"path is not a directory: {p}"⟩
  | outsideAllowedRoot p =>
    .error ⟨403, "forbidden", s!"path is outside the configured resource root: {p}"⟩
  | invalidPattern msg => .error ⟨400, "bad_request", s!"invalid file_pattern regex: {msg}"⟩
  | conflict msg => .error ⟨409, "conflict", msg⟩

/-- A character of a JSON string, as `serde_json` writes it. -/
def escapeJson (c : Char) : List Char :=
  if c = '"' then ['\\', '"']
  else if c = '\\' then ['\\', '\\']
  else if c = '\x08' then ['\\', 'b']
  else if c = '\x09' then ['\\', 't']
  else if c = '\x0a' then ['\\', 'n']
  else if c = '\x0c' then ['\\', 'f']
  else if c = '\x0d' then ['\\', 'r']
  else if c.toNat < 0x20 then
    ['\\', 'u', '0', '0', Nat.digitChar (c.toNat / 16), Nat.digitChar (c.toNat % 16)]
  else [c]

/-- A text in JSON. -/
def jsonString (s : String) : String := "\"" ++ String.ofList (s.toList.flatMap escapeJson) ++ "\""

/-- The payload of an ingest job, as `serde_json::to_string` writes it. -/
def ingestPayloadJson (p : IngestFolderPayload) : String :=
  "\x7b\"root_path\":" ++ jsonString p.rootPath ++ ",\"file_pattern\":" ++ jsonString p.filePattern ++
    "\x7d"

/-- Every file. -/
def defaultFilePattern : String := ".*"

variable {Named : String → Prop} (E : Env) (host : Host Named)

/-- The pattern of a request, which has to compile. -/
def resolveFilePattern (filePattern : Option String) : Except AnyError String :=
  (E.compilePattern (filePattern.getD defaultFilePattern)).map fun _ => filePattern.getD defaultFilePattern

/-- The blocking part of `queue_ingest_request`; `pool` is the outcome of taking a connection. -/
def ingestOutcome (resourceRoot : String) (pool : Except String Unit) (body : IngestRequest)
    (jobType : JobType) (now : ℤ) : Db IngestOutcome :=
  match resolveFilePattern E body.filePattern with
  | .error err => pure (.invalidPattern err.display)
  | .ok filePattern =>
    match host.canonicalize (ofText body.rootPath) with
    | none => pure (.notFound body.rootPath)
    | some canonicalRoot =>
      if !host.isDir canonicalRoot then pure (.notADirectory body.rootPath)
      else if !pathStartsWith canonicalRoot resourceRoot then pure (.outsideAllowedRoot body.rootPath)
      else
        let payloadJson := ingestPayloadJson ⟨toStringLossy canonicalRoot, filePattern⟩
        match pool with
        | .error e => pure (.conflict s!"database error: {e}")
        | .ok () => do
          match ← Tx.attempt (enqueueJobDb jobType payloadJson now) with
          | .ok () => pure (.queued jobType)
          | .error e => pure (.conflict e.display)

/-- `queue_ingest_request` -/
def queueIngestRequest (resourceRoot : String) (pool : Except String Unit) (body : IngestRequest)
    (route : IngestRoute) (now : ℤ) : Db (Except ErrorResponse JobType) := do
  let result ← ingestOutcome E host resourceRoot pool body route.jobType now
  pure result.response

end Ask
