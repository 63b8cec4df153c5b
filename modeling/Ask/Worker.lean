/-
  The background worker: `worker/mod.rs`, `worker/embed_document.rs` and
  `worker/ingest.rs`, as programs over the requests.
-/
import Ask.Requests

namespace Ask

open Lib Lib.OsStr

/-- A fallible program of the worker. -/
abbrev Act (α : Type) := Task Req Req.Ans AnyError α

namespace Act

/-- `with_context`. -/
def context {α : Type} (text : String) (p : Act α) : Act α := Task.mapError (.context text) p

/-- `with_context` on an option. -/
def someOr {α : Type} (text : String) : Option α → Act α
  | some a => pure a
  | none => Task.fail (.msg text)

/-- Make a request; its answer, whatever it is. -/
def ask (r : Req) : Act r.Ans := Task.ask r

/-- `pool.get()`. -/
def connect : Act Unit := do
  let a : Except AnyError Unit ← ask .connect
  Task.ofExcept a

/-- A database access; its error ends the program. -/
def db (op : DbReq) : Act op.Val := do
  let a : Except AnyError op.Val ← ask (.db op)
  Task.ofExcept a

/-- The outcome of a file system call, with the error of the operating system. -/
def orIoError {α : Type} (x : Except IoError α) : Act α := Task.ofExcept (x.mapError IoError.toAny)

/-- `std::fs::metadata`, its error left to the caller. -/
def tryMetadata (path : String) : Act (Except IoError Metadata) := ask (.metadata path)

/-- `std::fs::metadata`; its error ends the program. -/
def metadata (path : String) : Act Metadata := do
  let a ← tryMetadata path
  orIoError a

/-- `File::open` -/
def openFile (path : String) : Act Unit := do
  let a : Except IoError Unit ← ask (.openFile path)
  orIoError a

/-- All that an opened file holds. -/
def readFile (path : String) : Act Bytes := do
  let a : Except IoError Bytes ← ask (.readFile path)
  orIoError a

/-- Seconds since the epoch. -/
def unixNow : Act ℤ := ask .now

/-- Go on with the outcome as a value. -/
def attempt {α : Type} (p : Act α) : Act (Except AnyError α) := p.andThen fun x => pure x

/-! A request whose answer is the program's outcome. -/

variable {σ : Type} {C : Setting σ Req Req.Ans} {s : σ}

theorem sat_connect {Q : Except AnyError Unit → σ → Prop} : Task.Sat C connect Q s ↔
    ∀ s₁, C.rely s s₁ → ∀ a s₂, C.step s₁ .connect a s₂ → C.guar s₁ .connect a s₂ ∧ Q a s₂ :=
  Iff.rfl

theorem sat_db {op : DbReq} {Q : Except AnyError op.Val → σ → Prop} : Task.Sat C (db op) Q s ↔
    ∀ s₁, C.rely s s₁ → ∀ a s₂, C.step s₁ (.db op) a s₂ → C.guar s₁ (.db op) a s₂ ∧ Q a s₂ :=
  Iff.rfl

end Act

open Act

variable (E : Env)

/-! ## Files -/

/-- The digest of a whole file, read in one piece. -/
def hashFile (path : String) : Act String := do
  context s!"failed to open {toStringLossy path}" (openFile path)
  let bytes ← context s!"failed to read {toStringLossy path}" (readFile path)
  pure (E.hash bytes)

/-- `read_content_prefix_with_budget`: metadata, then the file. -/
def readPrefixWithBudget (path : String) (contentByteBudget : ℕ) : Act ContentReadPlan := do
  let _ ← context s!"failed to read metadata for {toStringLossy path}" (metadata path)
  context s!"failed to open {toStringLossy path}" (openFile path)
  let bytes ← context s!"failed to read content prefix from {toStringLossy path}" (readFile path)
  pure (readContentPrefixWithBudget bytes contentByteBudget)

/-- `read_content_prefix` -/
def readPrefix (path : String) : Act ContentReadPlan := readPrefixWithBudget path contentByteBudget

/-! ## Jobs -/

/-- What a handler is called with. -/
structure JobContext where
  entry : JobQueueEntry
  ingestModelId : ℤ

/-- A handler says which jobs it is for. -/
structure JobHandler where
  jobType : JobType
  process : JobContext → Act Unit

/-- Remove the job, on a connection of its own. -/
def completeJobAct (jobId : ℤ) : Act Unit := do
  context s!"failed to acquire connection to complete job {jobId}" connect
  context s!"failed to complete job {jobId}" (db (.completeJob jobId))

/-- Put the job back for later, on a connection of its own. -/
def deferJobRetry (jobId now : ℤ) (retryAfterSecs : ℕ) : Act Unit := do
  context s!"failed to acquire connection to defer job {jobId}" connect
  context s!"failed to defer job {jobId}" (db (.deferJob jobId now retryAfterSecs))

/-- After the handler: remove the job, put it off, or leave the claim in place. -/
def finishJob (entry : JobQueueEntry) : Except AnyError Unit → Act Unit
  | .ok () => completeJobAct entry.id
  | .error err =>
    match embeddingRetryAfterSecs err with
    | some retryAfterSecs => do
      let now ← unixNow
      deferJobRetry entry.id now retryAfterSecs
      Task.fail (.context s!"job {entry.id} ({entry.jobType.asStr})" err)
    | none => Task.fail (.context s!"job {entry.id} ({entry.jobType.asStr})" err)

/-- Run the handler for the job's type, then remove, defer or leave the job. -/
def dispatchJobWithResolver (entry : JobQueueEntry) (modelId : ℤ)
    (resolveHandler : JobType → JobHandler) : Act Unit :=
  let handler := resolveHandler entry.jobType
  if handler.jobType ≠ entry.jobType then
    Task.fail (.msg s!"job handler registry mismatch for job {entry.id}: claimed {entry.jobType.asStr}, resolved {handler.jobType.asStr}")
  else (handler.process ⟨entry, modelId⟩).andThen (finishJob entry)

/-! ## Embedding a document -/

/-- Plan the file again, as it is now, and store the plan with the new hash. -/
def replanDocumentFromPath (doc : Document) (model : EmbeddingModel) (now : ℤ) : Act Unit := do
  let metadata ← context s!"failed to read file metadata for {doc.filepath}" (metadata doc.filepath)
  let fileModifiedAt := metadata.modified.getD now
  let fileHash ← context s!"failed to hash document bytes for {doc.filepath}" (hashFile E doc.filepath)
  let contentPlan ← context s!"failed to read content prefix for {doc.filepath}"
    (readPrefix doc.filepath)
  let planned := planPendingEmbeddingsForReadPlan E.f64 contentPlan model
  let _ ← db (.upsertDocument
    { doc with
      fileModifiedAt := fileModifiedAt, fileSize := metadata.len, fileHash := fileHash,
      metadataJson := planned.metadataJson, updatedAt := now }
    model.id planned.chunks now)
  pure ()

/-- One embedded chunk for each prepared chunk and its vector. -/
def embeddedChunks (prepared : List PreparedChunk) (vectors : List Vector32) : List EmbeddedChunk :=
  List.zipWith (fun chunk vector =>
    ⟨chunk.chunkType, chunk.chunkStart, chunk.chunkEnd, serializeEmbedding vector⟩) prepared vectors

/-- The end of `process`, with the recoverable rows: prepare, embed and replace them. -/
def embedRows (document : Document) (model : EmbeddingModel) (rows : List DocumentEmbedding) :
    Act Unit := do
  let preparedChunks ←
    context s!"failed to prepare chunks for document {document.id} and model {model.id}"
      (prepareEmbeddedChunks document.filepath document.id rows
        (readPrefixWithBudget document.filepath))
  let answer : Except EmbeddingError (List Vector32) ←
    ask (.embed model (preparedChunks.map (·.input)))
  let vectors ← context s!"failed to embed document {document.id} with model {model.id}"
    (Task.ofExcept (answer.mapError AnyError.embedding))
  if vectors.length ≠ preparedChunks.length then
    Task.fail (.msg s!"embedding client returned {vectors.length} vectors for {preparedChunks.length} prepared chunks")
  else do
    context s!"failed to acquire connection to replace embeddings for document {document.id} and model {model.id}"
      connect
    let now ← unixNow
    context s!"failed to replace embeddings for document {document.id} and model {model.id}"
      (db (.replaceEmbeddings document.id model.id (embeddedChunks preparedChunks vectors) now))

/-- The middle of `process`, for a file that exists: replan it if its hash is another one. -/
def embedFile (entry : JobQueueEntry) (document : Document) (model : EmbeddingModel) : Act Unit := do
  let currentHash ← context s!"failed to hash document bytes from {document.filepath}"
    (hashFile E document.filepath)
  if currentHash ≠ document.fileHash then do
    context s!"failed to acquire connection to replan document {document.id}" connect
    context s!"failed to remove stale embed job {entry.id}" (db (.completeJob entry.id))
    let now ← unixNow
    context s!"failed to replan document {document.id} after hash mismatch"
      (replanDocumentFromPath E document model now)
  else do
    context s!"failed to acquire connection to load pending chunks for document {document.id} and model {model.id}"
      connect
    let recoverableRows : List DocumentEmbedding ← db (.listRecoverable document.id model.id)
    if recoverableRows = [] then pure ()
    else embedRows document model recoverableRows

/-- The handler of an embed job: the document and the model it names, then the document's file. -/
def embedDocumentProcess (ctx : JobContext) : Act Unit := do
  let entry := ctx.entry
  let payload ← context s!"failed to decode payload for job {entry.id}"
    (Task.ofExcept (E.decodeEmbedPayload entry.payload))
  context s!"failed to acquire connection to load document {payload.documentId} and model {payload.modelId} for job {entry.id}"
    connect
  let found : Option Document ← db (.findDocument payload.documentId)
  match found with
  | none =>
    context s!"failed to complete orphaned embed job {entry.id} for missing document {payload.documentId}"
      (db (.completeJob entry.id))
  | some document => do
    let found : Option EmbeddingModel ← db (.findModel payload.modelId)
    let model ← someOr s!"embedding model {payload.modelId} not found for job {entry.id}" found
    match ← tryMetadata document.filepath with
    | .ok _ => embedFile E entry document model
    | .error err =>
      if err.notFound then do
        context s!"failed to acquire connection to delete missing document {document.id}" connect
        context s!"failed to delete missing document {document.id}" (db (.deleteDocument document.id))
      else
        context s!"failed to read document metadata from {document.filepath}" (Task.fail err.toAny)

/-- `EmbedDocumentHandler` -/
def embedDocumentHandler : JobHandler := ⟨.embedDocument, embedDocumentProcess E⟩

/-! ## Ingesting files -/

/-- Files of these kinds are tracked but never ingested. -/
def gitIgnoredFileExtensions : List String :=
  ["7z", "bin", "bz2", "db", "dll", "dylib", "exe", "gif", "gz", "ico", "jpeg", "jpg", "pdf",
    "png", "rar", "so", "sqlite", "tar", "webp", "xz", "zip"]

/-- Whether a tracked file has one of these extensions, in any case. -/
def shouldSkipGitCandidate (path : String) : Bool :=
  match (extension path).bind toStr with
  | some ext => gitIgnoredFileExtensions.contains (String.ofList (ext.toList.map Char.toLower))
  | none => false

/-- The walk's own root is visited, and what lies below no skipped root. -/
def shouldVisitWalkEntry (path walkRoot : String) (skippedRoots : List String) : Bool :=
  samePath path walkRoot || !skippedRoots.any fun root => pathStartsWith path root

/-- Plan a file and upsert its document. -/
def ingestFile (canonicalPath : String) (metadata : Metadata) (model : EmbeddingModel) : Act Unit := do
  let now ← unixNow
  let filepath := toStringLossy canonicalPath
  let fileType := ((extension canonicalPath).bind toStr).getD ""
  let fileModifiedAt := metadata.modified.getD now
  match ← attempt (hashFile E canonicalPath) with
  | .error _ => pure ()
  | .ok fileHash => do
    let read ← attempt (readPrefix canonicalPath)
    let contentPlan := match read with
      | .ok contentPlan => contentPlan
      | .error _ => .filenameOnly
    let planned := planPendingEmbeddingsForReadPlan E.f64 contentPlan model
    context s!"failed to acquire connection while ingesting {filepath}" connect
    let _ ← context s!"failed to ingest document for {filepath}"
      (db (.upsertDocument
        { id := 0, filepath, fileType := fileType, docCategory := .resource,
          fileModifiedAt := fileModifiedAt, fileSize := metadata.len, fileHash := fileHash,
          metadataJson := planned.metadataJson, updatedAt := now }
        model.id planned.chunks now))
    pure ()

/-- A candidate below the requested root that matches is resolved, and ingested if it is a file. -/
def ingestCandidateFile (requestRoot candidatePath : String) (isMatch : String → Bool)
    (model : EmbeddingModel) (applyGitFilters : Bool) : Act Unit :=
  match normalizeRelativePath requestRoot candidatePath with
  | none => pure ()
  | some relativePath =>
    if !isMatch relativePath then pure ()
    else if applyGitFilters && shouldSkipGitCandidate candidatePath then pure ()
    else do
      let canonical : Except IoError String ← ask (.canonicalize candidatePath)
      match canonical with
      | .error _ => pure ()
      | .ok canonicalPath =>
        match ← tryMetadata canonicalPath with
        | .error _ => pure ()
        | .ok metadata =>
          if !metadata.isFile then pure () else ingestFile E canonicalPath metadata model

/-- The model that ingests are planned for. -/
def loadIngestModel (ctx : JobContext) : Act EmbeddingModel := do
  context s!"failed to acquire connection to load model {ctx.ingestModelId} for job {ctx.entry.id}"
    connect
  let found : Option EmbeddingModel ← db (.findModel ctx.ingestModelId)
  someOr s!"embedding model {ctx.ingestModelId} not found for job {ctx.entry.id}" found

/-- One entry of the walk; what could not be read is skipped. -/
def ingestWalkEntry (requestRoot : String) (isMatch : String → Bool) (model : EmbeddingModel)
    (applyGitFilters : Bool) : Except String DirEntry → Act Unit
  | .error _ => pure ()
  | .ok entry =>
    if entry.isFile = some true then
      ingestCandidateFile E requestRoot entry.path isMatch model applyGitFilters
    else pure ()

/-- All files that a walk of a directory reports. -/
def ingestWalkRoot (requestRoot walkRoot : String) (isMatch : String → Bool)
    (model : EmbeddingModel) (skippedRoots : List String) (applyGitFilters : Bool) : Act Unit := do
  let walker : List (Except String DirEntry) ← ask (.walk walkRoot)
  -- `filter_entry` prunes whole subtrees; what lies below a skipped root starts with it too
  let visited := walker.filter fun entry =>
    match entry with
    | .ok entry => shouldVisitWalkEntry entry.path walkRoot skippedRoots
    | .error _ => true
  Task.each (ingestWalkEntry E requestRoot isMatch model applyGitFilters) visited

/-- All files that a repository tracks. -/
def ingestGitRepo (requestRoot repoRoot : String) (isMatch : String → Bool)
    (model : EmbeddingModel) : Act Unit := do
  let answer : Except AnyError (List String) ← ask (.trackedFiles repoRoot)
  let trackedPaths ← context s!"failed to list tracked files for {toStringLossy repoRoot}"
    (Task.ofExcept answer)
  Task.each (fun trackedPath =>
    ingestCandidateFile E requestRoot (joinPath repoRoot trackedPath) isMatch model true) trackedPaths

/-- The start of both ingest handlers: the payload, its pattern and the model of the run,
    or nothing to do when the root is no directory. -/
def withIngestRoot (ctx : JobContext)
    (body : IngestFolderPayload → (String → Bool) → EmbeddingModel → Act Unit) : Act Unit := do
  let payload ← context s!"failed to decode payload for job {ctx.entry.id}"
    (Task.ofExcept (E.decodeIngestPayload ctx.entry.payload))
  let isMatch ← context s!"failed to compile file pattern for job {ctx.entry.id}"
    (context s!"invalid file pattern stored in queued job: {payload.filePattern}"
      (Task.ofExcept (E.compilePattern payload.filePattern)))
  let isDir : Bool ← ask (.isDir payload.rootPath)
  if !isDir then pure ()
  else do
    let model ← loadIngestModel ctx
    body payload isMatch model

/-- The handler of a folder job: a walk of its root. -/
def ingestFolderProcess (ctx : JobContext) : Act Unit :=
  withIngestRoot E ctx fun payload isMatch model =>
    ingestWalkRoot E payload.rootPath payload.rootPath isMatch model [] false

/-- The handler of a git job: tracked files where there are repositories, a walk of the rest. -/
def ingestFolderGitProcess (ctx : JobContext) : Act Unit :=
  withIngestRoot E ctx fun payload isMatch model => do
    let answer : Except AnyError GitIngestPlan ← ask (.gitPlan payload.rootPath)
    let plan ← context s!"failed to discover git roots under {payload.rootPath}" (Task.ofExcept answer)
    Task.each (fun repoRoot => ingestGitRepo E payload.rootPath repoRoot isMatch model) plan.repoRoots
    match plan.fallbackRoot with
    | some fallbackRoot =>
      ingestWalkRoot E payload.rootPath fallbackRoot isMatch model plan.skippedWalkRoots false
    | none => pure ()

/-- `IngestFolderHandler` -/
def ingestFolderHandler : JobHandler := ⟨.ingestFolder, ingestFolderProcess E⟩

/-- `IngestFolderGitHandler` -/
def ingestFolderGitHandler : JobHandler := ⟨.ingestFolderGit, ingestFolderGitProcess E⟩

/-! ## Dispatch -/

/-- The registered handlers. -/
def resolveHandler : JobType → JobHandler
  | .embedDocument => embedDocumentHandler E
  | .ingestFolder => ingestFolderHandler E
  | .ingestFolderGit => ingestFolderGitHandler E

/-- One job from claim to end, as a worker runs it. -/
def dispatchJob (entry : JobQueueEntry) (modelId : ℤ) : Act Unit :=
  dispatchJobWithResolver entry modelId (resolveHandler E)

/-- The registered handlers are in order. -/
theorem dispatchJob_eq (entry : JobQueueEntry) (modelId : ℤ) : dispatchJob E entry modelId =
    ((resolveHandler E entry.jobType).process ⟨entry, modelId⟩).andThen (finishJob entry) := by
  have hty : (resolveHandler E entry.jobType).jobType = entry.jobType := by
    cases entry.jobType <;> rfl
  unfold dispatchJob dispatchJobWithResolver
  exact if_neg (not_not.2 hty)

/-! ## Which requests a program makes -/

section Calls
variable {P : Req → Prop} {α : Type}

/-- Anything but a database access. -/
def FileReq : Req → Prop
  | .db _ => False
  | _ => True

/-- What the ingest handlers ask. -/
def IngestReq : Req → Prop
  | .db (.findModel _) => True
  | .db (.upsertDocument _ _ _ _) => True
  | .db _ => False
  | _ => True

/-- What the end of the embed handler asks. -/
def ReplaceReq : Req → Prop
  | .db (.replaceEmbeddings _ _ _ _) => True
  | .db _ => False
  | _ => True

theorem FileReq.ingest {r : Req} (h : FileReq r) : IngestReq r := by
  cases r <;> first | exact h.elim | trivial

theorem FileReq.replace {r : Req} (h : FileReq r) : ReplaceReq r := by
  cases r <;> first | exact h.elim | trivial

theorem calls_context {p : Act α} {text : String} (hp : Task.Calls P p) :
    Task.Calls P (context text p) := Task.calls_mapError hp

theorem calls_connect (h : P .connect) : Task.Calls P connect :=
  Task.calls_bind (Task.calls_ask h) fun _ => Task.calls_ofExcept

theorem calls_db {op : DbReq} (h : P (.db op)) : Task.Calls P (db op) :=
  Task.calls_bind (Task.calls_ask h) fun _ => Task.calls_ofExcept

theorem calls_someOr (text : String) (x : Option α) : Task.Calls P (someOr text x) := by
  cases x
  · exact Task.calls_fail
  · exact Task.calls_pure

theorem calls_openFile (path : String) : Task.Calls FileReq (openFile path) :=
  Task.calls_bind (Task.calls_ask trivial) fun _ => Task.calls_ofExcept

theorem calls_readFile (path : String) : Task.Calls FileReq (readFile path) :=
  Task.calls_bind (Task.calls_ask trivial) fun _ => Task.calls_ofExcept

theorem calls_metadata (path : String) : Task.Calls FileReq (metadata path) :=
  Task.calls_bind (Task.calls_ask trivial) fun _ => Task.calls_ofExcept

theorem calls_hashFile (path : String) : Task.Calls FileReq (hashFile E path) :=
  Task.calls_bind (calls_context (calls_openFile path)) fun _ =>
    Task.calls_bind (calls_context (calls_readFile path)) fun _ => Task.calls_pure

theorem calls_readPrefixWithBudget (path : String) (budget : ℕ) :
    Task.Calls FileReq (readPrefixWithBudget path budget) :=
  Task.calls_bind (calls_context (calls_metadata path)) fun _ =>
    Task.calls_bind (calls_context (calls_openFile path)) fun _ =>
      Task.calls_bind (calls_context (calls_readFile path)) fun _ => Task.calls_pure

theorem calls_prepareEmbeddedChunks (path : String) (docId : ℤ) (rows : List DocumentEmbedding) :
    Task.Calls FileReq (prepareEmbeddedChunks path docId rows (readPrefixWithBudget path)) := by
  refine Task.calls_bind ?_ fun _ => Task.calls_ofExcept
  unfold readContentFor
  cases maxContentEnd rows with
  | none => exact Task.calls_pure
  | some e =>
    exact Task.calls_bind Task.calls_ofExcept fun _ =>
      Task.calls_bind (calls_readPrefixWithBudget path _) fun _ => Task.calls_pure

theorem calls_embedRows (document : Document) (model : EmbeddingModel)
    (rows : List DocumentEmbedding) : Task.Calls ReplaceReq (embedRows document model rows) := by
  refine Task.calls_bind (calls_context
    ((calls_prepareEmbeddedChunks _ _ _).mono fun _ => FileReq.replace)) ?_
  intro prepared
  refine Task.calls_bind (Task.calls_ask trivial) ?_
  intro answer
  refine Task.calls_bind (calls_context Task.calls_ofExcept) ?_
  intro vectors
  split_ifs
  · exact Task.calls_fail
  · exact Task.calls_bind (calls_context (calls_connect trivial)) fun _ =>
      Task.calls_bind (Task.calls_ask trivial) fun _ => calls_context (calls_db trivial)

theorem calls_ingestFile (path : String) (metadata : Metadata) (model : EmbeddingModel) :
    Task.Calls IngestReq (ingestFile E path metadata model) := by
  refine Task.calls_bind (Task.calls_ask trivial) ?_
  intro now
  refine Task.calls_bind (Task.calls_andThen
    ((calls_hashFile E path).mono fun _ => FileReq.ingest) fun _ => Task.calls_pure) ?_
  intro hashed
  cases hashed with
  | error e => exact Task.calls_pure
  | ok fileHash =>
    refine Task.calls_bind (Task.calls_andThen
      ((calls_readPrefixWithBudget path _).mono fun _ => FileReq.ingest) fun _ => Task.calls_pure) ?_
    intro read
    exact Task.calls_bind (calls_context (calls_connect trivial)) fun _ =>
      Task.calls_bind (calls_context (calls_db trivial)) fun _ => Task.calls_pure

theorem calls_ingestCandidateFile (requestRoot path : String) (isMatch : String → Bool)
    (model : EmbeddingModel) (applyGitFilters : Bool) :
    Task.Calls IngestReq (ingestCandidateFile E requestRoot path isMatch model applyGitFilters) := by
  unfold ingestCandidateFile
  split
  · exact Task.calls_pure
  · split_ifs
    · exact Task.calls_pure
    · exact Task.calls_pure
    · refine Task.calls_bind (Task.calls_ask trivial) ?_
      intro canonical
      cases canonical with
      | error e => exact Task.calls_pure
      | ok canonicalPath =>
        refine Task.calls_bind (Task.calls_ask trivial) ?_
        intro found
        cases found with
        | error e => exact Task.calls_pure
        | ok metadata =>
          dsimp only
          split_ifs
          · exact Task.calls_pure
          · exact calls_ingestFile E _ _ _

theorem calls_ingestWalkRoot (requestRoot walkRoot : String) (isMatch : String → Bool)
    (model : EmbeddingModel) (skippedRoots : List String) (applyGitFilters : Bool) :
    Task.Calls IngestReq
      (ingestWalkRoot E requestRoot walkRoot isMatch model skippedRoots applyGitFilters) := by
  refine Task.calls_bind (Task.calls_ask trivial) fun walker => Task.calls_each ?_
  intro entry _
  unfold ingestWalkEntry
  split
  · exact Task.calls_pure
  · split_ifs
    · exact calls_ingestCandidateFile E _ _ _ _ _
    · exact Task.calls_pure

theorem calls_withIngestRoot (ctx : JobContext)
    {body : IngestFolderPayload → (String → Bool) → EmbeddingModel → Act Unit}
    (hbody : ∀ payload isMatch model, Task.Calls IngestReq (body payload isMatch model)) :
    Task.Calls IngestReq (withIngestRoot E ctx body) := by
  refine Task.calls_bind (calls_context Task.calls_ofExcept) ?_
  intro payload
  refine Task.calls_bind (calls_context (calls_context Task.calls_ofExcept)) ?_
  intro isMatch
  refine Task.calls_bind (Task.calls_ask trivial) ?_
  intro isDir
  split_ifs
  · exact Task.calls_pure
  · refine Task.calls_bind (Task.calls_bind (calls_context (calls_connect trivial)) fun _ =>
      Task.calls_bind (calls_db trivial) fun _ => calls_someOr _ _) fun model => hbody _ _ _

theorem calls_ingestFolderProcess (ctx : JobContext) :
    Task.Calls IngestReq (ingestFolderProcess E ctx) :=
  calls_withIngestRoot E ctx fun _ _ _ => calls_ingestWalkRoot E _ _ _ _ _ _

theorem calls_ingestFolderGitProcess (ctx : JobContext) :
    Task.Calls IngestReq (ingestFolderGitProcess E ctx) := by
  refine calls_withIngestRoot E ctx ?_
  intro payload isMatch model
  refine Task.calls_bind (Task.calls_ask trivial) ?_
  intro answer
  refine Task.calls_bind (calls_context Task.calls_ofExcept) ?_
  intro plan
  refine Task.calls_bind (Task.calls_each fun repoRoot _ => ?_) fun _ => ?_
  · refine Task.calls_bind (Task.calls_ask trivial) ?_
    intro answer
    refine Task.calls_bind (calls_context Task.calls_ofExcept) ?_
    intro tracked
    exact Task.calls_each fun path _ => calls_ingestCandidateFile E _ _ _ _ _
  · split
    · exact calls_ingestWalkRoot E _ _ _ _ _ _
    · exact Task.calls_pure

end Calls

end Ask
