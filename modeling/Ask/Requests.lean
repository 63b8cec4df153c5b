/-
  What a worker asks of the outside: the database, the file system, git, the
  embedding provider and the clock; and how these answer.

  A dispatch sees one version of every file (`View`), which may be another one
  for the next dispatch.  With `mayFail` any access may fail; a failed database
  access has changed nothing.  Paths are spelled as `Lib.OsStr` does it.
-/
import Ask.Content
import Ask.Effects
import Ask.Lib.Proc
import Ask.Paths

namespace Ask

open Lib Lib.OsStr

/-! ## Third-party code -/

/-- What the server uses of its libraries: `sha2`, `regex`, `serde_json`, floating point. -/
structure Env where
  f64 : F64
  hash : Bytes → String
  compilePattern : String → Except AnyError (String → Bool)
  decodeEmbedPayload : String → Except AnyError EmbedDocumentPayload
  decodeIngestPayload : String → Except AnyError IngestFolderPayload

/-- A vector, as the bits of its `f32` values. -/
abbrev Vector32 := List UInt32

/-- The four bytes of a value, least significant first. -/
def leBytes (v : UInt32) : Bytes :=
  [v.toUInt8, (v >>> 8).toUInt8, (v >>> 16).toUInt8, (v >>> 24).toUInt8]

/-- A vector as little-endian bytes. -/
def serializeEmbedding (vector : Vector32) : Bytes := vector.flatMap leBytes

/-! ## Requests -/

/-- An error of the operating system. -/
structure IoError where
  notFound : Bool
  text : String
  deriving DecidableEq, Repr

/-- An I/O error as an `anyhow::Error`. -/
def IoError.toAny (e : IoError) : AnyError := .msg e.text

/-- What `std::fs::metadata` tells of a file; `modified` in Unix seconds, where there is one. -/
structure Metadata where
  isFile : Bool
  len : ℕ
  modified : Option ℤ
  deriving DecidableEq, Repr

/-- The repositories found under a root, and what a walk of the rest leaves out. -/
structure GitIngestPlan where
  repoRoots : List String
  fallbackRoot : Option String
  skippedWalkRoots : List String
  deriving DecidableEq, Repr

/-- One entry of a directory walk; `isFile` where its type could be read. -/
structure DirEntry where
  path : String
  isFile : Option Bool
  deriving DecidableEq, Repr

/-- The database accesses of the handlers. -/
inductive DbReq where
  | findDocument (id : ℤ)
  | findModel (id : ℤ)
  | listRecoverable (docId modelId : ℤ)
  | completeJob (jobId : ℤ)
  | deferJob (jobId now : ℤ) (retryAfterSecs : ℕ)
  | deleteDocument (docId : ℤ)
  | replaceEmbeddings (docId modelId : ℤ) (chunks : List EmbeddedChunk) (now : ℤ)
  | upsertDocument (doc : Document) (modelId : ℤ) (chunks : List ChunkRef) (now : ℤ)

/-- What an access yields. -/
@[reducible] def DbReq.Val : DbReq → Type
  | findDocument _ => Option Document
  | findModel _ => Option EmbeddingModel
  | listRecoverable _ _ => List DocumentEmbedding
  | completeJob _ => Unit
  | deferJob _ _ _ => Unit
  | deleteDocument _ => Unit
  | replaceEmbeddings _ _ _ _ => Unit
  | upsertDocument _ _ _ _ => ℤ × Bool

/-- What an access does to the store. -/
def DbReq.run : (r : DbReq) → Db r.Val
  | findDocument id => findDocumentById id
  | findModel id => findModelById id
  | listRecoverable docId modelId => listRecoverableEmbeddingsForModel docId modelId
  | completeJob jobId => completeJobDb jobId
  | deferJob jobId now retryAfterSecs => deferJobForRetryDb jobId now retryAfterSecs
  | deleteDocument docId => Ask.deleteDocument docId
  | replaceEmbeddings docId modelId chunks now =>
    replaceEmbeddingsForDocumentModel docId modelId chunks now
  | upsertDocument doc modelId chunks now =>
    upsertDocumentAndReplacePendingEmbeddings doc modelId chunks now

/-- What a handler asks of the world. -/
inductive Req where
  | connect
  | db (op : DbReq)
  | metadata (path : String)
  | openFile (path : String)
  | readFile (path : String)
  | isDir (path : String)
  | canonicalize (path : String)
  | walk (root : String)
  | gitPlan (root : String)
  | trackedFiles (repoRoot : String)
  | embed (model : EmbeddingModel) (inputs : List Bytes)
  | now

/-- The answers to a request. -/
@[reducible] def Req.Ans : Req → Type
  | connect => Except AnyError Unit
  | db op => Except AnyError op.Val
  | metadata _ => Except IoError Metadata
  | openFile _ => Except IoError Unit
  | readFile _ => Except IoError Bytes
  | isDir _ => Bool
  | canonicalize _ => Except IoError String
  | walk _ => List (Except String DirEntry)
  | gitPlan _ => Except AnyError GitIngestPlan
  | trackedFiles _ => Except AnyError (List String)
  | embed _ _ => Except EmbeddingError (List Vector32)
  | now => ℤ

/-! ## Answers -/

/-- The version of every file that a dispatch sees, by its path (as `Lib.OsStr` spells it); `none` where
    there is no readable file. -/
abbrev View := String → Option Bytes

/-- A successful call of the embedding provider, with the files as the calling dispatch sees them. -/
structure EmbedCall where
  view : View
  model : EmbeddingModel
  inputs : List Bytes
  vectors : List Vector32

/-- The pairs an access planned: what an ingest or a replan has written anew. -/
def DbReq.planned : (op : DbReq) → op.Val → List Pair
  | upsertDocument _ modelId _ _, (docId, true) => [(docId, modelId)]
  | _, _ => []

/-- The store, the provider calls so far and the pairs planned so far. -/
structure World where
  store : Store
  calls : List EmbedCall
  planned : List Pair

/-- An error without an `EmbeddingError` among its causes. -/
def AnyError.Plain (e : AnyError) : Prop := ∀ cause ∈ e.chain, cause.downcast = none

theorem AnyError.Plain.retry {e : AnyError} (h : e.Plain) : embeddingRetryAfterSecs e = none :=
  List.findSome?_eq_none_iff.2 fun cause hc => by rw [h cause hc]; rfl

theorem AnyError.plain_msg (text : String) : (AnyError.msg text).Plain := by
  simp [Plain, chain, downcast]

theorem AnyError.Plain.context {e : AnyError} (h : e.Plain) (text : String) :
    (AnyError.context text e).Plain := by
  simp only [Plain, chain, List.mem_cons, forall_eq_or_imp]
  exact ⟨rfl, h⟩

/-- How a request is answered in a world, and the world after it. -/
def Answers (view : View) (mayFail : Prop) (w : World) : (r : Req) → r.Ans → World → Prop
  | .db op, a, w' =>
    (∃ v store, a = .ok v ∧ op.run.Ok w.store v store ∧
      w' = { w with store := store, planned := op.planned v ++ w.planned }) ∨
      mayFail ∧ w' = w ∧ ∃ e, a = .error e ∧ e.Plain
  | .embed model inputs, a, w' =>
    (∃ vectors, a = .ok vectors ∧ w' = { w with calls := ⟨view, model, inputs, vectors⟩ :: w.calls }) ∨
      w' = w ∧ ∃ e, a = .error e
  | .connect, a, w' => w' = w ∧ (a = .ok () ∨ mayFail ∧ ∃ e, a = .error e ∧ e.Plain)
  | .metadata path, a, w' => w' = w ∧
    ((∃ file meta_, view path = some file ∧ a = .ok meta_ ∧ meta_.isFile = true ∧ meta_.len = file.length) ∨
      (view path = none ∧ ((∃ meta_, a = .ok meta_ ∧ meta_.isFile = false) ∨
        ∃ e, a = .error e ∧ e.notFound = true)) ∨
      mayFail ∧ ∃ e, a = .error e ∧ e.notFound = false)
  | .openFile path, a, w' => w' = w ∧ ((∃ file, view path = some file ∧ a = .ok ()) ∨
      (view path = none ∨ mayFail) ∧ ∃ e, a = .error e)
  | .readFile path, a, w' => w' = w ∧ ((∃ file, view path = some file ∧ a = .ok file) ∨
      (view path = none ∨ mayFail) ∧ ∃ e, a = .error e)
  | .gitPlan _, a, w' => w' = w ∧ ∀ e, a = .error e → e.Plain
  | .trackedFiles _, a, w' => w' = w ∧ ∀ e, a = .error e → e.Plain
  | .isDir _, _, w' => w' = w
  | .canonicalize _, _, w' => w' = w
  | .walk _, _, w' => w' = w
  | .now, _, w' => w' = w

/-- What an access may change: a database operation works, or the provider is called. -/
inductive Changes (w : World) : Req → World → Prop
  | committed {op : DbReq} {v : op.Val} {store : Store} : op.run.Ok w.store v store →
      Changes w (.db op) { w with store := store, planned := op.planned v ++ w.planned }
  | called (r : Req) (c : EmbedCall) : Changes w r { w with calls := c :: w.calls }
  | same (r : Req) : Changes w r w

theorem Answers.changes {view : View} {mayFail : Prop} {w w' : World} {r : Req} {a : r.Ans}
    (h : Answers view mayFail w r a w') : Changes w r w' := by
  cases r with
  | db op =>
    obtain ⟨v, store, -, hok, rfl⟩ | ⟨-, rfl, -⟩ := h
    · exact .committed hok
    · exact .same _
  | embed model inputs =>
    obtain ⟨vectors, -, rfl⟩ | ⟨rfl, -⟩ := h
    · exact .called _ _
    · exact .same _
  | connect | metadata | openFile | readFile | gitPlan | trackedFiles =>
    obtain ⟨rfl, -⟩ := h
    exact .same _
  | isDir | canonicalize | walk | now =>
    obtain rfl := h
    exact .same _

/-- What answers without failures also answers where failures may happen. -/
theorem Answers.mayFail {view : View} {mayFail : Prop} {w w' : World} {r : Req} {a : r.Ans}
    (h : Answers view False w r a w') : Answers view mayFail w r a w' := by
  cases r with
  | db op => exact h.imp_right fun h => h.1.elim
  | connect => exact ⟨h.1, h.2.imp_right fun h => h.1.elim⟩
  | metadata => exact ⟨h.1, h.2.imp_right fun h => h.imp_right fun h => h.1.elim⟩
  | openFile | readFile => exact ⟨h.1, h.2.imp_right fun h => ⟨h.1.imp_right False.elim, h.2⟩⟩
  | embed | gitPlan | trackedFiles | isDir | canonicalize | walk | now => exact h

end Ask
