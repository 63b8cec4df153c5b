/-
  Embedding statistics: `http/progress.rs` of the server.

  A query yields rows of typed values, which the server decodes column by
  column.  The rates of the response are floating-point and stay outside.
-/
import Ask.Lib.Tally
import Ask.Requests
import Mathlib.Data.String.Basic

namespace Ask

open Lib

/-! ## Rows of a query -/

/-- A value, as SQLite types it. -/
inductive SqlValue where
  | null
  | integer (value : ℤ)
  | text (value : String)
  deriving DecidableEq, Repr

/-- The name of a value's type in errors. -/
def SqlValue.typeName : SqlValue → String
  | null => "Null"
  | integer _ => "Integer"
  | text _ => "Text"

/-- The columns of a row, by name. -/
abbrev SqlRow := List (String × SqlValue)

namespace SqlRow

/-- What `rusqlite` says of a column of another type. -/
def invalidColumnType (index : ℕ) (column : String × SqlValue) : AnyError :=
  .msg s!"Invalid column type {column.2.typeName} at index: {index}, name: {column.1}"

/-- The error of a column that the row does not have. -/
def invalidColumnIndex (index : ℕ) : AnyError := .msg s!"Invalid column index: {index}"

/-- `row.get::<_, i64>` -/
def getI64 (row : SqlRow) (index : ℕ) : Except AnyError ℤ :=
  match row[index]? with
  | some (_, .integer value) => .ok value
  | some column => .error (invalidColumnType index column)
  | none => .error (invalidColumnIndex index)

/-- `row.get::<_, String>` -/
def getString (row : SqlRow) (index : ℕ) : Except AnyError String :=
  match row[index]? with
  | some (_, .text value) => .ok value
  | some column => .error (invalidColumnType index column)
  | none => .error (invalidColumnIndex index)

end SqlRow

/-- `SUM`, which is NULL over no rows. -/
def sqlSum : List ℤ → SqlValue
  | [] => .null
  | values => .integer values.sum

/-- `SUM(CASE WHEN state = ? THEN 1 ELSE 0 END)` -/
def sumOfState (rows : List DocumentEmbedding) (state : EmbedState) : SqlValue :=
  sqlSum (rows.map fun r => if decide (r.state = state) then 1 else 0)

/-! ## Queries -/

section queries
variable (s : Store)

/-- `SELECT DISTINCT document_id`, of the rows that satisfy `p`. -/
def Store.distinctDocumentIds (p : DocumentEmbedding → Bool) : List SqlRow :=
  ((s.embeddings.rows.filter p).map DocumentEmbedding.documentId).dedup.map fun documentId =>
    [("document_id", .integer documentId)]

/-- `claimed_at IS NOT NULL AND claimed_at >= ?` -/
def JobQueueEntry.claimedSince (e : JobQueueEntry) (cutoff : ℤ) : Bool :=
  e.claimedAt.any fun c => decide (cutoff ≤ c)

/-- The payloads of the embed jobs claimed since `cutoff`. -/
def Store.claimedPayloads (cutoff : ℤ) : List SqlRow :=
  (s.jobs.rows.filter fun e => decide (e.jobType = .embedDocument) && e.claimedSince cutoff).map fun e =>
    [("payload", .text e.payload)]

/-- `GROUP BY file_type ORDER BY file_type ASC` -/
def Store.fileTypeRows : List SqlRow :=
  (tally (s.documents.rows.map Document.fileType)).map fun group =>
    [("file_type", .text group.1), ("COUNT(*)", .integer group.2)]

/-- The embedding rows of a model. -/
def Store.rowsOf (modelId : ℤ) : List DocumentEmbedding :=
  s.embeddings.rows.filter fun r => decide (r.modelId = modelId)

end queries

/-! ## The snapshot -/

/-- How many documents have a file type. -/
structure DocumentFileTypeCount where
  fileType : String
  documentCount : ℤ
  deriving DecidableEq, Repr

/-- How far the embeddings of a model are. -/
structure EmbeddingStatsSnapshot where
  totalDocuments : ℤ
  embeddedDocuments : ℤ
  failedLockedDocuments : ℤ
  remainingDocuments : ℤ
  documentsEmbeddedLastFiveMinutes : ℤ
  documentsByFileType : List DocumentFileTypeCount
  documentEmbeddingsTotal : ℤ
  documentEmbeddingsEmbedded : ℤ
  documentEmbeddingsPending : ℤ
  documentEmbeddingsStale : ℤ
  deriving DecidableEq, Repr

/-- How long a claim keeps its job locked: a day. -/
def failedLockoutSecs : ℤ := 24 * 60 * 60

/-- What counts as recent: five minutes. -/
def recentRateWindowSecs : ℤ := 5 * 60

/-- `i64::saturating_sub` -/
def saturatingSub (a b : ℤ) : ℤ := max (-2 ^ 63) (min (2 ^ 63 - 1) (a - b))

/-- How many documents there are. -/
def countDocuments : Db ℤ := Db.context "failed to count documents" <| Tx.query fun s =>
  SqlRow.getI64 [("COUNT(*)", .integer s.documents.rows.length)] 0

/-- The ids of the documents with a row of the model in one of the states. -/
def loadDistinctDocumentIdsForStates (modelId : ℤ) : List EmbedState → Db (Finset ℤ)
  | [] => pure ∅
  | state :: states => do
    let documentIds ← Tx.query fun s =>
      (s.distinctDocumentIds fun r => decide (r.modelId = modelId) && decide (r.state = state)).mapM
        fun row => (row.getI64 0).mapError (.context "failed to read embedding document id")
    let rest ← loadDistinctDocumentIdsForStates modelId states
    pure (documentIds.toFinset ∪ rest)

/-- The document of a claimed job's payload, if it is for the model. -/
def claimedDocument (E : Env) (modelId : ℤ) (row : SqlRow) : Except AnyError (Option ℤ) := do
  let payload ← (row.getString 0).mapError (.context "failed to read claimed job payload")
  let payload ← (E.decodeEmbedPayload payload).mapError
    (.context "failed to decode claimed embed-document payload")
  pure (if payload.modelId = modelId then some payload.documentId else none)

/-- The documents of the model's embed jobs whose claim is not too old. -/
def loadClaimedEmbedDocumentIds (E : Env) (modelId claimedAfter : ℤ) : Db (Finset ℤ) :=
  Tx.query fun s => do
    let documentIds ← (s.claimedPayloads claimedAfter).mapM (claimedDocument E modelId)
    pure documentIds.reduceOption.toFinset

/-- The documents with a row of the model embedded since a time. -/
def loadRecentEmbeddedDocumentIds (modelId createdAfter : ℤ) : Db (Finset ℤ) :=
  Tx.query fun s => do
    let documentIds ← (s.distinctDocumentIds fun r => decide (r.modelId = modelId) &&
      decide (r.state = .embedded) && decide (createdAfter ≤ r.createdAt)).mapM
        fun row => (row.getI64 0).mapError (.context "failed to read recent embedded document id")
    pure documentIds.toFinset

/-- The row mapper of file-type counts. -/
def fileTypeCount (row : SqlRow) : Except AnyError DocumentFileTypeCount := do
  let fileType ← row.getString 0
  let documentCount ← row.getI64 1
  pure ⟨fileType, documentCount⟩

/-- The documents of each file type. -/
def loadDocumentFileTypeCounts : Db (List DocumentFileTypeCount) :=
  Db.context "failed to collect document file-type counts" <| Tx.query fun s =>
    s.fileTypeRows.mapM fileTypeCount

/-- The columns `total`, `embedded`, `pending` and `stale`. -/
def embeddingCounts (row : SqlRow) : Except AnyError (ℤ × ℤ × ℤ × ℤ) := do
  let total ← row.getI64 0
  let embedded ← row.getI64 1
  let pending ← row.getI64 2
  let stale ← row.getI64 3
  pure (total, embedded, pending, stale)

/-- The rows of a model, and those of each state. -/
def loadDocumentEmbeddingCounts (modelId : ℤ) : Db (ℤ × ℤ × ℤ × ℤ) :=
  Db.context "failed to query document embedding counts" <| Tx.query fun s =>
    embeddingCounts
      [("total", .integer (s.rowsOf modelId).length),
        ("embedded", sumOfState (s.rowsOf modelId) .embedded),
        ("pending", sumOfState (s.rowsOf modelId) .pending),
        ("stale", sumOfState (s.rowsOf modelId) .stale)]

/-- All numbers of a snapshot, read one after the other. -/
def loadEmbeddingStatsSnapshot (E : Env) (model : EmbeddingModel) (now : ℤ) :
    Db EmbeddingStatsSnapshot := do
  let staleCutoff := now - failedLockoutSecs
  let recentWindowStart := now - recentRateWindowSecs
  let totalDocuments ← countDocuments
  let recoverableDocuments ← loadDistinctDocumentIdsForStates model.id [.pending, .stale]
  let embeddedDocuments ← loadDistinctDocumentIdsForStates model.id [.embedded]
  let claimedDocuments ← loadClaimedEmbedDocumentIds E model.id staleCutoff
  let recentEmbeddedDocuments ← loadRecentEmbeddedDocumentIds model.id recentWindowStart
  let documentsByFileType ← loadDocumentFileTypeCounts
  let (documentEmbeddingsTotal, documentEmbeddingsEmbedded, documentEmbeddingsPending,
    documentEmbeddingsStale) ← loadDocumentEmbeddingCounts model.id
  let failedLockedDocuments : ℤ := (recoverableDocuments ∩ claimedDocuments).card
  let embeddedDocuments : ℤ := (embeddedDocuments \ recoverableDocuments).card
  let documentsEmbeddedLastFiveMinutes : ℤ := (recentEmbeddedDocuments \ recoverableDocuments).card
  let remainingDocuments :=
    saturatingSub (saturatingSub totalDocuments embeddedDocuments) failedLockedDocuments
  pure
    { totalDocuments
      embeddedDocuments
      failedLockedDocuments
      remainingDocuments
      documentsEmbeddedLastFiveMinutes
      documentsByFileType
      documentEmbeddingsTotal
      documentEmbeddingsEmbedded
      documentEmbeddingsPending
      documentEmbeddingsStale }

end Ask
