/-
  Startup reconciliation: `startup.rs`, and the backfill of a new model.
-/
import Ask.Requests

namespace Ask

open Lib

variable (E : Env) (view : View)

/-- Plan the file as it is now, by its name alone where it cannot be read. -/
def queuePendingEmbeddingsForDocument (path : String) (docId : ℤ) (model : EmbeddingModel)
    (now : ℤ) : Db Unit :=
  let contentPlan := match view path with
    | some file => readContentPrefix file
    | none => .filenameOnly
  let chunkRefs := (planPendingEmbeddingsForReadPlan E.f64 contentPlan model).chunks
  Db.context s!"failed to queue embeddings for {path}"
    (insertPendingEmbeddings docId model.id chunkRefs now)

/-- Queue pending embeddings for every existing document under a new model. -/
def backfillPendingForModel (model : EmbeddingModel) (now : ℤ) : Db ℕ := do
  let docs ← listDocuments
  Tx.each (fun doc =>
    Db.context s!"failed to backfill pending embeddings for document {doc.id} at {doc.filepath}"
      (queuePendingEmbeddingsForDocument E view doc.filepath doc.id model now)) docs
  let _ ← seedEmbedJobs now
  pure docs.length

/-- High-level startup state after reconciliation. -/
inductive StartupSummaryKind where
  | empty
  | recovered
  | idle
  deriving DecidableEq, Repr

/-- What a startup found and did. -/
structure StartupEmbeddingState where
  model : EmbeddingModel
  backfilledDocuments : ℕ
  seededJobs : ℕ
  documentCount : ℕ
  recoverablePairs : ℕ
  summaryKind : StartupSummaryKind
  deriving DecidableEq, Repr

/-- Nothing there, work left over, or nothing to do. -/
def classifySummary (documentCount recoverablePairs : ℕ) : StartupSummaryKind :=
  if documentCount = 0 then .empty else if 0 < recoverablePairs then .recovered else .idle

/-- Register a new model and queue every document under it. -/
def registerModel (identity : EmbeddingIdentity) (now : ℤ) : Db (EmbeddingModel × ℕ) := do
  let id ← insertModel identity now
  let model : EmbeddingModel :=
    ⟨id, identity.name, identity.dimensions, identity.chunkSize, identity.chunkOverlap, now⟩
  let backfilledDocuments ← backfillPendingForModel E view model now
  pure (model, backfilledDocuments)

/-- The configured model, and the number of documents queued under it if it is new. -/
def resolveModel (identity : EmbeddingIdentity) (now : ℤ) : Db (EmbeddingModel × ℕ) := do
  match ← findModelByIdentity identity with
  | some model => pure (model, 0)
  | none => registerModel E view identity now

/-- Resolve the configured model row and reconcile pending embedding work. -/
def reconcileEmbeddingStartup (identity : EmbeddingIdentity) (now : ℤ) :
    Db StartupEmbeddingState := do
  let resolved ← resolveModel E view identity now
  let seededJobs ← seedEmbedJobs now
  let documentCount ← Tx.query fun s => .ok s.documents.rows.length
  let recoverablePairs ← Tx.query fun s => .ok s.recoverablePairs.length
  pure ⟨resolved.1, resolved.2, seededJobs, documentCount, recoverablePairs,
    classifySummary documentCount recoverablePairs⟩

end Ask
