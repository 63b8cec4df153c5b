/-
  The store operations of `repository.rs`.

  Statements fail here only on what the schema refuses: a foreign key, a unique
  index, a vector of the wrong length.  Failures from outside (I/O, a busy
  database) belong to the callers, see `Ask.Requests`.
-/
import Ask.Store

namespace Ask

open Lib

/-! ## Queries -/

/-- The latest row for a path. -/
def loadDocumentByPath (filepath : String) : Db (Option Document) := Tx.query fun s =>
  .ok (maxBy (fun a b => (compare a.updatedAt b.updatedAt).then (compare a.id b.id))
    (s.documents.rows.filter fun d => d.filepath = filepath))

/-- `SELECT ... FROM documents WHERE id = ?` -/
def findDocumentById (id : ℤ) : Db (Option Document) := Tx.query fun s => .ok (s.documents.get? id)

/-- All documents in the order of their paths. -/
def listDocuments : Db (List Document) := Tx.query fun s =>
  .ok (s.documents.rows.insertionSort fun a b => a.filepath ≤ b.filepath)

/-- `SELECT ... FROM embedding_models WHERE id = ?` -/
def findModelById (id : ℤ) : Db (Option EmbeddingModel) := Tx.query fun s => .ok (s.models.get? id)

/-- The model of this name, length, chunk size and overlap. -/
def findModelByIdentity (identity : EmbeddingIdentity) : Db (Option EmbeddingModel) :=
  Tx.query fun s => .ok (s.models.rows.find? fun m => m.identity = identity)

/-- The order of the `chunk_type` texts. -/
def ChunkType.rank : ChunkType → ℕ
  | content => 0
  | filename => 1

/-- `ORDER BY chunk_type, chunk_start, id`. -/
def chunkOrder (a b : DocumentEmbedding) : Prop :=
  a.chunkType.rank < b.chunkType.rank ∨ a.chunkType.rank = b.chunkType.rank ∧
    (a.chunkStart < b.chunkStart ∨ a.chunkStart = b.chunkStart ∧ a.id ≤ b.id)

instance : DecidableRel chunkOrder := fun _ _ => inferInstanceAs (Decidable (_ ∨ _))

/-- The rows of a pair that are not embedded, in the order of their chunks. -/
def listRecoverableEmbeddingsForModel (docId modelId : ℤ) : Db (List DocumentEmbedding) :=
  Tx.query fun s =>
    .ok ((s.embeddings.rows.filter fun r =>
      r.pair = (docId, modelId) ∧ r.recoverable = true).insertionSort chunkOrder)

/-! ## The vector table -/

/-- The vector table without the vectors of the embedding rows that satisfy `p`. -/
def Store.vecWithout (s : Store) (p : DocumentEmbedding → Bool) : Option VecTable :=
  s.vec.map fun v => v.delete fun rowid => s.embeddings.rows.any fun r => decide (r.id = rowid) && p r

/-- Delete the vectors of the embedding rows that satisfy `p`, if there is a table. -/
def deleteVecRows (p : DocumentEmbedding → Bool) : Db Unit := Tx.exec fun s =>
  .ok ((), { s with vec := s.vecWithout p })

/-- Drop the vectors of whole documents. -/
def deleteVecRowsForDocuments (docIds : List ℤ) : Db Unit :=
  deleteVecRows fun r => decide (r.documentId ∈ docIds)

/-- Drop the vectors of a pair. -/
def deleteVecRowsForDocumentModel (docId modelId : ℤ) : Db Unit :=
  deleteVecRows fun r => decide (r.pair = (docId, modelId))

/-- Drop the vectors of a pair's rows that are not embedded. -/
def deleteVecRowsForNonEmbeddedDocumentModel (docId modelId : ℤ) : Db Unit :=
  deleteVecRows fun r => decide (r.pair = (docId, modelId)) && decide (r.state ≠ .embedded)

/-- `INSERT OR REPLACE` of rows one after the other, all or none. -/
def putAll (v : VecTable) : List (ℤ × Bytes) → Option VecTable
  | [] => some v
  | (rowid, vector) :: rows => (v.put rowid vector).bind fun v => putAll v rows

/-- The rowids and vectors of the embedded rows that satisfy `p`. -/
def embeddedVectors (s : Store) (p : DocumentEmbedding → Bool) : List (ℤ × Bytes) :=
  s.embeddings.rows.filterMap fun r =>
    if p r && decide (r.state = .embedded) then r.embedding.map fun v => (r.id, v) else none

/-- Copy the vectors of the embedded rows that satisfy `p` to the table, if there is one. -/
def putVecRows (p : DocumentEmbedding → Bool) : Db Unit := Tx.exec fun s =>
  match s.vec with
  | none => .ok ((), s)
  | some v =>
    match putAll v (embeddedVectors s p) with
    | some v' => .ok ((), { s with vec := some v' })
    | none => .error (.msg "Dimension mismatch for inserted vector")

/-- Write the vectors of a pair's embedded rows, whatever model is active. -/
def syncVecRowsForDocumentModel (docId modelId : ℤ) : Db Unit :=
  Db.context "failed to sync vec rows for document/model pair"
    (putVecRows fun r => decide (r.pair = (docId, modelId)))

/-! ## The job queue -/

/-- `enqueue_job`, as one statement sequence on the queue. -/
def enqueueJobDb (jobType : JobType) (payload : String) (now : ℤ) : Db Unit := Tx.exec fun s =>
  match enqueueJob s.jobs jobType payload now with
  | (.ok (), q) => .ok ((), { s with jobs := q })
  | (.error e, _) => .error e

/-- Whether an error only says that the job is there. -/
def isJobAlreadyQueuedError (err : AnyError) : Bool :=
  decide ("already queued or in progress".toList <:+: err.display.toList)

/-- One round of `seed_embed_jobs`: the number of jobs it queued. -/
def seedEmbedJob (p : Pair) (now : ℤ) : Db ℕ := Tx.exec fun s =>
  match enqueueJob s.jobs .embedDocument (embedPayloadJson p) now with
  | (.ok (), q) => .ok (1, { s with jobs := q })
  | (.error err, q) =>
    if isJobAlreadyQueuedError err then .ok (0, { s with jobs := q })
    else .error (.context ("failed to enqueue embed_document job for document " ++ toString p.1 ++
      " and model " ++ toString p.2) err)

/-- Ask for an embed job for each pair; how many were new. -/
def seedPairs (now : ℤ) : List Pair → ℕ → Db ℕ
  | [], seeded => pure seeded
  | p :: pairs, seeded => do
    let n ← seedEmbedJob p now
    seedPairs now pairs (seeded + n)

/-- Enqueue one `embed_document` job for each pair with pending or stale rows. -/
def seedEmbedJobs (now : ℤ) : Db ℕ := do
  let pairs ← Tx.query fun s => .ok s.recoverablePairs
  seedPairs now pairs 0

/-- `complete_job` -/
def completeJobDb (jobId : ℤ) : Db Unit := Tx.exec fun s =>
  .ok ((), { s with jobs := completeJob s.jobs jobId })

/-- `defer_job_for_retry` -/
def deferJobForRetryDb (jobId now : ℤ) (retryAfterSecs : ℕ) : Db Unit := Tx.exec fun s =>
  .ok ((), { s with jobs := deferJobForRetry s.jobs jobId now retryAfterSecs })

/-! ## Documents and embeddings -/

/-- The embeddings with the embedded rows of the documents, where these exist, stale. -/
def Store.markStale (s : Store) (docIds : List ℤ) : Embeddings :=
  s.embeddings.update fun r =>
    if r.documentId ∈ docIds ∧ (s.documents.get? r.documentId).isSome = true ∧ r.state = .embedded then
      { r with state := .stale }
    else r

/-- Mark all embeddings of the documents as stale and queue their jobs, with a step before the queueing. -/
def markDocumentsStaleInQueueTimeWithHook (docIds : List ℤ) (now : ℤ)
    (beforeSeed : Except AnyError Unit) : Db Unit :=
  if docIds = [] then pure () else do
    Tx.exec fun s => .ok ((), { s with embeddings := s.markStale docIds })
    deleteVecRowsForDocuments docIds
    Tx.query fun _ => beforeSeed
    let _ ← seedEmbedJobs now
    pure ()

/-- Mark all embeddings of the documents as stale and queue their jobs. -/
def markDocumentsStaleInQueueTime (docIds : List ℤ) (now : ℤ) : Db Unit :=
  markDocumentsStaleInQueueTimeWithHook docIds now (.ok ())

theorem markDocumentsStaleInQueueTime_eq (docIds : List ℤ) (now : ℤ) :
    markDocumentsStaleInQueueTime docIds now = (if docIds = [] then pure () else do
      Tx.exec fun s => .ok ((), { s with embeddings := s.markStale docIds })
      deleteVecRowsForDocuments docIds
      let _ ← seedEmbedJobs now
      pure ()) := by
  simp only [markDocumentsStaleInQueueTime, markDocumentsStaleInQueueTimeWithHook, Tx.query_ok_bind]

/-- The same in a transaction. -/
def markDocumentsStaleWithHook (docIds : List ℤ) (now : ℤ)
    (beforeSeed : Except AnyError Unit) : Db Unit :=
  if docIds = [] then pure ()
  else Tx.transaction (markDocumentsStaleInQueueTimeWithHook docIds now beforeSeed)

/-- Mark the documents' rows stale and ask for their jobs, in one transaction. -/
def markDocumentsStale (docIds : List ℤ) (now : ℤ) : Db Unit :=
  markDocumentsStaleWithHook docIds now (.ok ())

/-- The documents after the `UPDATE` of `upsert_document`, which writes every column but
    the id and the path. -/
def Store.updateDocument (s : Store) (id : ℤ) (doc : Document) : Documents :=
  s.documents.update fun d =>
    if d.id = id then
      { d with
        fileType := doc.fileType, docCategory := doc.docCategory,
        fileModifiedAt := doc.fileModifiedAt, fileSize := doc.fileSize,
        fileHash := doc.fileHash, metadataJson := doc.metadataJson, updatedAt := doc.updatedAt }
    else d

/-- A new document row; its id. -/
def insertDocument (doc : Document) : Db ℤ := Tx.exec fun s =>
  match s.documents.insert fun id => { doc with id := id } with
  | some documents => .ok (documents.seq, { s with documents := documents })
  | none => .error (.msg "UNIQUE constraint failed: documents.id")

/-- Insert a document or update the latest row for its path; whether anything changed. -/
def upsertDocumentInTx (doc : Document) : Db (ℤ × Bool) := do
  match ← loadDocumentByPath doc.filepath with
  | some existing =>
    if existing.fileHash = doc.fileHash then pure (existing.id, false)
    else do
      Tx.exec fun s => .ok ((), { s with documents := s.updateDocument existing.id doc })
      markDocumentsStaleInQueueTime [existing.id] doc.updatedAt
      pure (existing.id, true)
  | none => do
    let id ← insertDocument doc
    pure (id, true)

/-- A planned chunk: its type, start and end. -/
abbrev ChunkRef := ChunkType × ℤ × ℤ

/-- Whether the foreign keys of an embedding row hold. -/
def Store.hasPair (s : Store) (docId modelId : ℤ) : Bool :=
  (s.documents.get? docId).isSome && (s.models.get? modelId).isSome

/-- A pending row for a chunk. -/
def pendingRow (docId modelId now : ℤ) (chunk : ChunkRef) (id : ℤ) : DocumentEmbedding :=
  ⟨id, docId, modelId, chunk.1, chunk.2.1, chunk.2.2, .pending, none, now⟩

/-- The upsert of one pending row. -/
def insertPendingEmbedding (docId modelId : ℤ) (chunk : ChunkRef) (now : ℤ) : Db Unit :=
  Tx.exec fun s =>
    if s.hasPair docId modelId then
      match s.embeddings.insert (pendingRow docId modelId now chunk) with
      | some embeddings => .ok ((), { s with embeddings := embeddings })
      | none =>
        .ok ((), { s with
          embeddings := s.embeddings.update fun r =>
            if r.uniqueKey = ((docId, modelId), chunk.1, chunk.2.1) then
              { r with chunkEnd := chunk.2.2, state := .pending, embedding := none, createdAt := now }
            else r })
    else .error (.msg "FOREIGN KEY constraint failed")

/-- A pending row for each chunk. -/
def insertPendingEmbeddings (docId modelId : ℤ) (chunks : List ChunkRef) (now : ℤ) : Db Unit := do
  Tx.each (fun chunk =>
    Db.context ("failed to insert embedding (" ++ toString docId ++ ", " ++ toString modelId ++
      ", " ++ chunk.1.asStr ++ ")") (insertPendingEmbedding docId modelId chunk now)) chunks
  deleteVecRowsForNonEmbeddedDocumentModel docId modelId

/-- Delete the rows that satisfy a condition. -/
def deleteEmbeddings (p : DocumentEmbedding → Bool) : Db Unit := Tx.exec fun s =>
  .ok ((), { s with embeddings := s.embeddings.delete p })

/-- Delete a pair's rows, their vectors first. -/
def deleteEmbeddingsForModel (docId modelId : ℤ) : Db Unit := do
  deleteVecRowsForDocumentModel docId modelId
  deleteEmbeddings fun r => decide (r.pair = (docId, modelId))

/-- Upsert one document and replace its pending embedding work in one transaction, with a step after the
    document's row. -/
def upsertDocumentAndReplacePendingEmbeddingsWithHook (doc : Document) (modelId : ℤ)
    (chunks : List ChunkRef) (now : ℤ) (beforeQueue : Except AnyError Unit) : Db (ℤ × Bool) :=
  Tx.transaction do
    let (docId, changed) ← upsertDocumentInTx doc
    if changed then do
      Tx.query fun _ => beforeQueue
      deleteEmbeddingsForModel docId modelId
      insertPendingEmbeddings docId modelId chunks now
      let _ ← seedEmbedJobs now
      pure (docId, true)
    else pure (docId, false)

/-- Upsert one document and replace its pending embedding work in one transaction. -/
def upsertDocumentAndReplacePendingEmbeddings (doc : Document) (modelId : ℤ)
    (chunks : List ChunkRef) (now : ℤ) : Db (ℤ × Bool) :=
  upsertDocumentAndReplacePendingEmbeddingsWithHook doc modelId chunks now (.ok ())

theorem upsertDocumentAndReplacePendingEmbeddings_eq (doc : Document) (modelId : ℤ)
    (chunks : List ChunkRef) (now : ℤ) :
    upsertDocumentAndReplacePendingEmbeddings doc modelId chunks now = Tx.transaction (do
      let (docId, changed) ← upsertDocumentInTx doc
      if changed then do
        deleteEmbeddingsForModel docId modelId
        insertPendingEmbeddings docId modelId chunks now
        let _ ← seedEmbedJobs now
        pure (docId, true)
      else pure (docId, false)) := by
  simp only [upsertDocumentAndReplacePendingEmbeddings, upsertDocumentAndReplacePendingEmbeddingsWithHook,
    Tx.query_ok_bind]

/-- Delete a document and all embedding rows owned by it. -/
def deleteDocument (docId : ℤ) : Db Unit := Tx.transaction do
  deleteVecRowsForDocuments [docId]
  deleteEmbeddings fun r => decide (r.documentId = docId)
  Tx.exec fun s => .ok ((), { s with documents := s.documents.delete fun d => decide (d.id = docId) })

/-- The bytes of a stored vector of the model. -/
def loadExpectedEmbeddingBytes (modelId : ℤ) : Db ℕ := Tx.query fun s =>
  match s.models.get? modelId with
  | none => .error (.context ("failed to load dimensions for model " ++ toString modelId)
      (.msg "Query returned no rows"))
  | some model =>
    if 0 ≤ model.dimensions then .ok (model.dimensions.toNat * 4)
    else .error (.context "embedding dimensions must fit into usize"
      (.msg "out of range integral type conversion attempted"))

/-- Every vector has the model's length, or nothing is written. -/
def validateChunkEmbeddingLengths (chunks : List EmbeddedChunk) (expected : ℕ) : Db Unit :=
  match chunks.find? fun chunk => chunk.embedding.length ≠ expected with
  | none => pure ()
  | some chunk => Tx.fail (.msg ("embedded chunk (" ++ chunk.chunkType.asStr ++ ", " ++
      toString chunk.chunkStart ++ ") stored " ++ toString chunk.embedding.length ++
      " bytes but expected " ++ toString expected))

/-- An embedded row for a chunk. -/
def embeddedRow (docId modelId now : ℤ) (chunk : EmbeddedChunk) (id : ℤ) : DocumentEmbedding :=
  ⟨id, docId, modelId, chunk.chunkType, chunk.chunkStart, chunk.chunkEnd, .embedded,
    some chunk.embedding, now⟩

/-- The insert of one embedded row. -/
def insertEmbeddedChunk (docId modelId : ℤ) (chunk : EmbeddedChunk) (now : ℤ) : Db Unit :=
  Tx.exec fun s =>
    if s.hasPair docId modelId then
      match s.embeddings.insert (embeddedRow docId modelId now chunk) with
      | some embeddings => .ok ((), { s with embeddings := embeddings })
      | none => .error (.msg ("UNIQUE constraint failed: document_embeddings.document_id, " ++
          "document_embeddings.model_id, document_embeddings.chunk_type, " ++
          "document_embeddings.chunk_start"))
    else .error (.msg "FOREIGN KEY constraint failed")

/-- Replace every embedding row for one document/model pair in one transaction. -/
def replaceEmbeddingsForDocumentModel (docId modelId : ℤ) (chunks : List EmbeddedChunk)
    (now : ℤ) : Db Unit := do
  let expectedEmbeddingBytes ← loadExpectedEmbeddingBytes modelId
  validateChunkEmbeddingLengths chunks expectedEmbeddingBytes
  Tx.transaction do
    deleteVecRowsForDocumentModel docId modelId
    deleteEmbeddings fun r => decide (r.pair = (docId, modelId))
    Tx.each (fun chunk =>
      Db.context ("failed to insert embedded chunk (" ++ toString docId ++ ", " ++
        toString modelId ++ ", " ++ chunk.chunkType.asStr ++ ", " ++ toString chunk.chunkStart ++
        ")") (insertEmbeddedChunk docId modelId chunk now)) chunks
    syncVecRowsForDocumentModel docId modelId

/-! ## Models -/

/-- Insert a new model row; the generated id. -/
def insertModel (identity : EmbeddingIdentity) (createdAt : ℤ) : Db ℤ :=
  Db.context "failed to insert model row" <| Tx.exec fun s =>
    match s.models.insert fun id =>
        ⟨id, identity.name, identity.dimensions, identity.chunkSize, identity.chunkOverlap, createdAt⟩ with
    | some models => .ok (models.seq, { s with models := models })
    | none => .error (.msg ("UNIQUE constraint failed: embedding_models.name, " ++
        "embedding_models.dimensions, embedding_models.chunk_size, embedding_models.chunk_overlap"))

end Ask
