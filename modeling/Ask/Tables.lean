/-
  The rows of the store as the migrated tables have them: what the statements of
  `repository.rs` write (`ToSql`), and what their queries read back (`FromSql`).
-/
import Ask.Search
import Ask.Upgrade

namespace Ask

open Lib

/-! ## Enumerations -/

/-- The text of a category in its column. -/
def DocCategory.asStr : DocCategory → String
  | knowledgeFile => "knowledge_file"
  | resource => "resource"

/-- The category of a text. -/
def DocCategory.tryFromStr : String → Option DocCategory
  | "knowledge_file" => some knowledgeFile
  | "resource" => some resource
  | _ => none

/-- The text of a state in its column. -/
def EmbedState.asStr : EmbedState → String
  | pending => "pending"
  | embedded => "embedded"
  | stale => "stale"

/-- The state of a text. -/
def EmbedState.tryFromStr : String → Option EmbedState
  | "pending" => some pending
  | "embedded" => some embedded
  | "stale" => some stale
  | _ => none

/-- The chunk type of a text. -/
def ChunkType.tryFromStr : String → Option ChunkType
  | "content" => some content
  | "filename" => some filename
  | _ => none

/-- The job type of a text. -/
def JobType.tryFromStr : String → Option JobType
  | "embed_document" => some embedDocument
  | "ingest_folder" => some ingestFolder
  | "ingest_folder_git" => some ingestFolderGit
  | _ => none

/-! ## Columns -/

/-- `row.get` of an `i64`. -/
def getInteger : Sql.Value → Option ℤ
  | .integer n => some n
  | _ => none

/-- `row.get` of a `String`. -/
def getText : Sql.Value → Option String
  | .text text => some text
  | _ => none

/-- `row.get` of a `Vec<u8>`. -/
def getBlob : Sql.Value → Option Bytes
  | .blob bytes => some bytes
  | _ => none

/-- An `Option` is read from null as well. -/
def getNullable {α : Type} (get : Sql.Value → Option α) : Sql.Value → Option (Option α)
  | .null => some none
  | v => (get v).map some

/-- `column_result` of an enumeration. -/
def getEnum {α : Type} (tryFromStr : String → Option α) (v : Sql.Value) : Option α :=
  (getText v).bind tryFromStr

/-! ## Rows -/

/-- A document as a row of `documents`. -/
def Document.row (d : Document) : TableRow
  | .id => .integer d.id
  | .filepath => .text d.filepath
  | .fileType => .text d.fileType
  | .docCategory => .text d.docCategory.asStr
  | .fileModifiedAt => .integer d.fileModifiedAt
  | .fileSize => .integer d.fileSize
  | .fileHash => .text d.fileHash
  | .metadataJson => .text d.metadataJson
  | .updatedAt => .integer d.updatedAt
  | _ => .null

/-- The closure of the queries for documents. -/
def mapDocument (row : TableRow) : Option Document := do
  let id ← getInteger (row .id)
  let filepath ← getText (row .filepath)
  let fileType ← getText (row .fileType)
  let docCategory ← getEnum DocCategory.tryFromStr (row .docCategory)
  let fileModifiedAt ← getInteger (row .fileModifiedAt)
  let fileSize ← getInteger (row .fileSize)
  let fileHash ← getText (row .fileHash)
  let metadataJson ← getText (row .metadataJson)
  let updatedAt ← getInteger (row .updatedAt)
  pure ⟨id, filepath, fileType, docCategory, fileModifiedAt, fileSize, fileHash, metadataJson, updatedAt⟩

/-- A model as a row of `embedding_models`. -/
def EmbeddingModel.row (m : EmbeddingModel) : TableRow
  | .id => .integer m.id
  | .name => .text m.name
  | .dimensions => .integer m.dimensions
  | .chunkSize => .integer m.chunkSize
  | .chunkOverlap => .integer m.chunkOverlap
  | .createdAt => .integer m.createdAt
  | _ => .null

/-- The row mapper of models. -/
def mapEmbeddingModel (row : TableRow) : Option EmbeddingModel := do
  let id ← getInteger (row .id)
  let name ← getText (row .name)
  let dimensions ← getInteger (row .dimensions)
  let chunkSize ← getInteger (row .chunkSize)
  let chunkOverlap ← getInteger (row .chunkOverlap)
  let createdAt ← getInteger (row .createdAt)
  pure ⟨id, name, dimensions, chunkSize, chunkOverlap, createdAt⟩

/-- An embedding as a row of `document_embeddings`. -/
def DocumentEmbedding.row (r : DocumentEmbedding) : TableRow
  | .id => .integer r.id
  | .documentId => .integer r.documentId
  | .modelId => .integer r.modelId
  | .chunkType => .text r.chunkType.asStr
  | .chunkStart => .integer r.chunkStart
  | .chunkEnd => .integer r.chunkEnd
  | .state => .text r.state.asStr
  | .embedding => (r.embedding.map Sql.Value.blob).getD .null
  | .createdAt => .integer r.createdAt
  | _ => .null

/-- The closure of `list_recoverable_embeddings_for_model`. -/
def mapDocumentEmbedding (row : TableRow) : Option DocumentEmbedding := do
  let id ← getInteger (row .id)
  let documentId ← getInteger (row .documentId)
  let modelId ← getInteger (row .modelId)
  let chunkType ← getEnum ChunkType.tryFromStr (row .chunkType)
  let chunkStart ← getInteger (row .chunkStart)
  let chunkEnd ← getInteger (row .chunkEnd)
  let state ← getEnum EmbedState.tryFromStr (row .state)
  let embedding ← getNullable getBlob (row .embedding)
  let createdAt ← getInteger (row .createdAt)
  pure ⟨id, documentId, modelId, chunkType, chunkStart, chunkEnd, state, embedding, createdAt⟩

/-- A job as a row of `job_queue`. -/
def JobQueueEntry.row (e : JobQueueEntry) : TableRow
  | .id => .integer e.id
  | .jobType => .text e.jobType.asStr
  | .payload => .text e.payload
  | .claimedAt => (e.claimedAt.map Sql.Value.integer).getD .null
  | .createdAt => .integer e.createdAt
  | _ => .null

/-- The closure of `claim_job`. -/
def mapJob (row : TableRow) : Option JobQueueEntry := do
  let id ← getInteger (row .id)
  let jobType ← getEnum JobType.tryFromStr (row .jobType)
  let payload ← getText (row .payload)
  let claimedAt ← getNullable getInteger (row .claimedAt)
  let createdAt ← getInteger (row .createdAt)
  pure ⟨id, jobType, payload, claimedAt, createdAt⟩

/-- The one row of its table. -/
def SearchState.row (state : SearchState) : TableRow
  | .singletonId => .integer 1
  | .activeModelId => .integer state.activeModelId
  | .dimensions => .integer state.dimensions
  | .updatedAt => .integer state.updatedAt
  | _ => .null

/-- The closure of `ensure_active_vec_model`. -/
def mapActiveModel (row : TableRow) : Option (ℤ × ℤ) := do
  let activeModelId ← getInteger (row .activeModelId)
  let dimensions ← getInteger (row .dimensions)
  pure (activeModelId, dimensions)

/-- The closure of `search_documents_by_embedding`, for an embedding joined with its document; the
    distance is no column of a table. -/
def mapSearchResult {D : Type} (d de : TableRow) (distance : D) : Option (DocumentSearchResult D) := do
  let documentId ← getInteger (d .id)
  let filepath ← getText (d .filepath)
  let fileType ← getText (d .fileType)
  let docCategory ← getEnum DocCategory.tryFromStr (d .docCategory)
  let fileModifiedAt ← getInteger (d .fileModifiedAt)
  let fileSize ← getInteger (d .fileSize)
  let documentUpdatedAt ← getInteger (d .updatedAt)
  let embeddingId ← getInteger (de .id)
  let modelId ← getInteger (de .modelId)
  let chunkType ← getEnum ChunkType.tryFromStr (de .chunkType)
  let chunkStart ← getInteger (de .chunkStart)
  let chunkEnd ← getInteger (de .chunkEnd)
  pure ⟨documentId, filepath, fileType, docCategory, fileModifiedAt, fileSize, documentUpdatedAt, embeddingId,
    modelId, chunkType, chunkStart, chunkEnd, distance⟩

/-! ## Tables -/

/-- The store in its tables; `document_embedding_vec` is not one of the migrations'. -/
def Store.contents (s : Store) : Contents
  | .documents => ⟨s.documents.rows.map Document.row, s.documents.seq⟩
  | .embeddingModels => ⟨s.models.rows.map EmbeddingModel.row, s.models.seq⟩
  | .documentEmbeddings => ⟨s.embeddings.rows.map DocumentEmbedding.row, s.embeddings.seq⟩
  | .jobQueue => ⟨s.jobs.rows.map JobQueueEntry.row, s.jobs.seq⟩
  | .embeddingSearchState => ⟨s.searchState.toList.map SearchState.row, 0⟩
  | _ => ⟨[], 0⟩

/-- The joins of the search query for a row near the query: `de.id = nearest.rowid`,
    `d.id = de.document_id` and what its `WHERE` asks for. -/
def Contents.joinHit {D : Type} (c : Contents) (modelId : ℤ) (near : ℤ × D) : Option (DocumentSearchResult D) :=
  ((c .documentEmbeddings).rows.find? fun de => decide (de .id = .integer near.1)).bind fun de =>
    ((c .documents).rows.find? fun d => decide (d .id = de .documentId)).bind fun d =>
      if de .modelId = .integer modelId ∧ de .state = .text EmbedState.embedded.asStr then
        mapSearchResult d de near.2
      else none

end Ask
