/-
  Reading, planning and preparing the text of a file.

  Ingest reads a bounded prefix of the file and plans chunks of it
  (`worker/ingest.rs`); the embed worker later reads a prefix again, up to the
  last stored chunk end, and cuts its inputs out of that
  (`prepare_embedded_chunks`, `worker/embed_document.rs`).
-/
import Ask.ChunkLaw

namespace Ask

open Lib.Utf8

/-- Where a NUL makes a file binary. -/
def contentProbeBytes : ℕ := 8 * 1024

/-- How much of a file is indexed. -/
def contentByteBudget : ℕ := 1024 * 1024

/-- The longest scalar. -/
def utf8MaxScalarBytes : ℕ := 4

/-- `as usize` of an `i64`. -/
def asUsize (z : ℤ) : ℕ := (z % 2 ^ 64).toNat

/-- The UTF-8 bytes of a string. -/
def utf8Bytes (s : String) : Bytes := s.toUTF8.toList

/-- What was read of a file, and how much of it is text. -/
structure ContentReadPlan where
  content : Option Str
  contentUtf8 : Bool
  contentTruncated : Bool
  contentBytesIndexed : ℕ
  contentByteBudget : ℕ
  deriving DecidableEq

/-- The plan of a file whose content cannot be read. -/
def ContentReadPlan.filenameOnly : ContentReadPlan :=
  ⟨none, false, false, 0, Ask.contentByteBudget⟩

/-! ## Reading -/

/-- The text of a prefix that may end within a scalar. -/
def decodeBoundedUtf8Prefix (bytes : Bytes) (contentByteBudget : ℕ) (readTruncated : Bool) :
    Option Str :=
  if bytes.isEmpty ∨ contentByteBudget = 0 then some .empty
  else match fromUtf8 bytes with
    | .ok content =>
      let end_ := floorCharBoundary content (min content.len contentByteBudget)
      some (content.upTo end_ isCharBoundary_floor)
    | .error err =>
      if err.errorLen.isNone && readTruncated then
        match fromUtf8 (bytes.take err.validUpTo) with
        | .ok valid =>
          let end_ := floorCharBoundary valid (min valid.len contentByteBudget)
          some (valid.upTo end_ isCharBoundary_floor)
        -- `expect`: the bytes up to `valid_up_to` are valid
        | .error _ => none
      else none

/-- `read_content_prefix_with_budget` on a file with these bytes. -/
def readContentPrefixWithBudget (file : Bytes) (contentByteBudget : ℕ) : ContentReadPlan :=
  let fileLen := file.length
  let readLimit := contentByteBudget + (utf8MaxScalarBytes - 1)
  let bytes := file.take readLimit
  if (bytes.take contentProbeBytes).any (· = 0) then
    ⟨none, false, decide (bytes.length < fileLen), 0, contentByteBudget⟩
  else
    let readTruncated := decide (bytes.length < fileLen)
    match decodeBoundedUtf8Prefix bytes contentByteBudget readTruncated with
    | none => ⟨none, false, readTruncated, 0, contentByteBudget⟩
    | some content =>
      let contentBytesIndexed := content.len
      ⟨if content.bytes.isEmpty then none else some content, decide (0 < contentBytesIndexed),
        decide (contentBytesIndexed < fileLen), contentBytesIndexed, contentByteBudget⟩

/-- `read_content_prefix` -/
def readContentPrefix (file : Bytes) : ContentReadPlan :=
  readContentPrefixWithBudget file contentByteBudget

/-! ## Planning -/

/-- The rows planned for a document and the metadata stored on it. -/
structure PlannedEmbeddings where
  chunks : List (ChunkType × ℤ × ℤ)
  metadataJson : String
  deriving DecidableEq

/-- A Boolean in JSON. -/
def jsonBool (b : Bool) : String := if b then "true" else "false"

/-- The metadata object, its keys in the order `serde_json` keeps them. -/
def metadataJson (strategy : String) (chunkCount : ℕ) (contentUtf8 contentTruncated : Bool)
    (contentBytesIndexed contentByteBudget : ℕ) : String :=
  "\x7b\"content_byte_budget\":" ++ toString contentByteBudget ++
    ",\"content_bytes_indexed\":" ++ toString contentBytesIndexed ++
    ",\"content_truncated\":" ++ jsonBool contentTruncated ++
    ",\"content_utf8\":" ++ jsonBool contentUtf8 ++
    ",\"planned_chunk_count\":" ++ toString chunkCount ++
    ",\"strategy\":\"" ++ strategy ++ "\"\x7d"

/-- The metadata of a document with text. -/
def planMetadataJson (plan : ChunkPlan) (contentTruncated : Bool)
    (contentBytesIndexed contentByteBudget : ℕ) : String :=
  metadataJson plan.strategy plan.spans.length true contentTruncated contentBytesIndexed
    contentByteBudget

/-- The file name's chunk, and the chunks of the text if there is any. -/
def planPendingEmbeddingsForContent (F : F64) (content : Option Str) (contentTruncated : Bool)
    (contentBytesIndexed contentByteBudget : ℕ) (model : EmbeddingModel) : PlannedEmbeddings :=
  match content.filter fun content => !content.bytes.isEmpty with
  | none =>
    ⟨[(.filename, 0, 0)],
      metadataJson "structure" 0 false contentTruncated contentBytesIndexed contentByteBudget⟩
  | some content =>
    let plan := planChunks F content (asUsize model.chunkSize) (asUsize model.chunkOverlap)
    ⟨(.filename, 0, 0) :: plan.spans.map (fun span => (.content, span.start, span.end_)),
      planMetadataJson plan contentTruncated contentBytesIndexed contentByteBudget⟩

/-- The chunks of what was read. -/
def planPendingEmbeddingsForReadPlan (F : F64) (contentPlan : ContentReadPlan)
    (model : EmbeddingModel) : PlannedEmbeddings :=
  planPendingEmbeddingsForContent F contentPlan.content contentPlan.contentTruncated
    contentPlan.contentBytesIndexed contentPlan.contentByteBudget model

/-! ## Preparing -/

/-- One input for the embedding provider. -/
structure PreparedChunk where
  chunkType : ChunkType
  chunkStart : ℤ
  chunkEnd : ℤ
  input : Bytes
  deriving DecidableEq

/-- The greatest stored end of a content row. -/
def maxContentEnd (rows : List DocumentEmbedding) : Option ℤ :=
  ((rows.filter fun row => row.chunkType = .content).map (·.chunkEnd)).max?

/-- `usize::try_from` of an `i64`, with its context. -/
def usizeTryFrom (z : ℤ) (context : String) : Except AnyError ℕ :=
  if 0 ≤ z then .ok z.toNat
  else .error (.context context (.msg "out of range integral type conversion attempted"))

/-- The input of one row, cut out of the text that was read. -/
def prepareChunk (filepath : String) (documentId : ℤ) (content : Option Str)
    (row : DocumentEmbedding) : Except AnyError PreparedChunk :=
  match row.chunkType with
  | .filename => .ok ⟨row.chunkType, row.chunkStart, row.chunkEnd, utf8Bytes filepath⟩
  | .content =>
    match content with
    | none => .error (.msg ("document " ++ toString documentId ++
        " has content rows but is not valid UTF-8"))
    | some content => do
      let start ← usizeTryFrom row.chunkStart "chunk_start must fit into usize"
      let end_ ← usizeTryFrom row.chunkEnd "chunk_end must fit into usize"
      if start ≤ end_ ∧ end_ ≤ content.len ∧ content.isCharBoundary start = true ∧
          content.isCharBoundary end_ = true then
        .ok ⟨row.chunkType, row.chunkStart, row.chunkEnd, content.slice start end_⟩
      else
        .error (.msg ("stored chunk range " ++ toString row.chunkStart ++ ".." ++
          toString row.chunkEnd ++ " is invalid for document " ++ toString documentId))

section
variable {m : Type → Type} [Monad m] [MonadLiftT (Except AnyError) m]

/-- The text up to the greatest stored end, when there are content rows. -/
def readContentFor (rows : List DocumentEmbedding) (read : ℕ → m ContentReadPlan) :
    m (Option Str) :=
  match maxContentEnd rows with
  | some maxContentEnd => do
    let maxContentEnd ← liftM (usizeTryFrom maxContentEnd "content chunk_end must fit into usize")
    let prefix_ ← read maxContentEnd
    pure prefix_.content
  | none => pure none

/-- `prepare_embedded_chunks`, given how the file is read. -/
def prepareEmbeddedChunks (filepath : String) (documentId : ℤ) (rows : List DocumentEmbedding)
    (read : ℕ → m ContentReadPlan) : m (List PreparedChunk) := do
  let content ← readContentFor rows read
  liftM (rows.mapM (prepareChunk filepath documentId content))

end

end Ask
