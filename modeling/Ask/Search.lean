/-
  Searching: `search_documents` of the HTTP server and the query behind it.

  Distances are of any ordered type with the arithmetic that the score needs;
  the nearest-neighbour query of `sqlite-vec` and the provider are parameters.
-/
import Ask.Requests

namespace Ask

open Lib

/-! ## The query -/

/-- One vector-search hit joined back to its embedding row and document. -/
structure DocumentSearchResult (D : Type) where
  documentId : ℤ
  filepath : String
  fileType : String
  docCategory : DocCategory
  fileModifiedAt : ℤ
  fileSize : ℤ
  documentUpdatedAt : ℤ
  embeddingId : ℤ
  modelId : ℤ
  chunkType : ChunkType
  chunkStart : ℤ
  chunkEnd : ℤ
  distance : D

/-- `embedding MATCH ? ORDER BY distance ASC LIMIT ?`: near rowids with their distances. -/
abbrev MatchRows (D : Type) := VecTable → Bytes → ℕ → Except AnyError (List (ℤ × D))

/-- The query's vector has the length of the model's. -/
def validateQueryEmbeddingDimensions (queryEmbedding : Vector32) (model : EmbeddingModel) : Db Unit :=
  if model.dimensions < 0 then
    Tx.fail (.context "embedding dimensions must fit into usize"
      (.msg "out of range integral type conversion attempted"))
  else if (queryEmbedding.length : ℤ) = model.dimensions then pure ()
  else Tx.fail (.msg (s!"query embedding length {queryEmbedding.length} does not match model " ++
    s!"{model.name} dimensions {model.dimensions}"))

/-- The index is the model's, as far as its record says. -/
def ensureActiveVecModel (model : EmbeddingModel) : Db Unit := Tx.query fun s =>
  match s.searchState with
  | none => .error (.context "failed to load active vector search model"
      (.msg "Query returned no rows"))
  | some state =>
    if state.activeModelId ≠ model.id then
      .error (.msg (s!"vector search index is configured for model id {state.activeModelId} " ++
        s!"but search requested {model.id}"))
    else if state.dimensions ≠ model.dimensions then
      .error (.msg (s!"vector search index dimensions {state.dimensions} do not match model " ++
        s!"{model.name} dimensions {model.dimensions}"))
    else if s.vec.isNone then .error (.msg "vector search table document_embedding_vec is missing")
    else .ok ()

section query
variable {D : Type}

/-- The columns of a hit. -/
def searchHit (d : Document) (de : DocumentEmbedding) (distance : D) : DocumentSearchResult D where
  documentId := d.id
  filepath := d.filepath
  fileType := d.fileType
  docCategory := d.docCategory
  fileModifiedAt := d.fileModifiedAt
  fileSize := d.fileSize
  documentUpdatedAt := d.updatedAt
  embeddingId := de.id
  modelId := de.modelId
  chunkType := de.chunkType
  chunkStart := de.chunkStart
  chunkEnd := de.chunkEnd
  distance := distance

/-- A near row joined with its embedding row and document, if it is an embedded one of the model. -/
def Store.joinHit (s : Store) (modelId : ℤ) (near : ℤ × D) : Option (DocumentSearchResult D) :=
  (s.embeddings.get? near.1).bind fun de => (s.documents.get? de.documentId).bind fun d =>
    if de.modelId = modelId ∧ de.state = .embedded then some (searchHit d de near.2) else none

/-- `ORDER BY nearest.distance ASC, de.id ASC`. -/
def hitOrder [LinearOrder D] (a b : DocumentSearchResult D) : Prop :=
  a.distance < b.distance ∨ a.distance = b.distance ∧ a.embeddingId ≤ b.embeddingId

instance [LinearOrder D] : DecidableRel (hitOrder (D := D)) := fun _ _ =>
  inferInstanceAs (Decidable (_ ∨ _))

/-- The nearest rows in the vector table, with their documents. -/
def searchDocumentsByEmbedding [LinearOrder D] (matchRows : MatchRows D) (model : EmbeddingModel)
    (queryEmbedding : Vector32) (limit : ℕ) : Db (List (DocumentSearchResult D)) :=
  if limit = 0 then pure [] else do
    validateQueryEmbeddingDimensions queryEmbedding model
    ensureActiveVecModel model
    Tx.query fun s =>
      match s.vec with
      | none => .error (.context "failed to prepare search_documents_by_embedding query"
          (.msg "no such table: document_embedding_vec"))
      | some v => (matchRows v (serializeEmbedding queryEmbedding) limit).map fun nearest =>
          (nearest.filterMap (s.joinHit model.id)).insertionSort hitOrder

end query

/-! ## Documents -/

/-- A hit as it is sent to the client. -/
structure SearchDocumentResult (D : Type) where
  filepath : String
  matchScore : D
  byteStart : Option ℤ
  byteEnd : Option ℤ
  deriving DecidableEq

section collapse
variable {D : Type} [LinearOrder D] [Sub D] [Div D] [OfNat D 0] [OfNat D 1] [OfNat D 2]

/-- `((2.0 - distance) / 2.0).clamp(0.0, 1.0)` -/
def distanceToScore (distance : D) : D :=
  let score := (2 - distance) / 2
  if score < 0 then 0 else if 1 < score then 1 else score

/-- The locals of `collapse_to_documents`: for each document seen its result's index, and whether the
    location there is a filename's. -/
structure Collapse (D : Type) where
  documentIndices : ℤ → Option (ℕ × Bool)
  results : List (SearchDocumentResult D)

/-- One round of the loop. -/
def collapseHit (limit : ℕ) (includeLocation : Bool) (st : Collapse D) (hit : DocumentSearchResult D) :
    Collapse D :=
  match st.documentIndices hit.documentId with
  | some (index, locationFromFilename) =>
    if includeLocation && locationFromFilename && decide (hit.chunkType ≠ .filename) then
      { documentIndices := Function.update st.documentIndices hit.documentId (some (index, false))
        results := st.results.modify index fun result =>
          { result with byteStart := some hit.chunkStart, byteEnd := some hit.chunkEnd } }
    else st
  | none =>
    if st.results.length = limit then st
    else
      { documentIndices := Function.update st.documentIndices hit.documentId
          (some (st.results.length, includeLocation && decide (hit.chunkType = .filename)))
        results := st.results ++
          [{ filepath := hit.filepath
             matchScore := distanceToScore hit.distance
             byteStart := if includeLocation then some hit.chunkStart else none
             byteEnd := if includeLocation then some hit.chunkEnd else none }] }

/-- The best hit of each document, up to the limit. -/
def collapseToDocuments (hits : List (DocumentSearchResult D)) (limit : ℕ) (includeLocation : Bool) :
    List (SearchDocumentResult D) :=
  (hits.foldl (collapseHit limit includeLocation) ⟨fun _ => none, []⟩).results

end collapse

/-! ## The request -/

/-- `usize::MAX` on a 64-bit machine. -/
def usizeMax : ℕ := 2 ^ 64 - 1

/-- How many rows are asked for, for each document wanted. -/
def searchRawLimitMultiplier : ℕ := 4

/-- The most rows that are asked for. -/
def searchRawLimitCap : ℕ := 400

/-- `limit.saturating_mul(4).min(400)` -/
def expandedRawLimit (limit : ℕ) : ℕ :=
  min (min (limit * searchRawLimitMultiplier) usizeMax) searchRawLimitCap

/-- How a search fails: the provider's fault, or the server's. -/
inductive SearchFailure where
  | badGateway (message : String)
  | internal (message : String)

/-- What `{:#}` shows of an error: its causes. -/
def AnyError.displayChain (err : AnyError) : String :=
  ": ".intercalate (err.chain.map AnyError.display)

/-- The model that the vector table holds. -/
def loadActiveModel : Db EmbeddingModel := do
  let activeModelId ← Tx.query fun s =>
    match s.searchState with
    | none => .error (.msg "active embedding_search_state row is missing")
    | some state => .ok state.activeModelId
  match ← findModelById activeModelId with
  | none => Tx.fail (.msg s!"active model {activeModelId} does not exist")
  | some model => pure model

theorem loadActiveModel_ok {s : Store} {state : SearchState} {model : EmbeddingModel}
    (hstate : s.searchState = some state) (hmodel : s.models.get? state.activeModelId = some model) :
    loadActiveModel.Ok s model s := by
  refine Tx.ok_bind.2 ⟨state.activeModelId, s, Tx.ok_query.2 ⟨?_, rfl⟩, ?_⟩
  · rw [hstate]
  · refine Tx.ok_bind.2 ⟨some model, s, Tx.ok_query.2 ⟨congrArg _ hmodel, rfl⟩, ?_⟩
    exact Tx.ok_pure.2 ⟨rfl, rfl⟩

/-- What a search gets from outside: the store at each of its two connections, the provider's
    answers, and the nearest-neighbour query. -/
structure SearchView (D : Type) where
  load : Except String Store
  query : Except String Store
  embed : EmbeddingModel → List String → Except EmbeddingError (List Vector32)
  matchRows : MatchRows D

/-- `GET /search`: embed the query, find rows, collapse them to documents. -/
def searchDocuments {D : Type} [LinearOrder D] [Sub D] [Div D] [OfNat D 0] [OfNat D 1] [OfNat D 2]
    (view : SearchView D) (query : String) (limit : ℕ) (includeLocation : Bool) :
    Except SearchFailure (List (SearchDocumentResult D)) := do
  let conn ← view.load.mapError fun err => .internal ("database error: " ++ err)
  let model ← (loadActiveModel conn).result.mapError fun err =>
    .internal ("failed to load active model: " ++ err.displayChain)
  let vectors ← (view.embed model [query]).mapError fun err =>
    .badGateway ("failed to embed query: " ++ err.display)
  match vectors.head? with
  | none => .error (.badGateway "embedding provider returned no vectors")
  | some queryEmbedding => do
    let conn ← view.query.mapError fun err => .internal ("database error: " ++ err)
    let rawLimit := expandedRawLimit limit
    let hits ← (searchDocumentsByEmbedding view.matchRows model queryEmbedding rawLimit
      conn).result.mapError fun err => .internal ("failed to run vector search: " ++ err.displayChain)
    pure (collapseToDocuments hits limit includeLocation)

end Ask
