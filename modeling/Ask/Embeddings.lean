/-
  The embedding provider's client (`embeddings.rs`): a request holds at most
  `max_batch_size` inputs, and a response lists its vectors in any order, each
  with the index of its input.
-/
import Ask.Requests

namespace Ask

/-- Attach higher-level context while preserving retry semantics. -/
def EmbeddingError.context (context : String) : EmbeddingError → EmbeddingError
  | retryable retryAfterSecs source => retryable retryAfterSecs (.context context source)
  | permanent source => permanent (.context context source)

/-! ## Responses -/

/-- One vector of an answer, with its place. -/
structure EmbeddingResponseItem where
  index : ℕ
  embedding : Vector32
  deriving DecidableEq, Repr

/-- The body of the provider's answer. -/
structure EmbeddingResponse where
  data : List EmbeddingResponseItem
  deriving DecidableEq, Repr

/-- The vector of an item, if it has the model's dimensions. -/
def itemVector (model : EmbeddingModel) (item : EmbeddingResponseItem) : Except AnyError Vector32 :=
  if item.embedding.length = asUsize model.dimensions then .ok item.embedding
  else .error (.msg ("embedding provider returned " ++ toString item.embedding.length ++
    " dimensions for model " ++ model.name ++ " (expected " ++ toString model.dimensions ++ ")"))

/-- The vectors in the order of their places; as many as inputs. -/
def parseResponseVectors (decoded : EmbeddingResponse) (model : EmbeddingModel)
    (expectedVectors : ℕ) : Except AnyError (List Vector32) :=
  let items := decoded.data.insertionSort fun a b => a.index ≤ b.index
  if items.length = expectedVectors then items.mapM (itemVector model)
  else .error (.msg ("embedding provider returned " ++ toString items.length ++ " vectors for " ++
    toString expectedVectors ++ " inputs"))

/-! ## Batches -/

/-- `slice::chunks`, for a size that is not zero. -/
def chunks {α : Type} (size : ℕ) (l : List α) : List (List α) :=
  if l = [] ∨ size = 0 then [] else l.take size :: chunks size (l.drop size)
termination_by l.length
decreasing_by
  rename_i h
  rw [not_or] at h
  have := List.length_pos_iff.2 h.1
  rw [List.length_drop]
  omega

/-- What embeds one batch: its inputs, its index, the range of its inputs, and the state of the
    closure. -/
abbrev EmbedBatch (σ : Type) :=
  List Bytes → ℕ → ℕ → ℕ → σ → Except EmbeddingError (List Vector32) × σ

section
variable {σ : Type} (embedBatch : EmbedBatch σ) (batchSize : ℕ)

/-- The loop of `embed_inputs_in_batches` over the batches from `batchIndex` on. -/
def batchLoop : List (List Bytes) → ℕ → List Vector32 → σ → Except EmbeddingError (List Vector32) × σ
  | [], _, vectors, s => (.ok vectors, s)
  | batchInputs :: rest, batchIndex, vectors, s =>
    let start := batchIndex * batchSize
    let end_ := start + batchInputs.length
    match embedBatch batchInputs batchIndex start end_ s with
    | (.error err, s') =>
      (.error (err.context ("embedding batch " ++ toString (batchIndex + 1) ++
        " failed for input range [" ++ toString start ++ ".." ++ toString end_ ++ ")")), s')
    | (.ok batchVectors, s') =>
      if batchVectors.length = batchInputs.length then
        batchLoop rest (batchIndex + 1) (vectors ++ batchVectors) s'
      else
        (.error (.permanent (.msg ("embedding batch " ++ toString (batchIndex + 1) ++ " returned " ++
          toString batchVectors.length ++ " vectors for " ++ toString batchInputs.length ++
          " inputs"))), s')

/-- All inputs, in batches. -/
def embedInputsInBatches (inputs : List Bytes) (s : σ) : Except EmbeddingError (List Vector32) × σ :=
  if inputs.isEmpty then (.ok [], s) else batchLoop embedBatch batchSize (chunks batchSize inputs) 0 [] s

end

end Ask
