/-
  The SQLite store: its tables after the last migration, and `sqlite-vec`'s
  table as a map from rowid to a vector of the declared dimension.
-/
import Ask.JobQueue
import Ask.Lib.Tx

namespace Ask

open Lib

/-! ## Tables -/

/-- `documents`: the key is the id, and nothing keeps two rows from having one path. -/
abbrev Documents := AutoTable Document Document.id Document.id

/-- Unique by `idx_embedding_models_identity_unique`. -/
abbrev Models := AutoTable EmbeddingModel EmbeddingModel.id EmbeddingModel.identity

/-- A document and a model. -/
abbrev Pair := ℤ × ℤ

/-- The pair an embedding row belongs to. -/
def DocumentEmbedding.pair (r : DocumentEmbedding) : Pair := (r.documentId, r.modelId)

/-- The columns of `idx_embeddings_unique`. -/
def DocumentEmbedding.uniqueKey (r : DocumentEmbedding) : Pair × ChunkType × ℤ :=
  (r.pair, r.chunkType, r.chunkStart)

/-- `document_embeddings`, with its unique index. -/
abbrev Embeddings := AutoTable DocumentEmbedding DocumentEmbedding.id DocumentEmbedding.uniqueKey

/-- The row of `embedding_search_state`. -/
structure SearchState where
  activeModelId : ℤ
  dimensions : ℤ
  updatedAt : ℤ
  deriving DecidableEq, Repr

/-- `document_embedding_vec`: one vector of the declared dimension for each rowid. -/
structure VecTable where
  dimensions : ℕ
  rows : List (ℤ × Bytes)
  nodup : (rows.map Prod.fst).Nodup
  sized : ∀ r ∈ rows, r.2.length = 4 * dimensions

namespace VecTable

/-- A vector table without rows. -/
def empty (dimensions : ℕ) : VecTable := ⟨dimensions, [], .nil, by simp⟩

/-- Delete the rows whose rowid satisfies `p`. -/
def delete (v : VecTable) (p : ℤ → Bool) : VecTable where
  dimensions := v.dimensions
  rows := v.rows.filter fun r => !p r.1
  nodup := v.nodup.sublist ((List.filter_sublist).map _)
  sized r hr := v.sized r (List.mem_filter.1 hr).1

/-- Insert or replace one row; a vector of another length is rejected. -/
def put (v : VecTable) (rowid : ℤ) (vector : Bytes) : Option VecTable :=
  if h : vector.length = 4 * v.dimensions then
    some
      { dimensions := v.dimensions
        rows := v.rows.filter (fun r => r.1 ≠ rowid) ++ [(rowid, vector)]
        nodup := by
          rw [List.map_append, List.nodup_append]
          refine ⟨v.nodup.sublist ((List.filter_sublist).map _), by simp, ?_⟩
          intro a ha b hb
          obtain ⟨r, hr, rfl⟩ := List.mem_map.1 ha
          have hb : b = rowid := by simpa using hb
          have := (List.mem_filter.1 hr).2
          rw [hb]; simpa using this
        sized := by
          intro r hr
          rcases List.mem_append.1 hr with hr | hr
          · exact v.sized r (List.mem_filter.1 hr).1
          · rw [List.mem_singleton.1 hr]; exact h }
  else none

@[simp] theorem mem_delete {v : VecTable} {p : ℤ → Bool} {r : ℤ × Bytes} :
    r ∈ (v.delete p).rows ↔ r ∈ v.rows ∧ p r.1 = false := by simp [delete]

theorem put_eq_some {v v' : VecTable} {rowid : ℤ} {vector : Bytes}
    (h : v.put rowid vector = some v') :
    v'.dimensions = v.dimensions ∧
      ∀ r, r ∈ v'.rows ↔ r ∈ v.rows ∧ r.1 ≠ rowid ∨ r = (rowid, vector) := by
  unfold put at h
  split at h
  · cases h
    exact ⟨rfl, fun r => by simp⟩
  · cases h

end VecTable

/-- The whole database. -/
structure Store where
  documents : Documents
  models : Models
  embeddings : Embeddings
  jobs : JobQueue
  searchState : Option SearchState
  vec : Option VecTable

/-- An empty migrated database. -/
def Store.empty : Store := ⟨.empty, .empty, .empty, .empty, none, none⟩

/-- A program over the store. -/
abbrev Db (α : Type) := Tx Store AnyError α

/-- `with_context`. -/
def Db.context {α : Type} (text : String) (p : Db α) : Db α := Tx.mapError (.context text) p

@[simp] theorem Db.ok_context {α : Type} {text : String} {p : Db α} {s s' : Store} {a : α} :
    Tx.Ok (Db.context text p) s a s' ↔ p.Ok s a s' := Tx.ok_mapError

/-! ## Work that is left -/

/-- A row that still needs an embedding pass. -/
def DocumentEmbedding.recoverable (r : DocumentEmbedding) : Bool :=
  decide (r.state = .pending) || decide (r.state = .stale)

/-- The pairs with pending or stale rows. -/
def Store.recoverablePairs (s : Store) : List Pair :=
  (((s.embeddings.rows.filter (·.recoverable)).map (·.pair)).dedup).insertionSort fun p q =>
    p.1 < q.1 ∨ p.1 = q.1 ∧ p.2 ≤ q.2

theorem Store.mem_recoverablePairs {s : Store} {p : Pair} :
    p ∈ s.recoverablePairs ↔ ∃ r ∈ s.embeddings.rows, r.pair = p ∧ r.recoverable = true := by
  rw [recoverablePairs, List.mem_insertionSort, List.mem_dedup, List.mem_map]
  constructor
  · rintro ⟨r, hr, rfl⟩
    exact ⟨r, (List.mem_filter.1 hr).1, rfl, (List.mem_filter.1 hr).2⟩
  · rintro ⟨r, hr, rfl, h⟩
    exact ⟨r, List.mem_filter.2 ⟨hr, h⟩, rfl⟩

/-- The JSON of an `EmbedDocumentPayload`, as `serde_json` writes it. -/
def embedPayloadJson (p : Pair) : String :=
  "\x7b\"document_id\":" ++ toString p.1 ++ ",\"model_id\":" ++ toString p.2 ++ "\x7d"

/-- The queue key of the pair's `embed_document` job. -/
def embedJobKey (p : Pair) : JobType × String := (.embedDocument, embedPayloadJson p)

end Ask
