/-
  The shared data types of `ask-core` (`types.rs`, `models/`) and the error
  values the crates pass around (`anyhow::Error`, `EmbeddingError`).

  `i64` columns are integers: every value the server writes is a row key, a
  Unix time or a byte offset, far from the ends of the range.
-/
import Mathlib.Tactic

namespace Ask

/-- A byte string: file contents and stored vectors. -/
abbrev Bytes := List UInt8

/-! ## Enumerations stored as text -/

/-- Whether a document lives in the knowledge directory or an arbitrary
    resource path. -/
inductive DocCategory where
  | knowledgeFile
  | resource
  deriving DecidableEq, Repr

/-- Embedding state of a (document, model, chunk) triple. -/
inductive EmbedState where
  | pending
  | embedded
  | stale
  deriving DecidableEq, Repr

/-- Whether an embedding row represents a content chunk or a filename. -/
inductive ChunkType where
  | content
  | filename
  deriving DecidableEq, Repr

/-- Every job variant of the `job_queue` table. -/
inductive JobType where
  | embedDocument
  | ingestFolder
  | ingestFolderGit
  deriving DecidableEq, Repr

/-- The text of a job type in its column. -/
def JobType.asStr : JobType → String
  | embedDocument => "embed_document"
  | ingestFolder => "ingest_folder"
  | ingestFolderGit => "ingest_folder_git"

/-- The text of a chunk type in its column. -/
def ChunkType.asStr : ChunkType → String
  | content => "content"
  | filename => "filename"

/-! ## Table rows -/

/-- A tracked file on the host machine. -/
structure Document where
  id : ℤ
  filepath : String
  fileType : String
  docCategory : DocCategory
  fileModifiedAt : ℤ
  fileSize : ℤ
  fileHash : String
  metadataJson : String
  updatedAt : ℤ
  deriving DecidableEq, Repr

/-- The immutable identity of one embedding configuration. -/
structure EmbeddingIdentity where
  name : String
  dimensions : ℤ
  chunkSize : ℤ
  chunkOverlap : ℤ
  deriving DecidableEq, Repr

/-- An embedding model known to the system. -/
structure EmbeddingModel where
  id : ℤ
  name : String
  dimensions : ℤ
  chunkSize : ℤ
  chunkOverlap : ℤ
  createdAt : ℤ
  deriving DecidableEq, Repr

/-- The identity a model row was registered under. -/
def EmbeddingModel.identity (m : EmbeddingModel) : EmbeddingIdentity :=
  ⟨m.name, m.dimensions, m.chunkSize, m.chunkOverlap⟩

/-- A single embedding row: one chunk of one document for one model. -/
structure DocumentEmbedding where
  id : ℤ
  documentId : ℤ
  modelId : ℤ
  chunkType : ChunkType
  chunkStart : ℤ
  chunkEnd : ℤ
  state : EmbedState
  embedding : Option Bytes
  createdAt : ℤ
  deriving DecidableEq, Repr

/-- One fully materialized embedding row ready to store. -/
structure EmbeddedChunk where
  chunkType : ChunkType
  chunkStart : ℤ
  chunkEnd : ℤ
  embedding : Bytes
  deriving DecidableEq, Repr

/-- A single row in the `job_queue` table. -/
structure JobQueueEntry where
  id : ℤ
  jobType : JobType
  payload : String
  claimedAt : Option ℤ
  createdAt : ℤ
  deriving DecidableEq, Repr

/-- Payload of an `embed_document` job. -/
structure EmbedDocumentPayload where
  documentId : ℤ
  modelId : ℤ
  deriving DecidableEq, Repr

/-- Payload of an `ingest_folder` or `ingest_folder_git` job. -/
structure IngestFolderPayload where
  rootPath : String
  filePattern : String
  deriving DecidableEq, Repr

/-! ## Errors -/

mutual

/-- An error with the contexts wrapped around it, as `anyhow` keeps it. -/
inductive AnyError where
  | msg (text : String)
  | context (text : String) (source : AnyError)
  | embedding (err : EmbeddingError)

/-- Error produced by an embedding provider request or response validation. -/
inductive EmbeddingError where
  | retryable (retryAfterSecs : ℕ) (source : AnyError)
  | permanent (source : AnyError)

end

instance : Inhabited AnyError := ⟨.msg ""⟩

/-- The caller-visible retry delay for transient failures. -/
def EmbeddingError.retryAfterSecs : EmbeddingError → Option ℕ
  | retryable r _ => some r
  | permanent _ => none

mutual

/-- What `to_string` shows: the outermost context, or the error itself. -/
def AnyError.display : AnyError → String
  | .msg text => text
  | .context text _ => text
  | .embedding err => err.display

/-- The error's text, that of its source. -/
def EmbeddingError.display : EmbeddingError → String
  | .retryable _ source => source.display
  | .permanent source => source.display

end

mutual

/-- The last cause of the chain. -/
def AnyError.rootCause : AnyError → AnyError
  | .msg text => .msg text
  | .context _ source => source.rootCause
  | .embedding err => err.rootCause

/-- The innermost error. -/
def EmbeddingError.rootCause : EmbeddingError → AnyError
  | .retryable _ source => source.rootCause
  | .permanent source => source.rootCause

end

/-- The causes of an error, outermost first. -/
def AnyError.chain : AnyError → List AnyError
  | .msg text => [.msg text]
  | .context text source => .context text source :: source.chain
  | .embedding err => [.embedding err, err.rootCause]

/-- The cause seen as an `EmbeddingError`. -/
def AnyError.downcast : AnyError → Option EmbeddingError
  | .embedding err => some err
  | _ => none

/-- The retry delay of the first cause that carries one. -/
def embeddingRetryAfterSecs (err : AnyError) : Option ℕ :=
  err.chain.findSome? fun cause => cause.downcast.bind EmbeddingError.retryAfterSecs

@[simp] theorem embeddingRetryAfterSecs_context (text : String) (source : AnyError) :
    embeddingRetryAfterSecs (.context text source) = embeddingRetryAfterSecs source := rfl

/-! ## Iterators -/

/-- `Iterator::max_by`: the last of the greatest elements. -/
def maxBy {α : Type} (compare : α → α → Ordering) : List α → Option α
  | [] => none
  | x :: xs => some (xs.foldl (fun x y => if compare x y = .gt then x else y) x)

theorem mem_of_maxBy {α : Type} {compare : α → α → Ordering} {l : List α} {x : α}
    (h : maxBy compare l = some x) : x ∈ l := by
  cases l with
  | nil => cases h
  | cons y ys =>
    have hfold : ∀ (ys : List α) (y : α),
        ys.foldl (fun x y => if compare x y = .gt then x else y) y ∈ y :: ys := by
      intro ys
      induction ys with
      | nil => simp
      | cons z zs ih =>
        intro y
        rw [List.foldl_cons]
        split_ifs
        · exact (List.mem_cons.1 (ih y)).elim (fun h => by rw [h]; simp) fun h => by simp [h]
        · exact List.mem_cons_of_mem _ (ih z)
    cases h
    exact hfold ys y

theorem maxBy_append_singleton {α : Type} {compare : α → α → Ordering} (l : List α) (a : α) :
    maxBy compare (l ++ [a]) =
      some ((maxBy compare l).elim a fun x => if compare x a = .gt then x else a) := by
  cases l with
  | nil => rfl
  | cons x xs => simp only [List.cons_append, maxBy, List.foldl_append]; rfl

theorem maxBy_eq_none {α : Type} {compare : α → α → Ordering} {l : List α} :
    maxBy compare l = none ↔ l = [] := by
  cases l with
  | nil => exact iff_of_true rfl rfl
  | cons x xs => exact iff_of_false (Option.some_ne_none _) (List.cons_ne_nil x xs)

/-- The greatest element by a score: what stands before it scores no more, what stands behind it
    less. -/
theorem maxBy_split {α φ : Type} [LinearOrder φ] (score : α → φ) {l : List α} {x : α}
    (h : maxBy (fun a b => compare (score a) (score b)) l = some x) :
    ∃ before after, l = before ++ x :: after ∧ (∀ y ∈ before, score y ≤ score x) ∧
      ∀ y ∈ after, score y < score x := by
  induction l using List.reverseRecOn generalizing x with
  | nil => cases h
  | append_singleton l a ih =>
    rw [maxBy_append_singleton] at h
    cases hl : maxBy (fun a b => compare (score a) (score b)) l with
    | none =>
      rw [hl] at h
      obtain rfl : a = x := Option.some.inj h
      exact ⟨[], [], by rw [maxBy_eq_none.1 hl], by simp, by simp⟩
    | some z =>
      obtain ⟨before, after, rfl, hbefore, hafter⟩ := ih hl
      rw [hl, Option.elim_some] at h
      split_ifs at h with hgt
      · obtain rfl : z = x := Option.some.inj h
        refine ⟨before, after ++ [a], by simp, hbefore, fun y hy => ?_⟩
        rcases List.mem_append.1 hy with hy | hy
        · exact hafter y hy
        · rw [List.mem_singleton.1 hy]; exact compare_gt_iff_gt.1 hgt
      · obtain rfl : a = x := Option.some.inj h
        have hza : score z ≤ score a := not_lt.1 fun hlt => hgt (compare_gt_iff_gt.2 hlt)
        refine ⟨before ++ z :: after, [], rfl, fun y hy => ?_, by simp⟩
        rcases List.mem_append.1 hy with hy | hy
        · exact (hbefore y hy).trans hza
        · rcases List.mem_cons.1 hy with rfl | hy
          · exact hza
          · exact (hafter y hy).le.trans hza

end Ask
