/-
  Which chunks the rows of a pair stand for, whatever their states, and what
  the operations do to them.
-/
import Ask.ContentLaw
import Ask.History

namespace Ask

open Lib

/-- The chunk of a row. -/
def DocumentEmbedding.ref (r : DocumentEmbedding) : ChunkRef := (r.chunkType, r.chunkStart, r.chunkEnd)

/-- The chunk that was embedded. -/
def EmbeddedChunk.ref (c : EmbeddedChunk) : ChunkRef := (c.chunkType, c.chunkStart, c.chunkEnd)

/-- The chunk that is to be embedded. -/
def PreparedChunk.ref (c : PreparedChunk) : ChunkRef := (c.chunkType, c.chunkStart, c.chunkEnd)

@[simp] theorem staleOf_ref (r : DocumentEmbedding) : (staleOf r).ref = r.ref := by
  simp [DocumentEmbedding.ref]

/-- The chunks that the rows of the pair stand for. -/
def refsOf (e : Embeddings) (p : Pair) : Set ChunkRef := {c | ∃ r ∈ e.rows, r.pair = p ∧ r.ref = c}

variable {s s' s₁ : Store} {e e' : Embeddings} {p : Pair} {docId modelId id now : ℤ} {doc : Document}
  {chunks : List ChunkRef} {docIds : List ℤ}

theorem refsOf_eq_empty : refsOf e p = ∅ ↔ ∀ r ∈ e.rows, r.pair ≠ p := by
  rw [Set.eq_empty_iff_forall_notMem]
  exact ⟨fun h r hr hp => h r.ref ⟨r, hr, hp, rfl⟩, fun h c ⟨r, hr, hp, _⟩ => h r hr hp⟩

/-! ## Operations -/

theorem refsOf_markStale (hfk : ForeignKeys s) (p : Pair) :
    refsOf (s.markStale docIds) p = refsOf s.embeddings p := by
  have hsame : ∀ r : DocumentEmbedding,
      (if r.documentId ∈ docIds then staleOf r else r).pair = r.pair ∧
        (if r.documentId ∈ docIds then staleOf r else r).ref = r.ref := by
    intro r
    split_ifs <;> simp
  ext c
  constructor
  · rintro ⟨r, hr, hp, hc⟩
    obtain ⟨r₀, hr₀, rfl⟩ := (mem_markStale hfk).1 hr
    exact ⟨r₀, hr₀, (hsame r₀).1.symm.trans hp, (hsame r₀).2.symm.trans hc⟩
  · rintro ⟨r, hr, hp, hc⟩
    exact ⟨_, (mem_markStale hfk).2 ⟨r, hr, rfl⟩, (hsame r).1.trans hp, (hsame r).2.trans hc⟩

theorem refsOf_delete {q : DocumentEmbedding → Bool} (hq : ∀ r, r.pair = p → q r = false) :
    refsOf (e.delete q) p = refsOf e p := by
  ext c
  constructor
  · rintro ⟨r, hr, hp, hc⟩
    exact ⟨r, (AutoTable.mem_delete.1 hr).1, hp, hc⟩
  · rintro ⟨r, hr, hp, hc⟩
    exact ⟨r, AutoTable.mem_delete.2 ⟨hr, hq r hp⟩, hp, hc⟩

namespace PendingInserted

variable (h : PendingInserted docId modelId now chunks e e')
include h

theorem refsOf_of_ne (hp : p ≠ (docId, modelId)) : refsOf e' p = refsOf e p := by
  ext c
  constructor
  · rintro ⟨r, hr, rfl, hc⟩
    obtain ⟨hr, -⟩ | ⟨c', -, he, -⟩ := h.sound r hr
    · exact ⟨r, hr, rfl, hc⟩
    · rw [he] at hp; exact absurd rfl hp
  · rintro ⟨r, hr, rfl, hc⟩
    exact ⟨r, h.frame r hr fun c' _ hk => hp (congrArg Prod.fst hk), rfl, hc⟩

/-- Over rows of the same chunks, or none, the pair's rows are the chunks' afterwards. -/
theorem refsOf_self (hnd : (chunks.map fun c => (c.1, c.2.1)).Nodup)
    (hold : ∀ c ∈ refsOf e (docId, modelId), c ∈ chunks) :
    refsOf e' (docId, modelId) = {c | c ∈ chunks} := by
  ext c
  constructor
  · rintro ⟨r, hr, hp, rfl⟩
    obtain ⟨hr, hne⟩ | ⟨c', hc', he, -⟩ := h.sound r hr
    · refine absurd ?_ (hne r.ref (hold r.ref ⟨r, hr, hp, rfl⟩))
      rw [DocumentEmbedding.uniqueKey, hp]
      rfl
    · rw [he]; exact hc'
  · intro hc
    obtain ⟨id, hid⟩ := h.complete hnd c hc
    exact ⟨_, hid, rfl, rfl⟩

end PendingInserted

namespace Ingested

variable (h : Ingested s doc id modelId chunks now s₁ s') (hfk : ForeignKeys s)
include h

theorem refsOf_self (hnd : (chunks.map fun c => (c.1, c.2.1)).Nodup) :
    refsOf s'.embeddings (id, modelId) = {c | c ∈ chunks} := by
  refine h.pending.refsOf_self hnd ?_
  rintro c ⟨r, hr, hp, -⟩
  have := (AutoTable.mem_delete.1 hr).2
  simp [hp] at this

include hfk

theorem refsOf_of_ne (hp : p ≠ (id, modelId)) : refsOf s'.embeddings p = refsOf s.embeddings p := by
  ext c
  constructor
  · rintro ⟨r, hr, rfl, hc⟩
    obtain ⟨hr₀, -⟩ | ⟨r₀, hr₀, -, -, rfl⟩ | ⟨c', -, he, -⟩ := h.mem_embeddings hfk hr
    · exact ⟨r, hr₀, rfl, hc⟩
    · exact ⟨r₀, hr₀, (staleOf_pair r₀).symm, (staleOf_ref r₀).symm.trans hc⟩
    · rw [he] at hp; exact absurd rfl hp
  · rintro ⟨r, hr, rfl, rfl⟩
    by_cases hd : r.documentId = id
    · have hm : r.modelId ≠ modelId := fun hm => hp (by rw [DocumentEmbedding.pair, hd, hm])
      exact ⟨_, h.frame_stale hfk hr hd hm, staleOf_pair r, staleOf_ref r⟩
    · exact ⟨r, h.frame hfk hr hd, rfl, rfl⟩

end Ingested

namespace Replaced

variable {ec : List EmbeddedChunk} (h : Replaced s docId modelId ec now s')
include h

theorem refsOf_of_ne (hp : p ≠ (docId, modelId)) : refsOf s'.embeddings p = refsOf s.embeddings p := by
  ext c
  constructor
  · rintro ⟨r, hr, rfl, hc⟩
    obtain ⟨hr₀, -⟩ | ⟨-, c', -, he⟩ := h.mem_embeddings hr
    · exact ⟨r, hr₀, rfl, hc⟩
    · rw [he] at hp; exact absurd rfl hp
  · rintro ⟨r, hr, rfl, hc⟩
    exact ⟨r, h.frame hr hp, rfl, hc⟩

theorem refsOf_self : refsOf s'.embeddings (docId, modelId) = {c | c ∈ ec.map (·.ref)} := by
  ext c
  constructor
  · rintro ⟨r, hr, hp, rfl⟩
    obtain ⟨-, hne⟩ | ⟨-, c', hc', he⟩ := h.mem_embeddings hr
    · exact absurd hp hne
    · exact List.mem_map.2 ⟨c', hc', by rw [he]; rfl⟩
  · intro hc
    obtain ⟨c', hc', rfl⟩ := List.mem_map.1 hc
    obtain ⟨id, hid⟩ := h.inserted.complete c' hc'
    exact ⟨_, hid, rfl, rfl⟩

end Replaced

/-! ## Plans -/

/-- The chunks the model's plan of a file asks for. -/
def planRefs (E : Env) (file : Bytes) (model : EmbeddingModel) : List ChunkRef :=
  (planPendingEmbeddingsForReadPlan E.f64 (readContentPrefix file) model).chunks

theorem filename_mem_planned {F : F64} {plan : ContentReadPlan} {model : EmbeddingModel} :
    (ChunkType.filename, 0, 0) ∈ (planPendingEmbeddingsForReadPlan F plan model).chunks := by
  unfold planPendingEmbeddingsForReadPlan planPendingEmbeddingsForContent
  split <;> simp

theorem pairwise_structureChunks {F : F64} {content : Lib.Utf8.Str} {chunkSize overlap breakWindow : ℕ} :
    (structureChunks F content chunkSize overlap breakWindow).Pairwise fun a b => a.start < b.start := by
  by_cases h : content.bytes = [] ∨ chunkSize = 0
  · rw [structureChunks, if_pos (h.imp_left fun h => by simp [h])]
    exact .nil
  · rw [not_or] at h
    exact (tiled_structureChunks F content h.1 chunkSize overlap breakWindow (by omega)).increasing

/-- No two planned chunks have the same type and start. -/
theorem nodup_planned {F : F64} {plan : ContentReadPlan} {model : EmbeddingModel} :
    ((planPendingEmbeddingsForReadPlan F plan model).chunks.map fun c => (c.1, c.2.1)).Nodup := by
  unfold planPendingEmbeddingsForReadPlan planPendingEmbeddingsForContent
  split
  · simp
  · rename_i content hc
    dsimp only
    rw [List.map_cons, List.nodup_cons, List.map_map]
    refine ⟨by simp, List.pairwise_map.2 (pairwise_structureChunks.imp fun {a b} hlt heq => ?_)⟩
    have : (a.start : ℤ) = b.start := congrArg Prod.snd heq
    omega

/-! ## Prepared chunks -/

theorem ref_of_prepareChunk {filepath : String} {documentId : ℤ} {content : Option Lib.Utf8.Str}
    {row : DocumentEmbedding} {c : PreparedChunk}
    (h : prepareChunk filepath documentId content row = .ok c) : c.ref = row.ref := by
  unfold prepareChunk at h
  split at h
  · cases h; rfl
  · split at h
    · cases h
    · cases ha : usizeTryFrom row.chunkStart "chunk_start must fit into usize" with
      | error e => rw [ha] at h; cases h
      | ok a =>
        cases hb : usizeTryFrom row.chunkEnd "chunk_end must fit into usize" with
        | error e => rw [ha, hb] at h; cases h
        | ok b =>
          rw [ha, hb] at h
          change (if _ then _ else _) = _ at h
          split_ifs at h
          cases h; rfl

/-- Each prepared chunk comes from a row and the text that was read. -/
theorem prepared_from {filepath : String} {documentId : ℤ} {rows : List DocumentEmbedding}
    {read : ℕ → Except AnyError ContentReadPlan} {prepared : List PreparedChunk}
    (h : prepareEmbeddedChunks filepath documentId rows read = .ok prepared) :
    ∃ content, readContentFor rows read = .ok content ∧
      List.Forall₂ (fun row c => prepareChunk filepath documentId content row = .ok c) rows prepared := by
  unfold prepareEmbeddedChunks at h
  cases hc : readContentFor rows read with
  | error e => rw [hc] at h; cases h
  | ok content =>
    rw [hc] at h
    exact ⟨content, rfl, mapM_eq_ok_iff.1 h⟩

/-- Preparing keeps the chunks of the rows. -/
theorem refs_prepareEmbeddedChunks {filepath : String} {documentId : ℤ} {rows : List DocumentEmbedding}
    {read : ℕ → Except AnyError ContentReadPlan} {prepared : List PreparedChunk}
    (h : prepareEmbeddedChunks filepath documentId rows read = .ok prepared) :
    prepared.map (·.ref) = rows.map (·.ref) := by
  obtain ⟨content, -, hall⟩ := prepared_from h
  clear h
  induction hall with
  | nil => rfl
  | cons hc _ ih => rw [List.map_cons, List.map_cons, ref_of_prepareChunk hc, ih]

theorem refs_embeddedChunks : ∀ {prepared : List PreparedChunk} {vectors : List Vector32},
    vectors.length = prepared.length → (embeddedChunks prepared vectors).map (·.ref) = prepared.map (·.ref)
  | [], _, _ => rfl
  | c :: prepared, v :: vectors, h => by
    have ih : (embeddedChunks prepared vectors).map (·.ref) = prepared.map (·.ref) :=
      refs_embeddedChunks (Nat.succ.inj h)
    exact congrArg (c.ref :: ·) ih
  | _ :: _, [], h => by cases h

/-- Alone, a dispatch embeds exactly the chunks that the pair's rows stand for. -/
theorem ReplaceFacts.refs {E : Env} {view : View} {entry : JobQueueEntry} {w : World}
    {ec : List EmbeddedChunk} {document : Document} {model : EmbeddingModel} {file : Bytes}
    {rows : List DocumentEmbedding} {prepared : List PreparedChunk} {vectors : List Vector32}
    (h : ReplaceFacts E view Alone entry w docId modelId ec document model file rows prepared vectors)
    (hs : Intact w.store) :
    {c | c ∈ ec.map (·.ref)} = refsOf w.store.embeddings (docId, modelId) := by
  have hrows : ∀ r, r ∈ rows ↔ r ∈ w.store.embeddings.rows ∧ r.pair = (docId, modelId) ∧
      r.state ≠ .embedded :=
    past_alone (P := fun s => ∀ r, r ∈ rows ↔ r ∈ s.embeddings.rows ∧ r.pair = (docId, modelId) ∧
      r.state ≠ .embedded) h.rows_mem
  obtain ⟨r₀, hr₀⟩ := List.exists_mem_of_ne_nil rows h.rows_ne
  obtain ⟨hr₀, hp₀, hst₀⟩ := (hrows r₀).1 hr₀
  rw [h.chunks_eq, refs_embeddedChunks h.length_eq, refs_prepareEmbeddedChunks h.prepares]
  ext c
  constructor
  · intro hc
    obtain ⟨r, hr, rfl⟩ := List.mem_map.1 hc
    obtain ⟨hr, hp, -⟩ := (hrows r).1 hr
    exact ⟨r, hr, hp, rfl⟩
  · rintro ⟨r, hr, hp, rfl⟩
    -- one row of the pair is not embedded, so none is
    refine List.mem_map.2 ⟨r, (hrows r).2 ⟨hr, hp, fun hst => hst₀ ?_⟩, rfl⟩
    exact hs.uniform r hr r₀ hr₀ (hp.trans hp₀.symm) hst

end Ask
