/-
  What every operation keeps of the embedding rows, whoever runs it: their
  foreign keys, one state for each pair, and a vector on each embedded row.
-/
import Ask.Requests
import Ask.Startup
import Ask.VectorIndex

namespace Ask

open Lib

/-- What holds in every state, also between the statements of a transaction. -/
structure Intact (s : Store) : Prop where
  foreignKeys : ForeignKeys s
  uniform : ∀ r ∈ s.embeddings.rows, ∀ r' ∈ s.embeddings.rows, r.pair = r'.pair →
    r.state = .embedded → r'.state = .embedded
  vectored : ∀ r ∈ s.embeddings.rows, r.state = .embedded → r.embedding ≠ none

variable {s s' : Store} {now : ℤ} {docId modelId : ℤ}

theorem intact_empty : Intact .empty :=
  ⟨fun _ h => absurd h List.not_mem_nil, fun _ h => absurd h List.not_mem_nil,
    fun _ h => absurd h List.not_mem_nil⟩

/-- The queue and the vector index do not matter. -/
theorem Intact.congr (h : Intact s) (hd : s'.documents = s.documents) (hm : s'.models = s.models)
    (he : s'.embeddings = s.embeddings) : Intact s' where
  foreignKeys r hr := by
    rw [he] at hr
    rw [Store.hasPair, hd, hm]
    exact h.foreignKeys r hr
  uniform := by rw [he]; exact h.uniform
  vectored := by rw [he]; exact h.vectored

theorem pair_eq_iff {r r' : DocumentEmbedding} :
    r.pair = r'.pair ↔ r.documentId = r'.documentId ∧ r.modelId = r'.modelId := by
  simp [DocumentEmbedding.pair]

/-! ## The operations -/

theorem Ingested.intact {doc : Document} {id : ℤ} {chunks : List ChunkRef} {s₁ : Store}
    (h : Ingested s doc id modelId chunks now s₁ s') (hs : Intact s) : Intact s' where
  foreignKeys := h.foreignKeys hs.foreignKeys
  uniform r hr r' hr' hp hst := by
    rcases h.mem_embeddings hs.foreignKeys hr with ⟨hr₀, hd⟩ | ⟨r₀, -, -, -, rfl⟩ | ⟨c, -, he, -⟩
    · have hd' : r'.documentId ≠ id := (pair_eq_iff.1 hp).1 ▸ hd
      rcases h.mem_embeddings hs.foreignKeys hr' with ⟨hr₀', -⟩ | ⟨r₀', -, hid, -, rfl⟩ | ⟨c, -, he, -⟩
      · exact hs.uniform r hr₀ r' hr₀' hp hst
      · rw [staleOf_documentId] at hd'; exact absurd hid hd'
      · rw [he] at hd'; exact absurd rfl hd'
    · exact absurd hst (staleOf_state r₀)
    · rw [he] at hst; cases hst
  vectored r hr hst := by
    rcases h.mem_embeddings hs.foreignKeys hr with ⟨hr₀, -⟩ | ⟨r₀, -, -, -, rfl⟩ | ⟨c, -, he, -⟩
    · exact hs.vectored r hr₀ hst
    · exact absurd hst (staleOf_state r₀)
    · rw [he] at hst; cases hst

theorem Replaced.intact {chunks : List EmbeddedChunk}
    (h : Replaced s docId modelId chunks now s') (hs : Intact s) : Intact s' where
  foreignKeys := h.foreignKeys hs.foreignKeys
  uniform r hr r' hr' hp hst := by
    rcases h.mem_embeddings hr' with ⟨hr₀', hne⟩ | ⟨-, c', -, he'⟩
    · rcases h.mem_embeddings hr with ⟨hr₀, -⟩ | ⟨-, c, -, he⟩
      · exact hs.uniform r hr₀ r' hr₀' hp hst
      · rw [he] at hp; exact absurd hp.symm hne
    · rw [he']; rfl
  vectored r hr hst := by
    rcases h.mem_embeddings hr with ⟨hr₀, -⟩ | ⟨-, c, -, he⟩
    · exact hs.vectored r hr₀ hst
    · rw [he]; exact Option.some_ne_none _

theorem intact_markStale {docIds : List ℤ} (hs : Intact s) :
    Intact { s with embeddings := s.markStale docIds } where
  foreignKeys r hr := by
    obtain ⟨r₀, hr₀, rfl⟩ := (mem_markStale hs.foreignKeys).1 hr
    have := hs.foreignKeys r₀ hr₀
    split_ifs
    · rwa [staleOf_documentId, staleOf_modelId]
    · exact this
  uniform r hr r' hr' hp hst := by
    obtain ⟨r₀, hr₀, rfl⟩ := (mem_markStale hs.foreignKeys).1 hr
    obtain ⟨r₀', hr₀', rfl⟩ := (mem_markStale hs.foreignKeys).1 hr'
    by_cases hd : r₀.documentId ∈ docIds
    · rw [if_pos hd] at hst; exact absurd hst (staleOf_state r₀)
    · rw [if_neg hd] at hst hp
      by_cases hd' : r₀'.documentId ∈ docIds
      · rw [if_pos hd', staleOf_pair] at hp
        rw [(pair_eq_iff.1 hp).1] at hd
        exact absurd hd' hd
      · rw [if_neg hd'] at hp ⊢
        exact hs.uniform r₀ hr₀ r₀' hr₀' hp hst
  vectored r hr hst := by
    obtain ⟨r₀, hr₀, rfl⟩ := (mem_markStale hs.foreignKeys).1 hr
    split_ifs at hst ⊢
    · exact absurd hst (staleOf_state r₀)
    · exact hs.vectored r₀ hr₀ hst

theorem intact_deleteDocument {u : Unit} (h : (deleteDocument docId).Ok s u s') (hs : Intact s) :
    Intact s' := by
  obtain rfl := ok_deleteDocument h
  refine ⟨fun r hr => ?_, fun r hr r' hr' => ?_, fun r hr => ?_⟩
  · obtain ⟨hr, hd⟩ := AutoTable.mem_delete.1 hr
    obtain ⟨⟨doc, hdoc, hid⟩, hmodel⟩ := hasPair_iff.1 (hs.foreignKeys r hr)
    refine hasPair_iff.2 ⟨⟨doc, AutoTable.mem_delete.2 ⟨hdoc, ?_⟩, hid⟩, hmodel⟩
    rwa [hid]
  · exact hs.uniform r (AutoTable.mem_delete.1 hr).1 r' (AutoTable.mem_delete.1 hr').1
  · exact hs.vectored r (AutoTable.mem_delete.1 hr).1

theorem intact_markDocumentsStale {docIds : List ℤ} {u : Unit}
    (h : (markDocumentsStale docIds now).Ok s u s') (hs : Intact s) : Intact s' := by
  obtain ⟨-, rfl⟩ | ⟨hne, h⟩ := ok_markDocumentsStale h
  · exact hs
  · obtain ⟨q, -, -, rfl⟩ := ok_markDocumentsStaleInQueueTime hne h
    exact (intact_markStale hs).congr rfl rfl rfl

/-- Every access of a dispatch that works keeps the rows intact. -/
theorem intact_of_ok {op : DbReq} {v : op.Val} (h : op.run.Ok s v s') (hs : Intact s) : Intact s' := by
  cases op with
  | findDocument | findModel | listRecoverable => exact h.2 ▸ hs
  | completeJob | deferJob => rw [ok_exec_ok.1 h]; exact hs.congr rfl rfl rfl
  | deleteDocument => exact intact_deleteDocument h hs
  | replaceEmbeddings => exact (ok_replaceEmbeddingsForDocumentModel h).intact hs
  | upsertDocument =>
    obtain ⟨-, rfl, -⟩ | ⟨-, s₁, hi⟩ := ok_upsertDocumentAndReplacePendingEmbeddings h
    · exact hs
    · exact hi.intact hs

theorem intact_of_answers {view : View} {mayFail : Prop} {w w' : World} {r : Req} {a : r.Ans}
    (h : Answers view mayFail w r a w') (hs : Intact w.store) : Intact w'.store := by
  cases h.changes with
  | committed hok => exact intact_of_ok hok hs
  | called => exact hs
  | same => exact hs

/-! ## A new model -/

/-- Nothing of the model is embedded. -/
def Unembedded (modelId : ℤ) (s : Store) : Prop :=
  ∀ r ∈ s.embeddings.rows, r.modelId = modelId → r.state ≠ .embedded

theorem intact_pendingInserted {chunks : List ChunkRef} {e : Embeddings}
    (hp : PendingInserted docId modelId now chunks s.embeddings e)
    (hpair : chunks ≠ [] → s.hasPair docId modelId = true) (hs : Intact s)
    (hun : Unembedded modelId s) :
    Intact { s with embeddings := e } ∧ Unembedded modelId { s with embeddings := e } := by
  have hcase : ∀ r ∈ e.rows, r ∈ s.embeddings.rows ∨
      ∃ c ∈ chunks, r = pendingRow docId modelId now c r.id := fun r hr =>
    (hp.sound r hr).imp And.left fun ⟨c, hc, he, _⟩ => ⟨c, hc, he⟩
  have hpending : ∀ {r c}, r = pendingRow docId modelId now c r.id → r.state ≠ .embedded := by
    intro r c he hst
    rw [he] at hst; cases hst
  have hun' : Unembedded modelId { s with embeddings := e } := by
    intro r hr hm
    rcases hcase r hr with hr | ⟨c, -, he⟩
    · exact hun r hr hm
    · exact hpending he
  refine ⟨⟨fun r hr => ?_, fun r hr r' hr' hpr hst => ?_, fun r hr hst => ?_⟩, hun'⟩
  · rcases hcase r hr with hr | ⟨c, hc, he⟩
    · exact hs.foreignKeys r hr
    · rw [he]; exact hpair (List.ne_nil_of_mem hc)
  · by_cases hm : r.modelId = modelId
    · exact absurd hst (hun' r hr hm)
    · have hm' : r'.modelId ≠ modelId := (pair_eq_iff.1 hpr).2 ▸ hm
      rcases hcase r hr with hr | ⟨c, -, he⟩
      · rcases hcase r' hr' with hr' | ⟨c, -, he⟩
        · exact hs.uniform r hr r' hr' hpr hst
        · rw [he] at hm'; exact absurd rfl hm'
      · exact absurd hst (hpending he)
  · rcases hcase r hr with hr | ⟨c, -, he⟩
    · exact hs.vectored r hr hst
    · exact absurd hst (hpending he)

end Ask
