/-
  What each store operation does when it succeeds.

  One lemma for each operation says which rows are there afterwards and where
  they come from; the results about histories and interleavings use these and
  never unfold the operations.
-/
import Ask.Repository

namespace Ask

open Lib

variable {s s' : Store} {now : ℤ}

/-- A statement that always succeeds. -/
theorem ok_exec_ok {f : Store → Store} {u : Unit} :
    (Tx.exec fun s => .ok ((), f s) : Db Unit).Ok s u s' ↔ s' = f s := by
  simp [eq_comm]

/-! ## The queue -/

/-- What seeding does to the queue: no job goes, the jobs keep their ids and keys, and
    only `embed_document` jobs are touched. -/
structure Seeded (q q' : JobQueue) : Prop where
  seq_le : q.seq ≤ q'.seq
  kept : ∀ e ∈ q.rows, ∃ e' ∈ q'.rows, e'.id = e.id ∧ e'.uniqueKey = e.uniqueKey
  old : ∀ e' ∈ q'.rows, e'.id ≤ q.seq → ∃ e ∈ q.rows, e.id = e'.id ∧ e.uniqueKey = e'.uniqueKey
  other : ∀ e ∈ q.rows, e.jobType ≠ .embedDocument → e ∈ q'.rows

theorem Seeded.refl (q : JobQueue) : Seeded q q :=
  ⟨le_rfl, fun e he => ⟨e, he, rfl, rfl⟩, fun e he _ => ⟨e, he, rfl, rfl⟩, fun _ he _ => he⟩

theorem Seeded.trans {q q' q'' : JobQueue} (h : Seeded q q') (h' : Seeded q' q'') : Seeded q q'' where
  seq_le := h.seq_le.trans h'.seq_le
  kept e he := by
    obtain ⟨e', he', hid, hkey⟩ := h.kept e he
    obtain ⟨e'', he'', hid', hkey'⟩ := h'.kept e' he'
    exact ⟨e'', he'', hid'.trans hid, hkey'.trans hkey⟩
  old e'' he'' hle := by
    obtain ⟨e', he', hid', hkey'⟩ := h'.old e'' he'' (hle.trans h.seq_le)
    obtain ⟨e, he, hid, hkey⟩ := h.old e' he' (hid' ▸ hle)
    exact ⟨e, he, hid.trans hid', hkey.trans hkey'⟩
  other e he hty := h'.other e (h.other e he hty) hty

theorem Seeded.exists_key {q q' : JobQueue} (h : Seeded q q') {k : JobType × String}
    (hk : ∃ e ∈ q.rows, e.uniqueKey = k) : ∃ e ∈ q'.rows, e.uniqueKey = k := by
  obtain ⟨e, he, rfl⟩ := hk
  obtain ⟨e', he', -, hkey⟩ := h.kept e he
  exact ⟨e', he', hkey⟩

theorem seeded_enqueueJob (q : JobQueue) (payload : String) (now : ℤ) :
    Seeded q (enqueueJob q .embedDocument payload now).2 where
  seq_le := seq_enqueueJob ..
  kept e he := exists_mem_enqueueJob_of_mem _ _ _ _ he
  old e' he' hle := by
    rcases mem_of_mem_enqueueJob _ _ _ _ he' with he | ⟨-, -, -, hid | ⟨e₀, he₀, c, hid, hkey, -⟩⟩
    · exact ⟨e', he, rfl, rfl⟩
    · omega
    · exact ⟨e₀, he₀, hid, hkey⟩
  other e he hty := by
    rcases enqueueJob_cases q .embedDocument payload now with
      ⟨-, -, hr, -⟩ | ⟨e₀, he₀, c, hk, -, -, -, hr, -⟩ | ⟨-, -, -, -, -, hq⟩
    · rw [hr]; exact List.mem_append_left _ he
    · rw [hr]
      refine List.mem_map.2 ⟨e, he, if_neg fun hid => hty ?_⟩
      rw [AutoTable.eq_of_key he he₀ hid]; exact congrArg Prod.fst hk
    · rw [hq]; exact he

theorem ok_seedEmbedJob {p : Pair} {n : ℕ} (h : (seedEmbedJob p now).Ok s n s') :
    s' = { s with jobs := (enqueueJob s.jobs .embedDocument (embedPayloadJson p) now).2 } := by
  unfold seedEmbedJob at h
  rw [Tx.ok_exec] at h
  split at h
  · rename_i q hq
    cases h; rw [hq]
  · rename_i err q hq
    split_ifs at h
    cases h; rw [hq]

theorem ok_seedPairs : ∀ {pairs : List Pair} {n m : ℕ} {s : Store},
    (seedPairs now pairs n).Ok s m s' → ∃ q, s' = { s with jobs := q } ∧ Seeded s.jobs q ∧
      ∀ p ∈ pairs, ∃ e ∈ q.rows, e.uniqueKey = embedJobKey p
  | [], n, m, s, h => by
    obtain ⟨-, rfl⟩ := Tx.ok_pure.1 h
    exact ⟨s.jobs, rfl, .refl _, by simp⟩
  | p :: pairs, n, m, s, h => by
    rw [seedPairs, Tx.ok_bind] at h
    obtain ⟨k, s₁, h1, h2⟩ := h
    have hs₁ := ok_seedEmbedJob h1
    obtain ⟨q, rfl, hq, hp⟩ := ok_seedPairs h2
    rw [hs₁] at hq ⊢
    refine ⟨q, rfl, (seeded_enqueueJob ..).trans hq, fun p' hp' => ?_⟩
    rcases List.mem_cons.1 hp' with rfl | hp'
    · exact hq.exists_key (exists_mem_enqueueJob ..)
    · exact hp p' hp'

/-- A pass seeds the pairs that have work left when it begins. -/
theorem ok_seedEmbedJobs_iff {n : ℕ} :
    (seedEmbedJobs now).Ok s n s' ↔ (seedPairs now s.recoverablePairs 0).Ok s n s' := by
  have hquery : (Tx.query fun s : Store => .ok s.recoverablePairs : Db (List Pair)).Ok s s.recoverablePairs s :=
    ⟨rfl, rfl⟩
  rw [seedEmbedJobs, hquery.bind_iff]

/-- Seeding changes only the queue, where each pair with work left has its job then. -/
theorem ok_seedEmbedJobs {n : ℕ} (h : (seedEmbedJobs now).Ok s n s') :
    ∃ q, s' = { s with jobs := q } ∧ Seeded s.jobs q ∧
      ∀ p ∈ s.recoverablePairs, ∃ e ∈ q.rows, e.uniqueKey = embedJobKey p :=
  ok_seedPairs (ok_seedEmbedJobs_iff.1 h)

/-! ## Rows inserted -/

/-- The embeddings `e'` after pending rows for the chunks were upserted into `e`. -/
structure PendingInserted (docId modelId now : ℤ) (chunks : List ChunkRef) (e e' : Embeddings) :
    Prop where
  seq_le : e.seq ≤ e'.seq
  sound : ∀ r ∈ e'.rows, (r ∈ e.rows ∧ ∀ c ∈ chunks, r.uniqueKey ≠ ((docId, modelId), c.1, c.2.1)) ∨
    ∃ c ∈ chunks, r = pendingRow docId modelId now c r.id ∧
      (e.seq < r.id ∨ ∃ r₀ ∈ e.rows, r₀.id = r.id ∧ r₀.uniqueKey = r.uniqueKey)
  frame : ∀ r ∈ e.rows, (∀ c ∈ chunks, r.uniqueKey ≠ ((docId, modelId), c.1, c.2.1)) → r ∈ e'.rows
  complete : (chunks.map fun c => (c.1, c.2.1)).Nodup →
    ∀ c ∈ chunks, ∃ id, pendingRow docId modelId now c id ∈ e'.rows

variable {docId modelId : ℤ}

theorem ok_insertPendingEmbedding {c : ChunkRef} {u : Unit}
    (h : (insertPendingEmbedding docId modelId c now).Ok s u s') :
    s.hasPair docId modelId = true ∧
      ∃ e, s' = { s with embeddings := e } ∧ PendingInserted docId modelId now [c] s.embeddings e := by
  unfold insertPendingEmbedding at h
  rw [Tx.ok_exec] at h
  split_ifs at h with hpair
  refine ⟨hpair, ?_⟩
  split at h
  · rename_i e hins
    cases h
    obtain ⟨hfree, hrows, hseq⟩ := AutoTable.insert_eq_some.1 hins
    refine ⟨e, rfl, ⟨by omega, fun r hr => ?_, fun r hr _ => ?_, fun _ c' hc' => ?_⟩⟩
    · rw [hrows] at hr
      rcases List.mem_append.1 hr with hr | hr
      · refine .inl ⟨hr, fun c' hc' => ?_⟩
        rw [List.mem_singleton.1 hc']; exact hfree r hr
      · rw [List.mem_singleton.1 hr]
        exact .inr ⟨c, by simp, rfl, .inl (by simp [pendingRow])⟩
    · rw [hrows]; exact List.mem_append_left _ hr
    · rw [List.mem_singleton.1 hc']
      exact ⟨_, by rw [hrows]; exact List.mem_append_right _ (List.mem_singleton.2 rfl)⟩
  · rename_i hins
    cases h
    obtain ⟨r₀, hr₀, hkey⟩ := AutoTable.insert_eq_none.1 hins
    replace hkey : r₀.uniqueKey = ((docId, modelId), c.1, c.2.1) := hkey
    have hnew : ∀ r : DocumentEmbedding, r.uniqueKey = ((docId, modelId), c.1, c.2.1) →
        { r with chunkEnd := c.2.2, state := .pending, embedding := none, createdAt := now } =
          pendingRow docId modelId now c r.id := by
      rintro ⟨id, d, m, ty, st, en, state, emb, cr⟩ hk
      simp only [DocumentEmbedding.uniqueKey, DocumentEmbedding.pair, Prod.mk.injEq] at hk
      obtain ⟨⟨rfl, rfl⟩, rfl, rfl⟩ := hk
      rfl
    refine ⟨_, rfl, ⟨le_rfl, fun r hr => ?_, fun r hr hne => ?_, fun _ c' hc' => ?_⟩⟩
    · obtain ⟨r₁, hr₁, rfl⟩ := AutoTable.mem_update.1 hr
      split
      · rename_i hk
        rw [hnew r₁ hk]
        exact .inr ⟨c, by simp, rfl, .inr ⟨r₁, hr₁, rfl, hk⟩⟩
      · rename_i hk
        refine .inl ⟨hr₁, fun c' hc' => ?_⟩
        rw [List.mem_singleton.1 hc']; exact hk
    · exact AutoTable.mem_update.2 ⟨r, hr, if_neg (hne c (by simp))⟩
    · rw [List.mem_singleton.1 hc']
      exact ⟨r₀.id, AutoTable.mem_update.2 ⟨r₀, hr₀, by rw [if_pos hkey, hnew r₀ hkey]⟩⟩

theorem PendingInserted.nil (e : Embeddings) : PendingInserted docId modelId now [] e e :=
  ⟨le_rfl, fun r hr => .inl ⟨hr, by simp⟩, fun r hr _ => hr, fun _ c hc => by simp at hc⟩

theorem PendingInserted.cons {c : ChunkRef} {chunks : List ChunkRef} {e e₁ e₂ : Embeddings}
    (h1 : PendingInserted docId modelId now [c] e e₁)
    (h2 : PendingInserted docId modelId now chunks e₁ e₂) :
    PendingInserted docId modelId now (c :: chunks) e e₂ where
  seq_le := h1.seq_le.trans h2.seq_le
  sound r hr := by
    rcases h2.sound r hr with ⟨hr₁, hne⟩ | ⟨c', hc', he, hid⟩
    · rcases h1.sound r hr₁ with ⟨hr₀, hne'⟩ | ⟨c', hc', he, hid⟩
      · exact .inl ⟨hr₀, fun c' hc' => (List.mem_cons.1 hc').elim
          (fun h => h ▸ hne' c (by simp)) (hne c')⟩
      · exact .inr ⟨c', by rw [List.mem_singleton.1 hc']; simp, he, hid⟩
    · refine .inr ⟨c', List.mem_cons_of_mem c hc', he, ?_⟩
      rcases hid with hlt | ⟨r₁, hr₁, hid, hkey⟩
      · exact .inl (lt_of_le_of_lt h1.seq_le hlt)
      · rcases h1.sound r₁ hr₁ with ⟨hr₀, -⟩ | ⟨c'', -, -, hlt | ⟨r₀, hr₀, hid₀, hkey₀⟩⟩
        · exact .inr ⟨r₁, hr₀, hid, hkey⟩
        · exact .inl (hid ▸ hlt)
        · exact .inr ⟨r₀, hr₀, hid₀.trans hid, hkey₀.trans hkey⟩
  frame r hr hne := h2.frame r (h1.frame r hr fun c' hc' => by
    rw [List.mem_singleton.1 hc']; exact hne c (by simp)) fun c' hc' =>
      hne c' (List.mem_cons_of_mem c hc')
  complete hnd c' hc' := by
    rw [List.map_cons, List.nodup_cons] at hnd
    rcases List.mem_cons.1 hc' with rfl | hc'
    · obtain ⟨id, hid⟩ := h1.complete (by simp) c' (by simp)
      refine ⟨id, h2.frame _ hid fun c'' hc'' heq => hnd.1 ?_⟩
      simp only [DocumentEmbedding.uniqueKey, pendingRow, Prod.mk.injEq] at heq
      exact List.mem_map.2 ⟨c'', hc'', by simp [heq.2.1, heq.2.2]⟩
    · exact h2.complete hnd.2 c' hc'

theorem ok_insertPendingRows {text : ChunkRef → String} : ∀ {chunks : List ChunkRef} {s : Store} {u : Unit},
    (Tx.each (fun c => Db.context (text c) (insertPendingEmbedding docId modelId c now)) chunks).Ok
      s u s' →
    (chunks ≠ [] → s.hasPair docId modelId = true) ∧
      ∃ e, s' = { s with embeddings := e } ∧ PendingInserted docId modelId now chunks s.embeddings e
  | [], s, _, h => by
    obtain rfl := Tx.ok_each_nil.1 h
    exact ⟨by simp, s.embeddings, rfl, .nil _⟩
  | c :: chunks, s, _, h => by
    obtain ⟨s₁, h1, h2⟩ := Tx.ok_each_cons.1 h
    obtain ⟨hpair, e₁, rfl, hp1⟩ := ok_insertPendingEmbedding (Db.ok_context.1 h1)
    obtain ⟨-, e₂, rfl, hp2⟩ := ok_insertPendingRows h2
    exact ⟨fun _ => hpair, e₂, rfl, hp1.cons hp2⟩

theorem ok_insertPendingEmbeddings {chunks : List ChunkRef} {u : Unit}
    (h : (insertPendingEmbeddings docId modelId chunks now).Ok s u s') :
    (chunks ≠ [] → s.hasPair docId modelId = true) ∧
      ∃ e, PendingInserted docId modelId now chunks s.embeddings e ∧
        s' = { s with
          embeddings := e,
          vec := { s with embeddings := e }.vecWithout fun r =>
            decide (r.pair = (docId, modelId)) && decide (r.state ≠ EmbedState.embedded) } := by
  unfold insertPendingEmbeddings at h
  rw [Tx.ok_bind] at h
  obtain ⟨_, s₁, h1, h2⟩ := h
  obtain ⟨hpair, e, rfl, hp⟩ := ok_insertPendingRows h1
  exact ⟨hpair, e, hp, ok_exec_ok.1 h2⟩

/-- The embeddings `e'` after embedded rows for the chunks were inserted into `e`. -/
structure EmbeddedInserted (docId modelId now : ℤ) (chunks : List EmbeddedChunk)
    (e e' : Embeddings) : Prop where
  sound : ∀ r ∈ e'.rows, r ∈ e.rows ∨
    e.seq < r.id ∧ ∃ c ∈ chunks, r = embeddedRow docId modelId now c r.id
  frame : ∀ r ∈ e.rows, r ∈ e'.rows
  complete : ∀ c ∈ chunks, ∃ id, embeddedRow docId modelId now c id ∈ e'.rows
  seq_le : e.seq ≤ e'.seq

theorem ok_insertEmbeddedRows {text : EmbeddedChunk → String} :
    ∀ {chunks : List EmbeddedChunk} {s : Store} {u : Unit},
    (Tx.each (fun c => Db.context (text c) (insertEmbeddedChunk docId modelId c now)) chunks).Ok
      s u s' →
    (chunks ≠ [] → s.hasPair docId modelId = true) ∧
      ∃ e, s' = { s with embeddings := e } ∧ EmbeddedInserted docId modelId now chunks s.embeddings e
  | [], s, _, h => by
    obtain rfl := Tx.ok_each_nil.1 h
    exact ⟨by simp, s.embeddings, rfl, fun r hr => .inl hr, fun r hr => hr, by simp, le_rfl⟩
  | c :: chunks, s, _, h => by
    obtain ⟨s₁, h1, h2⟩ := Tx.ok_each_cons.1 h
    rw [Db.ok_context, insertEmbeddedChunk, Tx.ok_exec] at h1
    split_ifs at h1 with hpair
    split at h1
    · rename_i e₁ hins
      cases h1
      obtain ⟨hfree, hrows, hseq⟩ := AutoTable.insert_eq_some.1 hins
      obtain ⟨-, e₂, rfl, hsound, hframe, hcomp, hle⟩ := ok_insertEmbeddedRows h2
      dsimp only at hsound hframe hle
      refine ⟨fun _ => hpair, e₂, rfl, fun r hr => ?_, fun r hr => ?_, fun c' hc' => ?_, by omega⟩
      · rcases hsound r hr with hr | ⟨hlt, c', hc', he⟩
        · rw [hrows] at hr
          rcases List.mem_append.1 hr with hr | hr
          · exact .inl hr
          · rw [List.mem_singleton.1 hr]
            exact .inr ⟨by simp [embeddedRow], c, by simp, rfl⟩
        · exact .inr ⟨by omega, c', List.mem_cons_of_mem c hc', he⟩
      · exact hframe r (by rw [hrows]; exact List.mem_append_left _ hr)
      · rcases List.mem_cons.1 hc' with rfl | hc'
        · exact ⟨_, hframe _ (by rw [hrows]; exact List.mem_append_right _ (List.mem_singleton.2 rfl))⟩
        · exact hcomp c' hc'
    · cases h1

/-! ## Documents marked stale -/

variable {docIds : List ℤ}

theorem ok_markDocumentsStaleInQueueTime {u : Unit} (hne : docIds ≠ [])
    (h : (markDocumentsStaleInQueueTime docIds now).Ok s u s') :
    ∃ q, Seeded s.jobs q ∧ (∀ p ∈ s'.recoverablePairs, ∃ e ∈ q.rows, e.uniqueKey = embedJobKey p) ∧
      s' = { s with
        embeddings := s.markStale docIds,
        vec := { s with embeddings := s.markStale docIds }.vecWithout fun r =>
          decide (r.documentId ∈ docIds),
        jobs := q } := by
  rw [markDocumentsStaleInQueueTime_eq, if_neg hne] at h
  simp only [Tx.ok_bind] at h
  obtain ⟨_, s₁, h1, _, s₂, h2, n, s₃, h3, h4⟩ := h
  obtain rfl := ok_exec_ok.1 h1
  obtain rfl := ok_exec_ok.1 h2
  obtain ⟨q, rfl, hq, hp⟩ := ok_seedEmbedJobs h3
  obtain ⟨-, rfl⟩ := Tx.ok_pure.1 h4
  exact ⟨q, hq, hp, rfl⟩

theorem ok_markDocumentsStale {u : Unit} (h : (markDocumentsStale docIds now).Ok s u s') :
    (docIds = [] ∧ s' = s) ∨ docIds ≠ [] ∧ (markDocumentsStaleInQueueTime docIds now).Ok s u s' := by
  unfold markDocumentsStale markDocumentsStaleWithHook at h
  split_ifs at h with hnil
  · exact .inl ⟨hnil, (Tx.ok_pure.1 h).2.symm⟩
  · exact .inr ⟨hnil, Tx.ok_transaction.1 h⟩

/-- A row after its document was marked stale. -/
def staleOf (r : DocumentEmbedding) : DocumentEmbedding :=
  if r.state = .embedded then { r with state := .stale } else r

@[simp] theorem staleOf_id (r : DocumentEmbedding) : (staleOf r).id = r.id := by
  unfold staleOf; split <;> rfl

@[simp] theorem staleOf_pair (r : DocumentEmbedding) : (staleOf r).pair = r.pair := by
  unfold staleOf; split <;> rfl

@[simp] theorem staleOf_documentId (r : DocumentEmbedding) : (staleOf r).documentId = r.documentId := by
  unfold staleOf; split <;> rfl

@[simp] theorem staleOf_modelId (r : DocumentEmbedding) : (staleOf r).modelId = r.modelId := by
  unfold staleOf; split <;> rfl

@[simp] theorem staleOf_chunkType (r : DocumentEmbedding) : (staleOf r).chunkType = r.chunkType := by
  unfold staleOf; split <;> rfl

@[simp] theorem staleOf_chunkStart (r : DocumentEmbedding) : (staleOf r).chunkStart = r.chunkStart := by
  unfold staleOf; split <;> rfl

@[simp] theorem staleOf_chunkEnd (r : DocumentEmbedding) : (staleOf r).chunkEnd = r.chunkEnd := by
  unfold staleOf; split <;> rfl

theorem staleOf_state (r : DocumentEmbedding) : (staleOf r).state ≠ .embedded := by
  unfold staleOf; split
  · simp
  · assumption

@[simp] theorem recoverable_iff {r : DocumentEmbedding} : r.recoverable = true ↔ r.state ≠ .embedded := by
  unfold DocumentEmbedding.recoverable
  cases r.state <;> simp

theorem ok_listRecoverableEmbeddingsForModel {rows : List DocumentEmbedding}
    (h : (listRecoverableEmbeddingsForModel docId modelId).Ok s rows s') : s' = s ∧
      ∀ r, r ∈ rows ↔ r ∈ s.embeddings.rows ∧ r.pair = (docId, modelId) ∧ r.state ≠ .embedded := by
  obtain ⟨hrows, rfl⟩ := Tx.ok_query.1 h
  rw [Except.ok.injEq] at hrows
  refine ⟨rfl, ?_⟩
  intro r
  rw [← hrows, List.mem_insertionSort, List.mem_filter, ← recoverable_iff]
  simp

/-- Every embedding row belongs to a document and a model. -/
def ForeignKeys (s : Store) : Prop := ∀ r ∈ s.embeddings.rows, s.hasPair r.documentId r.modelId = true

theorem hasPair_iff {s : Store} {d m : ℤ} : s.hasPair d m = true ↔
    (∃ doc ∈ s.documents.rows, doc.id = d) ∧ ∃ model ∈ s.models.rows, model.id = m := by
  simp only [Store.hasPair, Bool.and_eq_true, Option.isSome_iff_exists, AutoTable.get?_eq_some]

theorem mem_markStale (hfk : ForeignKeys s) {r : DocumentEmbedding} :
    r ∈ (s.markStale docIds).rows ↔
      ∃ r₀ ∈ s.embeddings.rows, r = if r₀.documentId ∈ docIds then staleOf r₀ else r₀ := by
  unfold Store.markStale
  rw [AutoTable.mem_update]
  refine exists_congr fun r₀ => and_congr_right ?_
  intro hr₀
  have hsome : (s.documents.get? r₀.documentId).isSome = true := by
    have := hfk r₀ hr₀
    rw [Store.hasPair, Bool.and_eq_true] at this
    exact this.1
  simp only [hsome, true_and, staleOf]
  by_cases hd : r₀.documentId ∈ docIds <;> simp [hd, eq_comm]

/-! ## Documents ingested -/

/-- The documents after the first row or the update of a path. -/
theorem ok_loadDocumentByPath {filepath : String} {found : Option Document}
    (h : (loadDocumentByPath filepath).Ok s found s') : s = s' ∧
      (∀ d, found = some d → d ∈ s.documents.rows ∧ d.filepath = filepath) ∧
      (found = none → ∀ d ∈ s.documents.rows, d.filepath ≠ filepath) := by
  obtain ⟨hq, rfl⟩ := Tx.ok_query.1 h
  rw [Except.ok.injEq] at hq
  refine ⟨rfl, fun d hd => ?_, fun hnone d hd hpath => ?_⟩
  · obtain ⟨hmem, hpath⟩ := List.mem_filter.1 (mem_of_maxBy (hq.trans hd))
    exact ⟨hmem, by simpa using hpath⟩
  · have hmem : d ∈ s.documents.rows.filter fun d => d.filepath = filepath :=
      List.mem_filter.2 ⟨hd, by simpa using hpath⟩
    rw [hnone] at hq
    cases hf : s.documents.rows.filter fun d => d.filepath = filepath with
    | nil => rw [hf] at hmem; cases hmem
    | cons d' ds => rw [hf] at hq; cases hq

variable {doc : Document} {id : ℤ} {chunks : List ChunkRef}

/-- The store after an ingest wrote the document's row: `id` is new or has another hash now. -/
structure DocumentWritten (s : Store) (doc : Document) (id : ℤ) (s₁ : Store) : Prop where
  models : s₁.models = s.models
  searchState : s₁.searchState = s.searchState
  mem : ∀ d, d ∈ s₁.documents.rows ↔ d = { doc with id := id } ∨ d ∈ s.documents.rows ∧ d.id ≠ id
  seq_le : s.documents.seq ≤ s₁.documents.seq
  id_le : id ≤ s₁.documents.seq
  seeded : Seeded s.jobs s₁.jobs
  case : id = s.documents.seq + 1 ∧ (∀ d ∈ s.documents.rows, d.filepath ≠ doc.filepath) ∧
      s₁.embeddings = s.embeddings ∧ s₁.vec = s.vec ∨
    (∃ d ∈ s.documents.rows, d.id = id ∧ d.filepath = doc.filepath ∧ d.fileHash ≠ doc.fileHash) ∧
      ∃ s₀ : Store, s₀.embeddings = s.embeddings ∧ s₀.models = s.models ∧ s₀.vec = s.vec ∧
        s₀.documents = s₁.documents ∧ s₁.embeddings = s₀.markStale [id] ∧
        s₁.vec = { s₀ with embeddings := s₀.markStale [id] }.vecWithout fun r =>
          decide (r.documentId ∈ [id])

theorem ok_upsertDocumentInTx {changed : Bool} (h : (upsertDocumentInTx doc).Ok s (id, changed) s') :
    (changed = false ∧ s' = s ∧
      ∃ d ∈ s.documents.rows, d.id = id ∧ d.filepath = doc.filepath ∧ d.fileHash = doc.fileHash) ∨
    changed = true ∧ DocumentWritten s doc id s' := by
  unfold upsertDocumentInTx at h
  rw [Tx.ok_bind] at h
  obtain ⟨found, s₁, hl, h⟩ := h
  obtain ⟨rfl, hsome, hnone⟩ := ok_loadDocumentByPath hl
  cases found with
  | some d =>
    obtain ⟨hd, hpath⟩ := hsome d rfl
    simp only at h
    split_ifs at h with hhash
    · obtain ⟨he, rfl⟩ := Tx.ok_pure.1 h
      cases he
      exact .inl ⟨rfl, rfl, d, hd, rfl, hpath, hhash⟩
    · simp only [Tx.ok_bind] at h
      obtain ⟨_, s₂, h1, _, s₃, h2, h3⟩ := h
      obtain rfl := ok_exec_ok.1 h1
      obtain ⟨q, hq, -, rfl⟩ := ok_markDocumentsStaleInQueueTime (by simp) h2
      obtain ⟨he, rfl⟩ := Tx.ok_pure.1 h3
      cases he
      refine .inr ⟨rfl, rfl, rfl, fun d' => ?_, le_rfl, s.documents.le_seq d hd, hq, .inr
        ⟨⟨d, hd, rfl, hpath, hhash⟩, { s with documents := s.updateDocument d.id doc },
          rfl, rfl, rfl, rfl, rfl, rfl⟩⟩
      unfold Store.updateDocument
      rw [AutoTable.mem_update]
      constructor
      · rintro ⟨d₀, hd₀, rfl⟩
        split_ifs with hid
        · obtain rfl := AutoTable.eq_of_key hd₀ hd hid
          exact .inl (by rw [← hpath])
        · exact .inr ⟨hd₀, hid⟩
      · rintro (rfl | ⟨hd', hid⟩)
        · exact ⟨d, hd, by rw [if_pos rfl, ← hpath]⟩
        · exact ⟨d', hd', if_neg hid⟩
  | none =>
    simp only [Tx.ok_bind] at h
    obtain ⟨id', s₂, h1, h2⟩ := h
    obtain ⟨he, rfl⟩ := Tx.ok_pure.1 h2
    cases he
    rw [insertDocument, Tx.ok_exec] at h1
    split at h1
    · rename_i documents hins
      cases h1
      obtain ⟨hfree, hrows, hseq⟩ := AutoTable.insert_eq_some.1 hins
      refine .inr ⟨rfl, rfl, rfl, fun d' => ?_, by dsimp only; omega, le_rfl, .refl _, .inl
        ⟨hseq, hnone rfl, rfl, rfl⟩⟩
      simp only [hrows, List.mem_append, List.mem_singleton, hseq]
      constructor
      · rintro (hd' | rfl)
        · exact .inr ⟨hd', by have := s.documents.le_seq d' hd'; omega⟩
        · exact .inl rfl
      · rintro (rfl | ⟨hd', -⟩)
        · exact .inr rfl
        · exact .inl hd'
    · cases h1

/-- The vector table after the vectors of a pair's rows were deleted. -/
abbrev Store.vecWithoutPair (s : Store) (docId modelId : ℤ) : Option VecTable :=
  s.vecWithout fun r => decide (r.pair = (docId, modelId))

/-- The embeddings without a pair's rows. -/
abbrev Store.embeddingsWithoutPair (s : Store) (docId modelId : ℤ) : Embeddings :=
  s.embeddings.delete fun r => decide (r.pair = (docId, modelId))

/-- The store after a transactional ingest that changed something: the document was
    written, which left `s₁`, then the pair's rows were replaced by pending ones. -/
structure Ingested (s : Store) (doc : Document) (id modelId : ℤ) (chunks : List ChunkRef)
    (now : ℤ) (s₁ s' : Store) : Prop where
  written : DocumentWritten s doc id s₁
  documents : s'.documents = s₁.documents
  models : s'.models = s.models
  searchState : s'.searchState = s.searchState
  pending : PendingInserted id modelId now chunks (s₁.embeddingsWithoutPair id modelId) s'.embeddings
  hasPair : chunks ≠ [] → s₁.hasPair id modelId = true
  vec : s'.vec =
    { s₁ with embeddings := s'.embeddings, vec := s₁.vecWithoutPair id modelId }.vecWithout fun r =>
      decide (r.pair = (id, modelId)) && decide (r.state ≠ EmbedState.embedded)
  seeded : Seeded s.jobs s'.jobs
  queued : ∀ p ∈ s'.recoverablePairs, ∃ e ∈ s'.jobs.rows, e.uniqueKey = embedJobKey p

/-- The steps of a transactional ingest that changes something. -/
theorem steps_of_upsert_changed
    (h : (upsertDocumentAndReplacePendingEmbeddings doc modelId chunks now).Ok s (id, true) s') :
    ∃ s₁ s₂ s₃ n, (upsertDocumentInTx doc).Ok s (id, true) s₁ ∧
      (deleteEmbeddingsForModel id modelId).Ok s₁ () s₂ ∧
      (insertPendingEmbeddings id modelId chunks now).Ok s₂ () s₃ ∧ (seedEmbedJobs now).Ok s₃ n s' := by
  rw [upsertDocumentAndReplacePendingEmbeddings_eq] at h
  rw [Tx.ok_transaction, Tx.ok_bind] at h
  obtain ⟨⟨id', changed'⟩, s₁, h1, h⟩ := h
  cases changed' with
  | false =>
    simp only [Bool.false_eq_true, if_false] at h
    obtain ⟨he, -⟩ := Tx.ok_pure.1 h
    cases he
  | true =>
    simp only [if_true, Tx.ok_bind] at h
    obtain ⟨_, s₂, h2, _, s₃, h3, n, s₄, h4, h5⟩ := h
    obtain ⟨he, rfl⟩ := Tx.ok_pure.1 h5
    cases he
    exact ⟨s₁, s₂, s₃, n, h1, h2, h3, h4⟩

/-- A transactional ingest that changes something writes the document, replaces the pair's rows
    and ends by seeding. -/
theorem ok_upsert_changed
    (h : (upsertDocumentAndReplacePendingEmbeddings doc modelId chunks now).Ok s (id, true) s') :
    ∃ s₁ s₂ n, (upsertDocumentInTx doc).Ok s (id, true) s₁ ∧ (seedEmbedJobs now).Ok s₂ n s' ∧
      s₂.embeddings = s'.embeddings ∧ s₂.jobs = s₁.jobs ∧
      Ingested s doc id modelId chunks now s₁ s' := by
  obtain ⟨s₁, s₂, s₃, n, h1, h2, h3, h4⟩ := steps_of_upsert_changed h
  rw [deleteEmbeddingsForModel, Tx.ok_bind] at h2
  obtain ⟨_, s₀, hvec, hrows⟩ := h2
  obtain rfl := ok_exec_ok.1 hvec
  obtain rfl := ok_exec_ok.1 hrows
  obtain ⟨hpair, e, hpend, rfl⟩ := ok_insertPendingEmbeddings h3
  obtain ⟨q, rfl, hq, hp⟩ := ok_seedEmbedJobs h4
  obtain ⟨hcon, -⟩ | ⟨-, hw⟩ := ok_upsertDocumentInTx h1
  · cases hcon
  · exact ⟨s₁, _, n, h1, h4, rfl, rfl, hw, rfl, hw.models, hw.searchState, hpend, hpair, rfl,
      hw.seeded.trans hq, hp⟩

/-- A transactional ingest that changes nothing finds the recorded hash. -/
theorem ok_upsert_unchanged
    (h : (upsertDocumentAndReplacePendingEmbeddings doc modelId chunks now).Ok s (id, false) s') :
    s' = s ∧ ∃ d ∈ s.documents.rows, d.id = id ∧ d.filepath = doc.filepath ∧ d.fileHash = doc.fileHash := by
  rw [upsertDocumentAndReplacePendingEmbeddings_eq] at h
  rw [Tx.ok_transaction, Tx.ok_bind] at h
  obtain ⟨⟨id', changed'⟩, s₁, h1, h⟩ := h
  cases changed' with
  | false =>
    simp only [Bool.false_eq_true, if_false] at h
    obtain ⟨he, rfl⟩ := Tx.ok_pure.1 h
    cases he
    obtain ⟨-, hcase⟩ | ⟨hcon, -⟩ := ok_upsertDocumentInTx h1
    · exact hcase
    · cases hcon
  | true =>
    simp only [if_true, Tx.ok_bind] at h
    obtain ⟨_, _, _, _, _, _, _, _, _, h6⟩ := h
    obtain ⟨he, -⟩ := Tx.ok_pure.1 h6
    cases he

/-- A transactional ingest finds the recorded hash, or replaces the pair's work. -/
theorem ok_upsertDocumentAndReplacePendingEmbeddings {changed : Bool}
    (h : (upsertDocumentAndReplacePendingEmbeddings doc modelId chunks now).Ok s (id, changed) s') :
    (changed = false ∧ s' = s ∧
      ∃ d ∈ s.documents.rows, d.id = id ∧ d.filepath = doc.filepath ∧ d.fileHash = doc.fileHash) ∨
    changed = true ∧ ∃ s₁, Ingested s doc id modelId chunks now s₁ s' := by
  cases changed with
  | false => exact .inl ⟨rfl, ok_upsert_unchanged h⟩
  | true =>
    obtain ⟨s₁, -, -, -, -, -, -, hi⟩ := ok_upsert_changed h
    exact .inr ⟨rfl, s₁, hi⟩

theorem DocumentWritten.hasPair {s₁ : Store} (h : DocumentWritten s doc id s₁) {d m : ℤ}
    (hp : s.hasPair d m = true) : s₁.hasPair d m = true := by
  obtain ⟨⟨doc', hdoc', rfl⟩, hm⟩ := hasPair_iff.1 hp
  refine hasPair_iff.2 ⟨?_, by rw [h.models]; exact hm⟩
  by_cases hid : doc'.id = id
  · exact ⟨{ doc with id := id }, (h.mem _).2 (.inl rfl), hid.symm⟩
  · exact ⟨doc', (h.mem _).2 (.inr ⟨hdoc', hid⟩), rfl⟩

/-- The embeddings after the document was written: its rows are stale, if it had any. -/
theorem DocumentWritten.mem_embeddings {s₁ : Store} (h : DocumentWritten s doc id s₁)
    (hfk : ForeignKeys s) {r : DocumentEmbedding} :
    r ∈ s₁.embeddings.rows ↔
      ∃ r₀ ∈ s.embeddings.rows, r = if r₀.documentId = id then staleOf r₀ else r₀ := by
  rcases h.case with ⟨hid, -, hemb, -⟩ | ⟨-, s₀, hemb, hmod, -, hdoc, hst, -⟩
  · have hne : ∀ r ∈ s.embeddings.rows, r.documentId ≠ id := by
      intro r hr heq
      obtain ⟨⟨d, hd, hdid⟩, -⟩ := hasPair_iff.1 (hfk r hr)
      have := s.documents.le_seq d hd
      omega
    rw [hemb]
    constructor
    · exact fun hr => ⟨r, hr, by rw [if_neg (hne r hr)]⟩
    · rintro ⟨r₀, hr₀, rfl⟩; rwa [if_neg (hne r₀ hr₀)]
  · have hfk₀ : ForeignKeys s₀ := by
      intro r hr
      rw [hemb] at hr
      have := h.hasPair (hfk r hr)
      rwa [Store.hasPair, hdoc, hmod, ← h.models]
    rw [hst, mem_markStale hfk₀, hemb]
    simp

theorem DocumentWritten.embeddings_seq {s₁ : Store} (h : DocumentWritten s doc id s₁) :
    s₁.embeddings.seq = s.embeddings.seq := by
  rcases h.case with ⟨-, -, hemb, -⟩ | ⟨-, s₀, hemb, -, -, -, hst, -⟩
  · rw [hemb]
  · rw [hst, ← hemb]; rfl

namespace Ingested

variable {s₁ : Store} (h : Ingested s doc id modelId chunks now s₁ s') (hfk : ForeignKeys s)
include h hfk

/-- The rows after an ingest: other documents keep theirs, other models' rows of the
    document are stale, the pair's rows are the pending ones. -/
theorem mem_embeddings {r : DocumentEmbedding} (hr : r ∈ s'.embeddings.rows) :
    (r ∈ s.embeddings.rows ∧ r.documentId ≠ id) ∨
    (∃ r₀ ∈ s.embeddings.rows, r₀.documentId = id ∧ r₀.modelId ≠ modelId ∧ r = staleOf r₀) ∨
    ∃ c ∈ chunks, r = pendingRow id modelId now c r.id ∧ s.embeddings.seq < r.id := by
  rcases h.pending.sound r hr with ⟨hr, -⟩ | ⟨c, hc, he, hid⟩
  · obtain ⟨hr, hpair⟩ := AutoTable.mem_delete.1 hr
    obtain ⟨r₀, hr₀, rfl⟩ := (h.written.mem_embeddings hfk).1 hr
    split_ifs at hpair ⊢ with hd
    · refine .inr (.inl ⟨r₀, hr₀, hd, fun hm => ?_, rfl⟩)
      simp [DocumentEmbedding.pair, hd, hm] at hpair
    · exact .inl ⟨hr₀, hd⟩
  · refine .inr (.inr ⟨c, hc, he, ?_⟩)
    rcases hid with hlt | ⟨r₀, hr₀, -, hkey⟩
    · exact h.written.embeddings_seq ▸ hlt
    · obtain ⟨-, hpair⟩ := AutoTable.mem_delete.1 hr₀
      have : r₀.pair = r.pair := congrArg Prod.fst hkey
      rw [this, he] at hpair
      simp [DocumentEmbedding.pair, pendingRow] at hpair

theorem frame {r : DocumentEmbedding} (hr : r ∈ s.embeddings.rows) (hd : r.documentId ≠ id) :
    r ∈ s'.embeddings.rows := by
  have hne : r.pair ≠ (id, modelId) := fun hp => hd (congrArg Prod.fst hp)
  refine h.pending.frame r (AutoTable.mem_delete.2 ⟨?_, by simpa using hne⟩) fun c _ hk =>
    hne (congrArg Prod.fst hk)
  exact (h.written.mem_embeddings hfk).2 ⟨r, hr, by rw [if_neg hd]⟩

theorem frame_stale {r : DocumentEmbedding} (hr : r ∈ s.embeddings.rows) (hd : r.documentId = id)
    (hm : r.modelId ≠ modelId) : staleOf r ∈ s'.embeddings.rows := by
  have hne : (staleOf r).pair ≠ (id, modelId) := fun hp => hm (by
    rw [staleOf_pair] at hp; exact congrArg Prod.snd hp)
  refine h.pending.frame _ (AutoTable.mem_delete.2 ⟨?_, by simpa using hne⟩) fun c _ hk =>
    hne (congrArg Prod.fst hk)
  exact (h.written.mem_embeddings hfk).2 ⟨r, hr, by rw [if_pos hd]⟩

/-- The model of an ingest with work is registered, and the foreign keys hold afterwards. -/
theorem foreignKeys : ForeignKeys s' := by
  intro r hr
  have hpair : ∀ {d m}, s₁.hasPair d m = true → s'.hasPair d m = true := by
    intro d m hp
    rwa [Store.hasPair, h.documents, h.models, ← h.written.models]
  rcases h.mem_embeddings hfk hr with ⟨hr, -⟩ | ⟨r₀, hr₀, -, -, rfl⟩ | ⟨c, hc, he, -⟩
  · exact hpair (h.written.hasPair (hfk r hr))
  · rw [staleOf_documentId, staleOf_modelId]
    exact hpair (h.written.hasPair (hfk r₀ hr₀))
  · rw [he]; exact hpair (h.hasPair (List.ne_nil_of_mem hc))

end Ingested

/-! ## Pairs replaced -/

/-- The store after a pair's rows were replaced by embedded ones. -/
structure Replaced (s : Store) (docId modelId : ℤ) (chunks : List EmbeddedChunk) (now : ℤ)
    (s' : Store) : Prop where
  documents : s'.documents = s.documents
  models : s'.models = s.models
  jobs : s'.jobs = s.jobs
  searchState : s'.searchState = s.searchState
  inserted : EmbeddedInserted docId modelId now chunks (s.embeddingsWithoutPair docId modelId)
    s'.embeddings
  hasPair : chunks ≠ [] → s.hasPair docId modelId = true
  model : ∃ model ∈ s.models.rows, model.id = modelId ∧ 0 ≤ model.dimensions ∧
    ∀ c ∈ chunks, c.embedding.length = model.dimensions.toNat * 4
  vec : (s.vec = none ∧ s'.vec = none) ∨ ∃ v v', s.vecWithoutPair docId modelId = some v ∧
    s'.vec = some v' ∧
      putAll v (embeddedVectors s' fun r => decide (r.pair = (docId, modelId))) = some v'

theorem ok_replaceEmbeddingsForDocumentModel {chunks : List EmbeddedChunk} {u : Unit}
    (h : (replaceEmbeddingsForDocumentModel docId modelId chunks now).Ok s u s') :
    Replaced s docId modelId chunks now s' := by
  unfold replaceEmbeddingsForDocumentModel at h
  simp only [Tx.ok_bind, Tx.ok_transaction] at h
  obtain ⟨expected, s₁, h1, _, s₂, h2, _, s₃, h3, _, s₄, h4, _, s₅, h5, h6⟩ := h
  obtain ⟨hexp, rfl⟩ := Tx.ok_query.1 h1
  have hmodel : ∃ model ∈ s.models.rows, model.id = modelId ∧ 0 ≤ model.dimensions ∧
      expected = model.dimensions.toNat * 4 := by
    split at hexp
    · cases hexp
    · rename_i model hm
      obtain ⟨hmem, hid⟩ := AutoTable.get?_eq_some.1 hm
      split_ifs at hexp with hdim
      cases hexp
      exact ⟨model, hmem, hid, hdim, rfl⟩
  have hlen : s = s₂ ∧ ∀ c ∈ chunks, c.embedding.length = expected := by
    unfold validateChunkEmbeddingLengths at h2
    split at h2
    · rename_i hnone
      exact ⟨(Tx.ok_pure.1 h2).2, fun c hc => by simpa using List.find?_eq_none.1 hnone c hc⟩
    · exact absurd h2 Tx.ok_fail
  obtain ⟨rfl, hlen⟩ := hlen
  obtain rfl := ok_exec_ok.1 h3
  obtain rfl := ok_exec_ok.1 h4
  obtain ⟨hpair, e, rfl, hins⟩ := ok_insertEmbeddedRows h5
  rw [syncVecRowsForDocumentModel, Db.ok_context, putVecRows, Tx.ok_exec] at h6
  obtain ⟨model, hmem, hid, hdim, rfl⟩ := hmodel
  have hm : ∃ model ∈ s.models.rows, model.id = modelId ∧ 0 ≤ model.dimensions ∧
      ∀ c ∈ chunks, c.embedding.length = model.dimensions.toNat * 4 := ⟨model, hmem, hid, hdim, hlen⟩
  split at h6
  · rename_i hvec
    cases h6
    exact ⟨rfl, rfl, rfl, rfl, hins, hpair, hm, .inl ⟨by simpa [Store.vecWithout] using hvec, hvec⟩⟩
  · rename_i v hvec
    split at h6
    · rename_i v' hput
      cases h6
      exact ⟨rfl, rfl, rfl, rfl, hins, hpair, hm, .inr ⟨v, v', hvec, rfl, hput⟩⟩
    · cases h6

namespace Replaced

variable {ec : List EmbeddedChunk} (h : Replaced s docId modelId ec now s')
include h

/-- The rows after a replacement: other pairs keep theirs, the pair's rows are the embedded ones. -/
theorem mem_embeddings {r : DocumentEmbedding} (hr : r ∈ s'.embeddings.rows) :
    (r ∈ s.embeddings.rows ∧ r.pair ≠ (docId, modelId)) ∨
      s.embeddings.seq < r.id ∧ ∃ c ∈ ec, r = embeddedRow docId modelId now c r.id := by
  rcases h.inserted.sound r hr with hr | ⟨hlt, hc⟩
  · obtain ⟨hr, hp⟩ := AutoTable.mem_delete.1 hr
    exact .inl ⟨hr, by simpa using hp⟩
  · exact .inr ⟨hlt, hc⟩

theorem frame {r : DocumentEmbedding} (hr : r ∈ s.embeddings.rows) (hp : r.pair ≠ (docId, modelId)) :
    r ∈ s'.embeddings.rows :=
  h.inserted.frame r (AutoTable.mem_delete.2 ⟨hr, by simpa using hp⟩)

theorem foreignKeys (hfk : ForeignKeys s) : ForeignKeys s' := by
  intro r hr
  have hpair : ∀ d m, s'.hasPair d m = s.hasPair d m := fun d m => by
    rw [Store.hasPair, h.documents, h.models, Store.hasPair]
  rw [hpair]
  rcases h.mem_embeddings hr with ⟨hr, -⟩ | ⟨-, c, hc, he⟩
  · exact hfk r hr
  · rw [he]; exact h.hasPair (List.ne_nil_of_mem hc)

end Replaced

/-! ## Documents deleted -/

theorem ok_deleteDocument {u : Unit} (h : (deleteDocument docId).Ok s u s') :
    s' = { s with
      vec := s.vecWithout fun r => decide (r.documentId ∈ [docId]),
      embeddings := s.embeddings.delete fun r => decide (r.documentId = docId),
      documents := s.documents.delete fun d => decide (d.id = docId) } := by
  unfold deleteDocument at h
  simp only [Tx.ok_transaction, Tx.ok_bind] at h
  obtain ⟨_, s₁, h1, _, s₂, h2, h3⟩ := h
  obtain rfl := ok_exec_ok.1 h1
  obtain rfl := ok_exec_ok.1 h2
  exact ok_exec_ok.1 h3

end Ask
