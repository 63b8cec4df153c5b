/-
  What marking documents stale and ingesting a document do, and what they leave
  alone.
-/
import Ask.Lifetime

namespace Ask

open Lib

variable {s s' s₁ : Store} {docId modelId id now : ℤ} {doc : Document} {chunks : List ChunkRef}
  {docIds : List ℤ}

/-! ## The rows of the index -/

/-- The rowids and vectors of the index, none without a table. -/
def Store.vecRows (s : Store) : List (ℤ × Bytes) := (s.vec.map fun v => v.rows).getD []

theorem mem_vecRows {x : ℤ × Bytes} : x ∈ s.vecRows ↔ ∃ v, s.vec = some v ∧ x ∈ v.rows := by
  unfold Store.vecRows
  cases s.vec <;> simp

theorem mem_vecRows_of_some {v : VecTable} (hv : s.vec = some v) {x : ℤ × Bytes} :
    x ∈ s.vecRows ↔ x ∈ v.rows := by
  rw [Store.vecRows, hv]
  rfl

theorem mem_vecRows_without {t : Store} {p : DocumentEmbedding → Bool} (h : s'.vec = t.vecWithout p)
    {x : ℤ × Bytes} :
    x ∈ s'.vecRows ↔ x ∈ t.vecRows ∧ ∀ r ∈ t.embeddings.rows, r.id = x.1 → p r = false := by
  cases hv : t.vec with
  | none =>
    have hnone : s'.vec = none := by rw [h, Store.vecWithout, hv, Option.map_none]
    simp [mem_vecRows, hv, hnone]
  | some v =>
    obtain ⟨v', hv', hmem⟩ := mem_vecWithout (p := p) hv
    rw [mem_vecRows, mem_vecRows, h, hv', hv]
    simp [hmem]

/-- Every row of a well-formed store's index is an embedded row's. -/
theorem WellFormed.of_mem_vecRows (hs : WellFormed s) {x : ℤ × Bytes} (hx : x ∈ s.vecRows) :
    ∃ r ∈ s.embeddings.rows, r.id = x.1 ∧ r.state = .embedded ∧ r.embedding = some x.2 := by
  obtain ⟨v, hv, hx⟩ := mem_vecRows.1 hx
  exact hs.indexed v hv x hx

/-! ## The rows of a pair -/

theorem mem_refs {e : Embeddings} {p : Pair} {c : ChunkRef} :
    c ∈ (e.rows.filter fun r => r.pair = p).map (·.ref) ↔ c ∈ refsOf e p := by
  simp [refsOf, and_assoc]

/-- The rows of a pair differ in type or start. -/
theorem nodup_refs (e : Embeddings) (p : Pair) :
    ((e.rows.filter fun r => r.pair = p).map (·.ref)).Nodup := by
  rw [List.Nodup, List.pairwise_map]
  refine (e.unique.filter _).imp_of_mem ?_
  intro r r' hr hr' hne href
  have hp := of_decide_eq_true (List.mem_filter.1 hr).2
  have hp' := of_decide_eq_true (List.mem_filter.1 hr').2
  simp only [DocumentEmbedding.ref, Prod.mk.injEq] at href
  exact hne (by simp [DocumentEmbedding.uniqueKey, hp, hp', href.1, href.2.1])

/-! ## Documents marked stale -/

/-- The store after documents were marked stale: their embedded rows are stale, with the same spans
    and bytes, they have left the index, and every pair with work left has its job. -/
structure MarkedStale (s : Store) (docIds : List ℤ) (now : ℤ) (s' : Store) : Prop where
  documents : s'.documents = s.documents
  models : s'.models = s.models
  searchState : s'.searchState = s.searchState
  embeddings : s'.embeddings.rows = s.embeddings.rows.map fun r =>
    if r.documentId ∈ docIds ∧ r.state = .embedded then { r with state := .stale } else r
  vec : ∀ x, x ∈ s'.vecRows ↔ x ∈ s.vecRows ∧
    ∀ r ∈ s.embeddings.rows, r.id = x.1 → r.documentId ∉ docIds
  queued : ∀ p ∈ s'.recoverablePairs, ∃ e ∈ s'.jobs.rows, e.jobType = .embedDocument ∧
    e.payload = embedPayloadJson p
  jobs : ∀ e ∈ s.jobs.rows, e ∈ s'.jobs.rows ∨ (∃ c, e.claimedAt = some c ∧ c < now - 86400) ∧
    { e with claimedAt := none, createdAt := now } ∈ s'.jobs.rows

/-- Where rows of some documents were restated as stale, those with a given id belong to other
    documents if and only if they did before. -/
theorem forall_restated {R R' : List DocumentEmbedding} {q : ℤ → Prop} [DecidablePred q]
    (h : ∀ r, r ∈ R' ↔ ∃ r₀ ∈ R, r = if q r₀.documentId then staleOf r₀ else r₀) {i : ℤ} :
    (∀ r ∈ R', r.id = i → ¬q r.documentId) ↔ ∀ r ∈ R, r.id = i → ¬q r.documentId := by
  have hsame : ∀ r₀ : DocumentEmbedding, (if q r₀.documentId then staleOf r₀ else r₀).id = r₀.id ∧
      (if q r₀.documentId then staleOf r₀ else r₀).documentId = r₀.documentId := by
    intro r₀
    split_ifs
    · exact ⟨staleOf_id r₀, staleOf_documentId r₀⟩
    · exact ⟨rfl, rfl⟩
  constructor
  · intro hout r hr hid hq
    refine hout _ ((h _).2 ⟨r, hr, rfl⟩) ((hsame r).1.trans hid) ?_
    rwa [(hsame r).2]
  · intro hout r hr hid hq
    obtain ⟨r₀, hr₀, rfl⟩ := (h r).1 hr
    rw [(hsame r₀).1] at hid
    rw [(hsame r₀).2] at hq
    exact hout r₀ hr₀ hid hq

theorem rows_markStale (hfk : ForeignKeys s) : (s.markStale docIds).rows = s.embeddings.rows.map fun r =>
    if r.documentId ∈ docIds ∧ r.state = .embedded then { r with state := .stale } else r := by
  refine List.map_congr_left ?_
  intro r hr
  obtain ⟨hdoc, -⟩ := Bool.and_eq_true_iff.1 (hfk r hr)
  simp only [hdoc, true_and]

/-- A job is renewed when its claim is more than a day old. -/
theorem renewed_cases (pairs : List Pair) (now : ℤ) (e : JobQueueEntry) : e.renewed pairs now = e ∨
    (∃ c, e.claimedAt = some c ∧ c < now - 86400) ∧
      e.renewed pairs now = { e with claimedAt := none, createdAt := now } := by
  unfold JobQueueEntry.renewed
  split_ifs with h
  · exact .inr ⟨claimedBefore_iff.1 h.2, rfl⟩
  · exact .inl rfl

theorem markedStale (hs : WellFormed s) (hne : docIds ≠ []) {u : Unit}
    (h : (markDocumentsStale docIds now).Ok s u s') : MarkedStale s docIds now s' := by
  obtain ⟨hnil, -⟩ | ⟨-, h⟩ := ok_markDocumentsStale h
  · exact absurd hnil hne
  have hseeded := seededWith_markDocumentsStaleInQueueTime hne h
  obtain ⟨q, -, -, rfl⟩ := ok_markDocumentsStaleInQueueTime hne h
  refine ⟨rfl, rfl, rfl, rows_markStale hs.foreignKeys, ?_, ?_, ?_⟩
  · intro x
    rw [mem_vecRows_without (t := { s with embeddings := s.markStale docIds }) rfl]
    simp only [decide_eq_false_iff_not]
    exact and_congr_right fun _ => forall_restated (q := fun d => d ∈ docIds) fun r =>
      mem_markStale hs.foreignKeys
  · intro p hp
    obtain ⟨e, he, hkey⟩ := hseeded.queued p hp
    exact ⟨e, he, congrArg Prod.fst hkey, congrArg Prod.snd hkey⟩
  · intro e he
    have hkept := hseeded.kept e he
    obtain hsame | ⟨hold, hnew⟩ := renewed_cases _ now e
    · rw [hsame] at hkept
      exact .inl hkept
    · rw [hnew] at hkept
      exact .inr ⟨hold, hkept⟩

/-! ## Steps that fail -/

theorem atomic_markDocumentsStaleWithHook {beforeSeed : Except AnyError Unit} :
    Tx.Atomic (markDocumentsStaleWithHook docIds now beforeSeed) := by
  unfold markDocumentsStaleWithHook
  split_ifs
  · exact Tx.atomic_query (f := fun _ => .ok ())
  · exact Tx.atomic_transaction

theorem ok_markDocumentsStaleWithHook {beforeSeed : Except AnyError Unit} {u : Unit} (hne : docIds ≠ []) :
    (markDocumentsStaleWithHook docIds now beforeSeed).Ok s u s' ↔
      beforeSeed = .ok () ∧ (markDocumentsStale docIds now).Ok s u s' := by
  unfold markDocumentsStale markDocumentsStaleWithHook markDocumentsStaleInQueueTimeWithHook
  simp only [if_neg hne, Tx.ok_transaction, Tx.ok_bind, Tx.ok_query]
  constructor
  · rintro ⟨_, s₁, h1, _, s₂, h2, _, s₃, ⟨hhook, rfl⟩, h3⟩
    exact ⟨hhook, _, s₁, h1, _, s₂, h2, (), s₂, ⟨trivial, rfl⟩, h3⟩
  · rintro ⟨hhook, _, s₁, h1, _, s₂, h2, _, s₃, ⟨-, rfl⟩, h3⟩
    exact ⟨_, s₁, h1, _, s₂, h2, (), s₂, ⟨hhook, rfl⟩, h3⟩

/-- **Marking documents stale**: the embedded rows of the listed documents become stale, under every
    model, and leave the index; everything else stays, up to the jobs added and claims that ran out.
    A call that fails or is interrupted anywhere leaves every table as it was. -/
theorem documents_marked_stale (hs : WellFormed s) (hne : docIds ≠ []) :
    (∀ s', (markDocumentsStale docIds now).Ok s () s' → MarkedStale s docIds now s') ∧
    ∀ beforeSeed,
      (∀ e, (markDocumentsStaleWithHook docIds now beforeSeed).Fails s e →
        (markDocumentsStaleWithHook docIds now beforeSeed s).state = s) ∧
      ∀ s', (markDocumentsStaleWithHook docIds now beforeSeed).Leaves s s' →
        s' = s ∨ beforeSeed = .ok () ∧ (markDocumentsStale docIds now).Ok s () s' := by
  refine ⟨fun s' => markedStale hs hne, fun beforeSeed => ⟨fun e he => ?_, fun s' h => ?_⟩⟩
  · exact atomic_markDocumentsStaleWithHook.state_of_fails he
  · refine (atomic_markDocumentsStaleWithHook s s' h).imp_right ?_
    rintro ⟨u, hok⟩
    exact (ok_markDocumentsStaleWithHook hne).1 hok

/-- An embedded document marked stale, listed twice and beside an unknown one. -/
theorem sample_document_marked_stale : ∃ s s', Run (StoreStep sampleEnv) .empty sampleCalls s ∧
    (∃ r ∈ s.embeddings.rows, r.documentId = 1 ∧ r.state = .embedded) ∧
    (markDocumentsStale [1, 7, 1] 9).Ok s () s' ∧ MarkedStale s [1, 7, 1] 9 s' := by
  have hplay : ((callStores sampleEnv sampleCalls .empty).any fun s =>
      (s.embeddings.rows.any fun r => decide (r.documentId = 1 ∧ r.state = .embedded)) &&
        (finish (markDocumentsStale [1, 7, 1] 9) s).isSome) = true := by
    decide +kernel
  obtain ⟨s, hs, hplay⟩ := (Option.any_eq_true _ _).1 hplay
  obtain ⟨hany, hsome⟩ := Bool.and_eq_true_iff.1 hplay
  obtain ⟨r, hr, hst⟩ := List.any_eq_true.1 hany
  obtain ⟨⟨u, s'⟩, hfin⟩ := Option.isSome_iff_exists.1 hsome
  have hrun := run_of_callStores hs
  have hok := ok_of_finish hfin
  exact ⟨s, s', hrun, ⟨r, hr, of_decide_eq_true hst⟩, hok,
    (documents_marked_stale (wellFormed_run hrun) (by simp)).1 s' hok⟩

/-! ## Documents ingested -/

/-- The store after a document was ingested under a model: its row is the snapshot, the pair's rows
    are the chunks, all of them pending, nothing of the document is embedded or in the index, and
    every pair with work left has one job; other documents keep what they had. -/
structure IngestEffect (s : Store) (doc : Document) (id modelId : ℤ) (chunks : List ChunkRef)
    (s' : Store) : Prop where
  models : s'.models = s.models
  searchState : s'.searchState = s.searchState
  document : ∀ d, d ∈ s'.documents.rows ∧ d.filepath = doc.filepath ↔ d = { doc with id := id }
  rows : ((s'.embeddings.rows.filter fun r => r.pair = (id, modelId)).map (·.ref)).Perm chunks
  pending : ∀ r ∈ s'.embeddings.rows, r.pair = (id, modelId) → r.state = .pending ∧ r.embedding = none
  otherModels : ∀ r, r ∈ s'.embeddings.rows ∧ r.documentId = id ∧ r.modelId ≠ modelId ↔
    ∃ r₀ ∈ s.embeddings.rows, r₀.documentId = id ∧ r₀.modelId ≠ modelId ∧ r = staleOf r₀
  unembedded : ∀ r ∈ s'.embeddings.rows, r.documentId = id → r.state ≠ .embedded
  unindexed : ∀ x ∈ s'.vecRows, ∀ r ∈ s'.embeddings.rows, r.id = x.1 → r.documentId ≠ id
  queued : ∀ p ∈ s'.recoverablePairs, ∃! e, e ∈ s'.jobs.rows ∧ e.jobType = .embedDocument ∧
    e.payload = embedPayloadJson p
  otherDocuments : ∀ d, d.id ≠ id → (d ∈ s'.documents.rows ↔ d ∈ s.documents.rows)
  otherRows : ∀ r, r.documentId ≠ id → (r ∈ s'.embeddings.rows ↔ r ∈ s.embeddings.rows)
  otherVectors : ∀ x, x ∈ s'.vecRows ↔ x ∈ s.vecRows ∧
    ∀ r ∈ s.embeddings.rows, r.id = x.1 → r.documentId ≠ id

/-- Writing a document takes its vectors out of the index. -/
theorem DocumentWritten.mem_vecRows (h : DocumentWritten s doc id s₁) (hfk : ForeignKeys s)
    {x : ℤ × Bytes} :
    x ∈ s₁.vecRows ↔ x ∈ s.vecRows ∧ ∀ r ∈ s.embeddings.rows, r.id = x.1 → r.documentId ≠ id := by
  obtain ⟨hid, -, -, hvec⟩ | ⟨-, s₀, hemb, hmod, hvec, hdoc, hst, hvec'⟩ := h.case
  · rw [Store.vecRows, hvec, ← Store.vecRows]
    refine ⟨fun hx => ⟨hx, ?_⟩, And.left⟩
    intro r hr _ heq
    obtain ⟨⟨d, hd, hdid⟩, -⟩ := hasPair_iff.1 (hfk r hr)
    have := s.documents.le_seq d hd
    omega
  · rw [mem_vecRows_without hvec', Store.vecRows]
    show x ∈ (s₀.vec.map fun v => v.rows).getD [] ∧ (∀ r ∈ (s₀.markStale [id]).rows, _) ↔ _
    rw [hvec, ← hst]
    simp only [decide_eq_false_iff_not, List.mem_singleton]
    exact and_congr_right fun _ => forall_restated (q := fun d => d = id) fun r => h.mem_embeddings hfk

namespace Ingested

variable (h : Ingested s doc id modelId chunks now s₁ s')
include h

theorem mem_vecRows (hs : WellFormed s) {x : ℤ × Bytes} : x ∈ s'.vecRows ↔ x ∈ s.vecRows ∧
    ∀ r ∈ s.embeddings.rows, r.id = x.1 → r.documentId ≠ id := by
  rw [mem_vecRows_without h.vec]
  have hmid : x ∈ { s₁ with embeddings := s'.embeddings, vec := s₁.vecWithoutPair id modelId }.vecRows ↔
      x ∈ s₁.vecRows ∧ ∀ r ∈ s₁.embeddings.rows, r.id = x.1 → decide (r.pair = (id, modelId)) = false :=
    mem_vecRows_without rfl
  rw [hmid, h.written.mem_vecRows hs.foreignKeys]
  constructor
  · exact fun h => h.1.1
  rintro ⟨hx, hout⟩
  refine ⟨⟨⟨hx, hout⟩, ?_⟩, ?_⟩
  · intro r hr hid
    obtain ⟨r₀, hr₀, rfl⟩ := (h.written.mem_embeddings hs.foreignKeys).1 hr
    have hd := hout r₀ hr₀ (by split_ifs at hid <;> simpa using hid)
    rw [if_neg hd]
    exact decide_eq_false fun hp => hd (congrArg Prod.fst hp)
  · intro r hr hid
    refine Bool.and_eq_false_imp.2 ?_
    intro hp
    have hp := of_decide_eq_true hp
    obtain ⟨-, hne⟩ | ⟨r₀, hr₀, hd, -, rfl⟩ | ⟨c, -, -, hlt⟩ := h.mem_embeddings hs.foreignKeys hr
    · exact absurd (congrArg Prod.fst hp) hne
    · exact absurd hd (hout r₀ hr₀ ((staleOf_id r₀).symm.trans hid))
    · -- ids of new rows are not in the index yet
      obtain ⟨r₀, hr₀, hid₀, -⟩ := hs.of_mem_vecRows hx
      have := s.embeddings.le_seq r₀ hr₀
      omega

theorem perm_rows (hkeys : (chunks.map fun c => (c.1, c.2.1)).Nodup) :
    ((s'.embeddings.rows.filter fun r => r.pair = (id, modelId)).map (·.ref)).Perm chunks := by
  refine (List.perm_ext_iff_of_nodup (nodup_refs ..) (List.Nodup.of_map _ hkeys)).2 ?_
  intro c
  have hmem : c ∈ refsOf s'.embeddings (id, modelId) ↔ c ∈ chunks := by
    rw [h.refsOf_self hkeys]
    rfl
  rw [mem_refs, hmem]

theorem effect (hs : WellFormed s) (hs' : WellFormed s')
    (hkeys : (chunks.map fun c => (c.1, c.2.1)).Nodup) :
    IngestEffect s doc id modelId chunks s' where
  models := h.models
  searchState := h.searchState
  document d := by
    have hnew : { doc with id := id } ∈ s'.documents.rows := by
      rw [h.documents, h.written.mem]
      exact .inl rfl
    constructor
    · rintro ⟨hd, hpath⟩
      exact hs'.paths d hd _ hnew hpath
    · rintro rfl
      exact ⟨hnew, rfl⟩
  rows := h.perm_rows hkeys
  pending r hr hp := by
    obtain ⟨-, hne⟩ | ⟨r₀, -, -, hm, rfl⟩ | ⟨c, -, he, -⟩ := h.mem_embeddings hs.foreignKeys hr
    · exact absurd (congrArg Prod.fst hp) hne
    · rw [staleOf_pair] at hp
      exact absurd (congrArg Prod.snd hp) hm
    · rw [he]
      exact ⟨rfl, rfl⟩
  otherModels r := by
    constructor
    · rintro ⟨hr, hd, hm⟩
      obtain ⟨-, hne⟩ | ⟨r₀, hr₀, hd₀, hm₀, rfl⟩ | ⟨c, -, he, -⟩ := h.mem_embeddings hs.foreignKeys hr
      · exact absurd hd hne
      · exact ⟨r₀, hr₀, hd₀, hm₀, rfl⟩
      · rw [he] at hm
        exact absurd rfl hm
    · rintro ⟨r₀, hr₀, hd, hm, rfl⟩
      exact ⟨h.frame_stale hs.foreignKeys hr₀ hd hm, by simpa using hd, by simpa using hm⟩
  unembedded r hr hd := by
    obtain ⟨-, hne⟩ | ⟨r₀, -, -, -, rfl⟩ | ⟨c, -, he, -⟩ := h.mem_embeddings hs.foreignKeys hr
    · exact absurd hd hne
    · exact staleOf_state r₀
    · rw [he]
      exact EmbedState.noConfusion
  unindexed x hx r hr hid hd := by
    obtain ⟨r₀, hr₀, hid₀, hst, -⟩ := hs'.of_mem_vecRows hx
    obtain rfl := AutoTable.eq_of_key hr₀ hr (hid₀.trans hid.symm)
    obtain ⟨-, hne⟩ | ⟨r₁, -, -, -, rfl⟩ | ⟨c, -, he, -⟩ := h.mem_embeddings hs.foreignKeys hr
    · exact hne hd
    · exact staleOf_state r₁ hst
    · rw [he] at hst
      cases hst
  queued p hp := by
    obtain ⟨e, he, hkey⟩ := h.queued p hp
    refine ⟨e, ⟨he, congrArg Prod.fst hkey, congrArg Prod.snd hkey⟩, ?_⟩
    rintro e' ⟨he', hty, hpayload⟩
    have hkey' : e'.uniqueKey = embedJobKey p := by
      rw [JobQueueEntry.uniqueKey, hty, hpayload, embedJobKey]
    exact AutoTable.eq_of_index he' he (hkey'.trans hkey.symm)
  otherDocuments d hne := by
    rw [h.documents, h.written.mem]
    constructor
    · rintro (rfl | ⟨hd, -⟩)
      · exact absurd rfl hne
      · exact hd
    · exact fun hd => .inr ⟨hd, hne⟩
  otherRows r hne := by
    constructor
    · intro hr
      obtain ⟨hr₀, -⟩ | ⟨r₀, -, hd, -, rfl⟩ | ⟨c, -, he, -⟩ := h.mem_embeddings hs.foreignKeys hr
      · exact hr₀
      · exact absurd ((staleOf_documentId r₀).trans hd) hne
      · rw [he] at hne
        exact absurd rfl hne
    · exact fun hr => h.frame hs.foreignKeys hr hne
  otherVectors x := h.mem_vecRows hs

end Ingested

theorem ok_upsertWithHook {beforeQueue : Except AnyError Unit} {changed : Bool}
    (h : (upsertDocumentAndReplacePendingEmbeddingsWithHook doc modelId chunks now beforeQueue).Ok
      s (id, changed) s') :
    (upsertDocumentAndReplacePendingEmbeddings doc modelId chunks now).Ok s (id, changed) s' := by
  unfold upsertDocumentAndReplacePendingEmbeddingsWithHook at h
  rw [upsertDocumentAndReplacePendingEmbeddings_eq]
  rw [Tx.ok_transaction, Tx.ok_bind] at h ⊢
  obtain ⟨⟨docId, written⟩, s₁, h1, h⟩ := h
  refine ⟨(docId, written), s₁, h1, ?_⟩
  cases written with
  | false => exact h
  | true =>
    simp only [if_true] at h ⊢
    rw [Tx.ok_bind] at h
    obtain ⟨_, s₂, ⟨-, rfl⟩, h⟩ := h
    exact h

/-- **Ingesting a document**: a call that changes something has the whole effect and touches nothing
    else; one that finds the recorded hash, fails or is interrupted anywhere changes no table. -/
theorem document_ingested (hs : WellFormed s) (hkeys : (chunks.map fun c => (c.1, c.2.1)).Nodup) :
    (∀ id s', (upsertDocumentAndReplacePendingEmbeddings doc modelId chunks now).Ok s (id, true) s' →
      IngestEffect s doc id modelId chunks s') ∧
    (∀ id s', (upsertDocumentAndReplacePendingEmbeddings doc modelId chunks now).Ok s (id, false) s' →
      s' = s) ∧
    ∀ beforeQueue,
      (∀ e, (upsertDocumentAndReplacePendingEmbeddingsWithHook doc modelId chunks now beforeQueue).Fails
        s e → (upsertDocumentAndReplacePendingEmbeddingsWithHook doc modelId chunks now beforeQueue
          s).state = s) ∧
      ∀ s', (upsertDocumentAndReplacePendingEmbeddingsWithHook doc modelId chunks now
        beforeQueue).Leaves s s' → s' = s ∨ ∃ id,
          (upsertDocumentAndReplacePendingEmbeddings doc modelId chunks now).Ok s (id, true) s' := by
  refine ⟨fun id s' h => ?_, fun id s' h => (ok_upsert_unchanged h).1, fun beforeQueue => ⟨?_, ?_⟩⟩
  · obtain ⟨s₁, hi, -⟩ := seededWith_upsert h
    exact hi.effect hs (wellFormed_upsert h hs) hkeys
  · exact fun e => Tx.atomic_transaction.state_of_fails
  · intro s' h
    obtain rfl | ⟨⟨id, changed⟩, hok⟩ := Tx.atomic_transaction s s' h
    · exact .inl rfl
    · have hplain := ok_upsertWithHook hok
      cases changed with
      | false => exact .inl (ok_upsert_unchanged hplain).1
      | true => exact .inr ⟨id, hplain⟩

/-- A document that has an embedded row is written again under its path, with two chunks. -/
theorem sample_document_ingested : ∃ s s', Run (StoreStep sampleEnv) .empty sampleCalls s ∧
    (∃ r ∈ s.embeddings.rows, r.documentId = 1 ∧ r.state = .embedded) ∧
    IngestEffect s { sampleDocument with fileHash := "h2" } 1 1 [(.filename, 0, 0), (.content, 0, 3)] s' := by
  have hplay : ((callStores sampleEnv sampleCalls .empty).any fun s =>
      (s.embeddings.rows.any fun r => decide (r.documentId = 1 ∧ r.state = .embedded)) &&
        (finish (upsertDocumentAndReplacePendingEmbeddings { sampleDocument with fileHash := "h2" } 1
          [(.filename, 0, 0), (.content, 0, 3)] 9) s).any fun out => decide (out.1 = (1, true))) = true := by
    decide +kernel
  obtain ⟨s, hs, hplay⟩ := (Option.any_eq_true _ _).1 hplay
  obtain ⟨hany, hfin⟩ := Bool.and_eq_true_iff.1 hplay
  obtain ⟨r, hr, hst⟩ := List.any_eq_true.1 hany
  obtain ⟨⟨out, s'⟩, hfin, hout⟩ := (Option.any_eq_true _ _).1 hfin
  obtain rfl := of_decide_eq_true hout
  have hrun := run_of_callStores hs
  exact ⟨s, s', hrun, ⟨r, hr, of_decide_eq_true hst⟩,
    (document_ingested (wellFormed_run hrun) (by simp)).1 1 s' (ok_of_finish hfin)⟩

end Ask
