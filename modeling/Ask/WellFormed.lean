/-
  Well-formed stores: what the schema does not enforce and every operation of
  the server keeps.
-/
import Ask.Mirror
import Ask.Seeding
import Ask.StartupLaw

namespace Ask

open Lib

/-! ## The invariant -/

/-- An embedded row has a vector of its model's dimension, a pending one has none. -/
structure SoundRow (models : Models) (r : DocumentEmbedding) : Prop where
  embedded : r.state = .embedded → ∃ m ∈ models.rows, m.id = r.modelId ∧
    ∃ v, r.embedding = some v ∧ (v.length : ℤ) = 4 * m.dimensions
  pending : r.state = .pending → r.embedding = none

/-- Every vector of the table is that of an embedded row. -/
def Indexed (vec : Option VecTable) (e : Embeddings) : Prop :=
  ∀ v, vec = some v → ∀ x ∈ v.rows, ∃ r ∈ e.rows, r.id = x.1 ∧ r.state = .embedded ∧
    r.embedding = some x.2

/-- Every embed job names a pair whose document id was given out. -/
def Payloads (q : JobQueue) (seq : ℤ) : Prop :=
  ∀ e ∈ q.rows, e.jobType = .embedDocument → ∃ p, e.payload = embedPayloadJson p ∧ p.1 ≤ seq

/-- What every reachable store satisfies. -/
structure WellFormed (s : Store) : Prop where
  foreignKeys : ForeignKeys s
  paths : ∀ d ∈ s.documents.rows, ∀ d' ∈ s.documents.rows, d.filepath = d'.filepath → d = d'
  uniform : ∀ r ∈ s.embeddings.rows, ∀ r' ∈ s.embeddings.rows, r.pair = r'.pair → r.state = r'.state
  sound : ∀ r ∈ s.embeddings.rows, SoundRow s.models r
  indexed : Indexed s.vec s.embeddings
  payloads : Payloads s.jobs s.documents.seq

variable {s s' s₁ t : Store} {e e' : Embeddings} {q q' : JobQueue} {models : Models}
  {docId modelId id now seq : ℤ} {doc : Document} {chunks : List ChunkRef} {docIds : List ℤ}
  {pairs : List Pair}

theorem wellFormed_empty : WellFormed .empty where
  foreignKeys r hr := absurd hr List.not_mem_nil
  paths d hd := absurd hd List.not_mem_nil
  uniform r hr := absurd hr List.not_mem_nil
  sound r hr := absurd hr List.not_mem_nil
  indexed v hv := by cases hv
  payloads e he := absurd he List.not_mem_nil

theorem WellFormed.intact (h : WellFormed s) : Intact s where
  foreignKeys := h.foreignKeys
  uniform r hr r' hr' hp hst := (h.uniform r hr r' hr' hp).symm.trans hst
  vectored r hr hst := by
    obtain ⟨-, -, -, v, hv, -⟩ := (h.sound r hr).embedded hst
    rw [hv]
    exact Option.some_ne_none v

/-! ## Rows -/

theorem SoundRow.stale {r : DocumentEmbedding} (h : SoundRow models r) : SoundRow models (staleOf r) where
  embedded hst := absurd hst (staleOf_state r)
  pending hst := by
    by_cases hemb : r.state = .embedded
    · rw [staleOf, if_pos hemb] at hst
      cases hst
    · rw [staleOf, if_neg hemb] at hst ⊢
      exact h.pending hst

theorem SoundRow.mono {models' : Models} {r : DocumentEmbedding} (h : SoundRow models r)
    (hm : ∀ m ∈ models.rows, m ∈ models'.rows) : SoundRow models' r where
  embedded hst := by
    obtain ⟨m, hmem, hrest⟩ := h.embedded hst
    exact ⟨m, hm m hmem, hrest⟩
  pending := h.pending

theorem soundRow_pendingRow {c : ChunkRef} : SoundRow models (pendingRow docId modelId now c id) where
  embedded hst := by cases hst
  pending _ := rfl

theorem staleOf_state_congr {r r' : DocumentEmbedding} (h : r.state = r'.state) :
    (staleOf r).state = (staleOf r').state := by
  unfold staleOf
  rw [h]
  split <;> simp_all

/-! ## The vector table -/

theorem indexed_none : Indexed none e := fun v hv => by cases hv

/-- Rows that stop being embedded leave the table together with their vectors. -/
theorem Indexed.shrink {p : DocumentEmbedding → Bool} (h : Indexed t.vec e)
    (hkeep : ∀ r ∈ e.rows, r.state = .embedded →
      (∀ r₁ ∈ t.embeddings.rows, r₁.id = r.id → p r₁ = false) → r ∈ e'.rows) :
    Indexed (t.vecWithout p) e' := by
  intro v' hv' x hx
  cases hv : t.vec with
  | none =>
    rw [Store.vecWithout, hv] at hv'
    cases hv'
  | some v =>
    obtain ⟨v'', hv'', hmem⟩ := mem_vecWithout (p := p) hv
    cases hv'.symm.trans hv''
    obtain ⟨hxv, hp⟩ := (hmem x).1 hx
    obtain ⟨r, hr, hid, hst, hbytes⟩ := h v hv x hxv
    exact ⟨r, hkeep r hr hst (hid ▸ hp), hid, hst, hbytes⟩

theorem indexed_markStale (hfk : ForeignKeys s) (h : Indexed s.vec s.embeddings) :
    Indexed ({ s with embeddings := s.markStale docIds }.vecWithout fun r =>
      decide (r.documentId ∈ docIds)) (s.markStale docIds) := by
  refine Indexed.shrink (t := { s with embeddings := s.markStale docIds }) h ?_
  intro r hr hst hp
  have hmem : (if r.documentId ∈ docIds then staleOf r else r) ∈ (s.markStale docIds).rows :=
    (mem_markStale hfk).2 ⟨r, hr, rfl⟩
  have hd := hp _ hmem (by split_ifs <;> simp)
  split_ifs at hd hmem with hin
  · simp [hin] at hd
  · exact hmem

theorem indexed_delete {p : DocumentEmbedding → Bool} (h : Indexed s.vec s.embeddings) :
    Indexed (s.vecWithout p) (s.embeddings.delete p) := by
  refine h.shrink ?_
  intro r hr _ hp
  exact AutoTable.mem_delete.2 ⟨hr, hp r hr rfl⟩

/-- Pending rows of a pair without embedded ones come beside the rows that have vectors. -/
theorem Indexed.pendingInserted (h : Indexed t.vec e) (hp : PendingInserted docId modelId now chunks e e')
    (hun : ∀ r ∈ e.rows, r.pair = (docId, modelId) → r.state ≠ .embedded) : Indexed t.vec e' := by
  intro v hv x hx
  obtain ⟨r, hr, hid, hst, hbytes⟩ := h v hv x hx
  refine ⟨r, hp.frame r hr ?_, hid, hst, hbytes⟩
  intro c _ hk
  exact hun r hr (congrArg Prod.fst hk) hst

theorem Indexed.without {p : DocumentEmbedding → Bool} (h : Indexed s.vec e) :
    Indexed (s.vecWithout p) e := h.shrink fun _ hr _ _ => hr

theorem Indexed.putAll {p : DocumentEmbedding → Bool} {v v' : VecTable} (h : Indexed (some v) s.embeddings)
    (hput : putAll v (embeddedVectors s p) = some v') : Indexed (some v') s.embeddings := by
  rintro w ⟨⟩ x hx
  rcases (mem_putAll hput (nodup_embeddedVectors ..) x).1 hx with hx | ⟨hx, -⟩
  · obtain ⟨r, hr, hid, -, hst, hbytes⟩ := mem_embeddedVectors.1 hx
    exact ⟨r, hr, hid, hst, hbytes⟩
  · exact h v rfl x hx

/-! ## The queue -/

/-- Every embed job names a pair of `P`. -/
def PayloadsIn (P : Pair → Prop) (q : JobQueue) : Prop :=
  ∀ e ∈ q.rows, e.jobType = .embedDocument → ∃ p, e.payload = embedPayloadJson p ∧ P p

section payloads
variable {P P' : Pair → Prop}

theorem PayloadsIn.mono (h : PayloadsIn P q) (hP : ∀ p, P p → P' p) : PayloadsIn P' q := by
  intro e he hty
  obtain ⟨p, hpayload, hp⟩ := h e he hty
  exact ⟨p, hpayload, hP p hp⟩

/-- A job of the same key names the same pair. -/
theorem PayloadsIn.of_key {e e' : JobQueueEntry} (h : PayloadsIn P q) (he : e ∈ q.rows)
    (hkey : e.uniqueKey = e'.uniqueKey) (hty : e'.jobType = .embedDocument) :
    ∃ p, e'.payload = embedPayloadJson p ∧ P p := by
  obtain ⟨p, hpayload, hp⟩ := h e he ((congrArg Prod.fst hkey).trans hty)
  exact ⟨p, (congrArg Prod.snd hkey).symm.trans hpayload, hp⟩

theorem PayloadsIn.seededWith (h : PayloadsIn P q) (hq : SeededWith pairs now q q')
    (hpairs : ∀ p ∈ pairs, P p) : PayloadsIn P q' := by
  intro e' he' hty
  obtain ⟨e, he, rfl⟩ | ⟨-, p, hp, hnew, -⟩ := hq.sound e' he'
  · exact h.of_key he JobQueueEntry.renewed_uniqueKey.symm hty
  · exact ⟨p, by rw [hnew]; rfl, hpairs p hp⟩

theorem PayloadsIn.enqueued {jobType : JobType} {payload : String} (h : PayloadsIn P q)
    (hty : jobType ≠ .embedDocument) : PayloadsIn P (enqueueJob q jobType payload now).2 := by
  intro e' he' hembed
  refine h e' (mem_of_mem_enqueueJob_of_ne _ _ _ _ he' ?_) hembed
  rw [hembed]
  exact hty.symm

theorem PayloadsIn.claimed (h : PayloadsIn P q) : PayloadsIn P (claimJob q now).2 := by
  intro e' he' hty
  obtain ⟨e, he, -, hkey⟩ := exists_mem_of_mem_claimJob he'
  exact h.of_key he hkey hty

theorem PayloadsIn.deferred {jobId : ℤ} {retryAfterSecs : ℕ} (h : PayloadsIn P q) :
    PayloadsIn P (deferJobForRetry q jobId now retryAfterSecs) := by
  intro e' he' hty
  obtain ⟨e, he, -, hkey⟩ := exists_mem_of_mem_deferJobForRetry he'
  exact h.of_key he hkey hty

theorem PayloadsIn.completed {jobId : ℤ} (h : PayloadsIn P q) : PayloadsIn P (completeJob q jobId) :=
  fun e he => h e (mem_completeJob.1 he).1

end payloads

theorem Payloads.mono (h : Payloads q seq) (hseq : seq ≤ t.documents.seq) :
    Payloads q t.documents.seq := PayloadsIn.mono h fun _ hp => hp.trans hseq

theorem Payloads.seededWith (h : Payloads q seq) (hq : SeededWith pairs now q q')
    (hpairs : ∀ p ∈ pairs, p.1 ≤ seq) : Payloads q' seq := PayloadsIn.seededWith h hq hpairs

theorem le_seq_of_recoverable (hfk : ForeignKeys s) {p : Pair} (hp : p ∈ s.recoverablePairs) :
    p.1 ≤ s.documents.seq := by
  obtain ⟨r, hr, rfl, -⟩ := Store.mem_recoverablePairs.1 hp
  obtain ⟨⟨d, hd, hid⟩, -⟩ := hasPair_iff.1 (hfk r hr)
  have := s.documents.le_seq d hd
  show r.documentId ≤ _
  omega

theorem WellFormed.seeded (h : WellFormed s) (hq : SeededWith s.recoverablePairs now s.jobs q) :
    WellFormed { s with jobs := q } :=
  { h with payloads := h.payloads.seededWith hq fun _ hp => le_seq_of_recoverable h.foreignKeys hp }

/-! ## The operations -/

theorem DocumentWritten.foreignKeys (h : DocumentWritten s doc id s₁) (hfk : ForeignKeys s) :
    ForeignKeys s₁ := by
  intro r hr
  obtain ⟨r₀, hr₀, rfl⟩ := (h.mem_embeddings hfk).1 hr
  have := h.hasPair (hfk r₀ hr₀)
  split_ifs
  · rwa [staleOf_documentId, staleOf_modelId]
  · exact this

theorem DocumentWritten.indexed (h : DocumentWritten s doc id s₁) (hfk : ForeignKeys s)
    (hi : Indexed s.vec s.embeddings) : Indexed s₁.vec s₁.embeddings := by
  obtain ⟨-, -, hemb, hvec⟩ | ⟨-, s₀, hemb, hmod, hvec, hdoc, hst, hvec'⟩ := h.case
  · rw [hemb, hvec]
    exact hi
  · rw [hvec', hst]
    refine indexed_markStale ?_ (by rwa [hvec, hemb])
    intro r hr
    rw [hemb] at hr
    have := h.hasPair (hfk r hr)
    rwa [Store.hasPair, hdoc, hmod, ← h.models]

/-- A document that is written is the only one with its path. -/
theorem DocumentWritten.paths (h : DocumentWritten s doc id s₁)
    (hs : ∀ d ∈ s.documents.rows, ∀ d' ∈ s.documents.rows, d.filepath = d'.filepath → d = d') :
    ∀ d ∈ s₁.documents.rows, ∀ d' ∈ s₁.documents.rows, d.filepath = d'.filepath → d = d' := by
  have hother : ∀ d ∈ s.documents.rows, d.id ≠ id → d.filepath ≠ doc.filepath := by
    intro d hd hid hpath
    obtain ⟨-, hfree, -⟩ | ⟨⟨d₀, hd₀, hid₀, hpath₀, -⟩, -⟩ := h.case
    · exact hfree d hd hpath
    · rw [hs d hd d₀ hd₀ (hpath.trans hpath₀.symm)] at hid
      exact hid hid₀
  intro d hd d' hd' hpath
  obtain rfl | ⟨hd₀, hid⟩ := (h.mem d).1 hd
  · obtain rfl | ⟨hd₀', hid'⟩ := (h.mem d').1 hd'
    · rfl
    · exact absurd hpath.symm (hother d' hd₀' hid')
  · obtain rfl | ⟨hd₀', hid'⟩ := (h.mem d').1 hd'
    · exact absurd hpath (hother d hd₀ hid)
    · exact hs d hd₀ d' hd₀' hpath

theorem Ingested.uniform (h : Ingested s doc id modelId chunks now s₁ s') (hs : WellFormed s) :
    ∀ r ∈ s'.embeddings.rows, ∀ r' ∈ s'.embeddings.rows, r.pair = r'.pair → r.state = r'.state := by
  intro r hr r' hr' hp
  obtain ⟨hd, hm⟩ := pair_eq_iff.1 hp
  rcases h.mem_embeddings hs.foreignKeys hr with ⟨hr₀, hne⟩ | ⟨r₀, hr₀, hid, hmod, rfl⟩ | ⟨c, -, he, -⟩
  · rcases h.mem_embeddings hs.foreignKeys hr' with ⟨hr₀', -⟩ | ⟨r₀', -, hid', -, rfl⟩ | ⟨c', -, he', -⟩
    · exact hs.uniform r hr₀ r' hr₀' hp
    · exact absurd (hd.trans ((staleOf_documentId r₀').trans hid')) hne
    · exact absurd (hd.trans (by rw [he']; rfl)) hne
  · rw [staleOf_documentId] at hd
    rw [staleOf_modelId] at hm
    rcases h.mem_embeddings hs.foreignKeys hr' with ⟨-, hne'⟩ | ⟨r₀', hr₀', -, -, rfl⟩ | ⟨c', -, he', -⟩
    · exact absurd (hd.symm.trans hid) hne'
    · rw [staleOf_pair, staleOf_pair] at hp
      exact staleOf_state_congr (hs.uniform r₀ hr₀ r₀' hr₀' hp)
    · exact absurd (hm.trans (by rw [he']; rfl)) hmod
  · rcases h.mem_embeddings hs.foreignKeys hr' with ⟨-, hne'⟩ | ⟨r₀', -, -, hmod', rfl⟩ | ⟨c', -, he', -⟩
    · exact absurd (hd.symm.trans (by rw [he]; rfl)) hne'
    · rw [staleOf_modelId] at hm
      exact absurd (hm.symm.trans (by rw [he]; rfl)) hmod'
    · rw [he, he']
      rfl

theorem Ingested.sound (h : Ingested s doc id modelId chunks now s₁ s') (hs : WellFormed s) :
    ∀ r ∈ s'.embeddings.rows, SoundRow s'.models r := by
  intro r hr
  rw [h.models]
  rcases h.mem_embeddings hs.foreignKeys hr with ⟨hr₀, -⟩ | ⟨r₀, hr₀, -, -, rfl⟩ | ⟨c, -, he, -⟩
  · exact hs.sound r hr₀
  · exact (hs.sound r₀ hr₀).stale
  · rw [he]
    exact soundRow_pendingRow

theorem Ingested.indexed (h : Ingested s doc id modelId chunks now s₁ s') (hs : WellFormed s) :
    Indexed s'.vec s'.embeddings := by
  have hdel : Indexed (s₁.vecWithoutPair id modelId) (s₁.embeddingsWithoutPair id modelId) :=
    indexed_delete (h.written.indexed hs.foreignKeys hs.indexed)
  rw [h.vec]
  refine Indexed.without (s := { s₁ with embeddings := s'.embeddings, vec := s₁.vecWithoutPair id modelId }) ?_
  refine Indexed.pendingInserted (t := { s₁ with vec := s₁.vecWithoutPair id modelId }) hdel h.pending ?_
  intro r hr hp
  have := (AutoTable.mem_delete.1 hr).2
  simp [hp] at this

theorem wellFormed_upsert {changed : Bool}
    (h : (upsertDocumentAndReplacePendingEmbeddings doc modelId chunks now).Ok s (id, changed) s')
    (hs : WellFormed s) : WellFormed s' := by
  cases changed with
  | false => rwa [(ok_upsert_unchanged h).1]
  | true =>
    obtain ⟨s₁, hi, hq, hq₁⟩ := seededWith_upsert h
    have hfk₁ := hi.written.foreignKeys hs.foreignKeys
    have hfk' := hi.foreignKeys hs.foreignKeys
    refine ⟨hfk', ?_, hi.uniform hs, hi.sound hs, hi.indexed hs, ?_⟩
    · rw [hi.documents]
      exact hi.written.paths hs.paths
    · have hmono := hs.payloads.mono hi.written.seq_le
      have h₁ : Payloads s₁.jobs s₁.documents.seq := by
        obtain ⟨hjobs, -⟩ | hq₁ := hq₁
        · rwa [hjobs]
        · exact hmono.seededWith hq₁ fun p hp => le_seq_of_recoverable hfk₁ hp
      refine (hi.documents ▸ h₁ : Payloads s₁.jobs s'.documents.seq).seededWith hq ?_
      exact fun p hp => le_seq_of_recoverable hfk' hp

theorem wellFormed_markDocumentsStale {u : Unit} (h : (markDocumentsStale docIds now).Ok s u s')
    (hs : WellFormed s) : WellFormed s' := by
  obtain ⟨-, rfl⟩ | ⟨hne, h⟩ := ok_markDocumentsStale h
  · exact hs
  · have hseeded := seededWith_markDocumentsStaleInQueueTime hne h
    obtain ⟨q, -, -, rfl⟩ := ok_markDocumentsStaleInQueueTime hne h
    refine WellFormed.seeded (s := { s with
      embeddings := s.markStale docIds,
      vec := { s with embeddings := s.markStale docIds }.vecWithout fun r =>
        decide (r.documentId ∈ docIds) }) ⟨?_, hs.paths, ?_, ?_, ?_, hs.payloads⟩ hseeded
    · exact (intact_markStale hs.intact).foreignKeys
    · intro r hr r' hr' hp
      obtain ⟨r₀, hr₀, rfl⟩ := (mem_markStale hs.foreignKeys).1 hr
      obtain ⟨r₀', hr₀', rfl⟩ := (mem_markStale hs.foreignKeys).1 hr'
      have hp₀ : r₀.pair = r₀'.pair := by split_ifs at hp <;> simpa using hp
      rw [(pair_eq_iff.1 hp₀).1]
      have hst := hs.uniform r₀ hr₀ r₀' hr₀' hp₀
      split_ifs
      · exact staleOf_state_congr hst
      · exact hst
    · intro r hr
      obtain ⟨r₀, hr₀, rfl⟩ := (mem_markStale hs.foreignKeys).1 hr
      split_ifs
      · exact (hs.sound r₀ hr₀).stale
      · exact hs.sound r₀ hr₀
    · exact indexed_markStale hs.foreignKeys hs.indexed

theorem wellFormed_deleteDocument {u : Unit} (h : (deleteDocument docId).Ok s u s') (hs : WellFormed s) :
    WellFormed s' := by
  have hfk := (intact_deleteDocument h hs.intact).foreignKeys
  obtain rfl := ok_deleteDocument h
  refine ⟨hfk, ?_, ?_, ?_, ?_, hs.payloads⟩
  · intro d hd d' hd'
    exact hs.paths d (AutoTable.mem_delete.1 hd).1 d' (AutoTable.mem_delete.1 hd').1
  · intro r hr r' hr'
    exact hs.uniform r (AutoTable.mem_delete.1 hr).1 r' (AutoTable.mem_delete.1 hr').1
  · exact fun r hr => hs.sound r (AutoTable.mem_delete.1 hr).1
  · simpa using indexed_delete (p := fun r => decide (r.documentId = docId)) hs.indexed

theorem Replaced.wellFormed {ec : List EmbeddedChunk} (h : Replaced s docId modelId ec now s')
    (hs : WellFormed s) : WellFormed s' where
  foreignKeys := h.foreignKeys hs.foreignKeys
  paths := by
    rw [h.documents]
    exact hs.paths
  uniform r hr r' hr' hp := by
    rcases h.mem_embeddings hr with ⟨hr₀, hne⟩ | ⟨-, c, -, he⟩
    · rcases h.mem_embeddings hr' with ⟨hr₀', -⟩ | ⟨-, c', -, he'⟩
      · exact hs.uniform r hr₀ r' hr₀' hp
      · rw [he'] at hp
        exact absurd hp hne
    · rcases h.mem_embeddings hr' with ⟨-, hne'⟩ | ⟨-, c', -, he'⟩
      · rw [he] at hp
        exact absurd hp.symm hne'
      · rw [he, he']
        rfl
  sound r hr := by
    rw [h.models]
    rcases h.mem_embeddings hr with ⟨hr₀, -⟩ | ⟨-, c, hc, he⟩
    · exact hs.sound r hr₀
    · obtain ⟨m, hm, hid, hdim, hlen⟩ := h.model
      rw [he]
      refine ⟨fun _ => ⟨m, hm, hid, c.embedding, rfl, ?_⟩, fun hst => by cases hst⟩
      rw [hlen c hc]
      omega
  indexed := by
    obtain ⟨-, hnone⟩ | ⟨v, v', hv, hv', hput⟩ := h.vec
    · rw [hnone]
      exact indexed_none
    · have hdel : Indexed (s.vecWithoutPair docId modelId) (s.embeddingsWithoutPair docId modelId) :=
        indexed_delete hs.indexed
      rw [hv] at hdel
      rw [hv']
      refine Indexed.putAll ?_ hput
      intro w hw x hx
      obtain ⟨r, hr, hrest⟩ := hdel w hw x hx
      exact ⟨r, h.inserted.frame r hr, hrest⟩
  payloads := by
    rw [h.jobs, h.documents]
    exact hs.payloads

/-- Every access of a dispatch that works keeps the store well formed. -/
theorem wellFormed_of_ok {op : DbReq} {v : op.Val} (h : op.run.Ok s v s') (hs : WellFormed s) :
    WellFormed s' := by
  cases op with
  | findDocument | findModel | listRecoverable => exact h.2 ▸ hs
  | completeJob jobId =>
    rw [ok_exec_ok.1 h]
    exact { hs with payloads := PayloadsIn.completed hs.payloads }
  | deferJob jobId now retryAfterSecs =>
    rw [ok_exec_ok.1 h]
    exact { hs with payloads := PayloadsIn.deferred hs.payloads }
  | deleteDocument => exact wellFormed_deleteDocument h hs
  | replaceEmbeddings => exact (ok_replaceEmbeddingsForDocumentModel h).wellFormed hs
  | upsertDocument => exact wellFormed_upsert h hs

end Ask
