/-
  Ids that were given out: every embed job of a server's queue names a document
  and a model by ids of their tables, also where they have been deleted since.
-/
import Ask.Lifetime

namespace Ask

open Lib

variable {E : Env} {view : View} {identity : EmbeddingIdentity} {s s' s₁ : Store} {model : EmbeddingModel}
  {q : JobQueue} {docId modelId now id : ℤ} {p : Pair}

/-- The ids of the pair have been given out. -/
def Store.Issued (s : Store) (p : Pair) : Prop :=
  (0 < p.1 ∧ p.1 ≤ s.documents.seq) ∧ 0 < p.2 ∧ p.2 ≤ s.models.seq

/-- Documents and models are counted from one. -/
structure FromOne (s : Store) : Prop where
  documentSeq : 0 ≤ s.documents.seq
  documents : ∀ d ∈ s.documents.rows, 0 < d.id
  modelSeq : 0 ≤ s.models.seq
  models : ∀ m ∈ s.models.rows, 0 < m.id

/-- Ids count from one, and the embed jobs name such ids. -/
structure Numbered (s : Store) : Prop extends FromOne s where
  payloads : PayloadsIn s.Issued s.jobs

theorem numbered_empty : Numbered .empty where
  documentSeq := le_rfl
  documents _ hd := absurd hd List.not_mem_nil
  modelSeq := le_rfl
  models _ hm := absurd hm List.not_mem_nil
  payloads _ he := absurd he List.not_mem_nil

/-- A pair with work left has been given out. -/
theorem FromOne.issued (h : FromOne s) (hfk : ForeignKeys s) (hp : p ∈ s.recoverablePairs) : s.Issued p := by
  obtain ⟨r, hr, rfl, -⟩ := Store.mem_recoverablePairs.1 hp
  obtain ⟨⟨d, hd, hid⟩, m, hm, hmid⟩ := hasPair_iff.1 (hfk r hr)
  show (0 < r.documentId ∧ r.documentId ≤ _) ∧ 0 < r.modelId ∧ r.modelId ≤ _
  rw [← hid, ← hmid]
  exact ⟨⟨h.documents d hd, s.documents.le_seq d hd⟩, h.models m hm, s.models.le_seq m hm⟩

theorem Numbered.congr (h : Numbered s) (hd : s'.documents = s.documents) (hm : s'.models = s.models)
    (hq : PayloadsIn s.Issued s'.jobs) : Numbered s' where
  documentSeq := hd ▸ h.documentSeq
  documents := hd ▸ h.documents
  modelSeq := hm ▸ h.modelSeq
  models := hm ▸ h.models
  payloads := hq.mono fun p hp => by rwa [Store.Issued, hd, hm]

theorem Numbered.seeded {pairs : List Pair} (h : Numbered s) (hq : SeededWith pairs now s.jobs q)
    (hpairs : ∀ p ∈ pairs, s.Issued p) : Numbered { s with jobs := q } :=
  h.congr rfl rfl (h.payloads.seededWith hq hpairs)

/-! ## The operations -/

theorem numbered_insertModel (h : (insertModel identity now).Ok s id s') (hs : Numbered s) : Numbered s' := by
  obtain ⟨models, rfl, hid, hrows⟩ := ok_insertModel h
  have hnew : id ≤ models.seq := models.le_seq _ (by rw [hrows]; exact List.mem_append_right _ List.mem_cons_self)
  have hseq := hs.modelSeq
  refine { hs with modelSeq := ?_, models := ?_, payloads := hs.payloads.mono fun p hp => ⟨hp.1, hp.2.1, ?_⟩ }
  · show 0 ≤ models.seq
    omega
  · intro m hm
    replace hm : m ∈ models.rows := hm
    rw [hrows] at hm
    rcases List.mem_append.1 hm with hm | hm
    · exact hs.models m hm
    · rw [List.mem_singleton.1 hm]
      show 0 < id
      omega
  · have hle := hp.2.2
    show p.2 ≤ models.seq
    omega

/-- A call that leaves documents, models and jobs alone. -/
theorem Numbered.same (h : Numbered s) (hd : s'.documents = s.documents) (hm : s'.models = s.models)
    (hj : s'.jobs = s.jobs) : Numbered s' := h.congr hd hm (hj ▸ h.payloads)

theorem keeps_insertPending_numbered {I : Store → Prop} {c : ChunkRef}
    (hI : Tx.Keeps I (insertPendingEmbedding docId modelId c now)) :
    Tx.Keeps (fun s => I s ∧ Numbered s) (insertPendingEmbedding docId modelId c now) := by
  refine Tx.keeps_exec ?_
  intro s u s' hok h
  obtain ⟨-, e, rfl, -⟩ := ok_insertPendingEmbedding hok
  exact ⟨hI s _ h.1 (.inr ⟨u, hok⟩), h.2.same rfl rfl rfl⟩

theorem Numbered.seededPair (h : Numbered s) (hfk : ForeignKeys s) (hp : p ∈ s.recoverablePairs)
    (hq : SeededWith [p] now s.jobs q) : Numbered { s with jobs := q } := by
  refine h.seeded hq ?_
  intro p' hp'
  rw [List.mem_singleton.1 hp']
  exact h.issued hfk hp

theorem keeps_reconcile_numbered :
    Tx.Keeps (fun s => WellFormed s ∧ Numbered s) (reconcileEmbeddingStartup E view identity now) := by
  refine keeps_reconcile (keeps_registerModel (J := fun id s => Enrolling id s ∧ Numbered s) ?_ ?_ ?_) ?_
  · exact fun s id s' h hs => ⟨enrolling_insertModel h hs.1, numbered_insertModel h hs.2⟩
  · intro model
    refine keeps_backfill (fun _ _ => keeps_insertPending_numbered keeps_insertPending) ?_ (keeps_seedEmbedJobs ?_)
    · exact fun s p h => ⟨⟨{ h.1.1 with indexed := h.1.1.indexed.without }, h.1.2⟩, h.2.same rfl rfl rfl⟩
    · exact fun s p q hp h hq => ⟨⟨h.1.1.seededPair hp hq, h.1.2⟩, h.2.seededPair h.1.1.foreignKeys hp hq⟩
  · exact fun id s h => ⟨h.1.1, h.2⟩
  · refine keeps_seedEmbedJobs ?_
    exact fun s p q hp h hq => ⟨h.1.seededPair hp hq, h.2.seededPair h.1.foreignKeys hp hq⟩

theorem keeps_activate_numbered : Tx.Keeps Numbered (ensureActiveSearchModel model now) :=
  keeps_ensureActiveSearchModel fun _ _ _ _ h => h.same rfl rfl rfl

theorem DocumentWritten.fromOne {doc : Document} (h : DocumentWritten s doc id s₁) (hs : FromOne s) :
    FromOne s₁ where
  documentSeq := hs.documentSeq.trans h.seq_le
  documents d hd := by
    rcases (h.mem d).1 hd with rfl | ⟨hd, -⟩
    · obtain ⟨hnew, -⟩ | ⟨⟨d, hd, hid, -⟩, -⟩ := h.case
      · have hseq := hs.documentSeq
        show 0 < id
        omega
      · exact lt_of_lt_of_eq (hs.documents d hd) hid
    · exact hs.documents d hd
  modelSeq := h.models ▸ hs.modelSeq
  models := h.models ▸ hs.models

theorem DocumentWritten.issued {doc : Document} (h : DocumentWritten s doc id s₁) (hp : s.Issued p) :
    s₁.Issued p := by
  refine ⟨⟨hp.1.1, hp.1.2.trans h.seq_le⟩, ?_⟩
  rw [h.models]
  exact hp.2

theorem numbered_upsert {doc : Document} {chunks : List ChunkRef} {changed : Bool}
    (h : (upsertDocumentAndReplacePendingEmbeddings doc modelId chunks now).Ok s (id, changed) s')
    (hs : WellFormed s) (hnum : Numbered s) : Numbered s' := by
  cases changed with
  | false => rwa [(ok_upsert_unchanged h).1]
  | true =>
    obtain ⟨s₁, hi, hq, hq₁⟩ := seededWith_upsert h
    have hw := hi.written
    have hone := hw.fromOne hnum.toFromOne
    have hold : PayloadsIn s₁.Issued s.jobs := hnum.payloads.mono fun p => hw.issued
    have hmid : Numbered s₁ := by
      refine ⟨hone, ?_⟩
      obtain ⟨hjobs, -⟩ | hq₁ := hq₁
      · rwa [hjobs]
      · exact hold.seededWith hq₁ fun p => hone.issued (hw.foreignKeys hs.foreignKeys)
    have hids : Numbered { s' with jobs := s₁.jobs } :=
      hmid.same hi.documents (hi.models.trans hw.models.symm) rfl
    exact hids.seeded hq fun p => hids.issued (hi.foreignKeys hs.foreignKeys)

theorem numbered_markDocumentsStale {docIds : List ℤ} {u : Unit} (h : (markDocumentsStale docIds now).Ok s u s')
    (hs : WellFormed s) (hnum : Numbered s) : Numbered s' := by
  have hs' := wellFormed_markDocumentsStale h hs
  obtain ⟨-, rfl⟩ | ⟨hne, h⟩ := ok_markDocumentsStale h
  · exact hnum
  · have hseeded := seededWith_markDocumentsStaleInQueueTime hne h
    obtain ⟨q, -, -, rfl⟩ := ok_markDocumentsStaleInQueueTime hne h
    refine hnum.congr rfl rfl (hnum.payloads.seededWith hseeded fun p hp => ?_)
    exact FromOne.issued (s := { s with
      embeddings := s.markStale docIds,
      vec := { s with embeddings := s.markStale docIds }.vecWithout fun r =>
        decide (r.documentId ∈ docIds),
      jobs := q }) ⟨hnum.documentSeq, hnum.documents, hnum.modelSeq, hnum.models⟩ hs'.foreignKeys hp

theorem numbered_deleteDocument {u : Unit} (h : (deleteDocument docId).Ok s u s') (hs : Numbered s) :
    Numbered s' := by
  obtain rfl := ok_deleteDocument h
  exact { hs with documents := fun d hd => hs.documents d (AutoTable.mem_delete.1 hd).1 }

theorem numbered_of_ok {op : DbReq} {v : op.Val} (h : op.run.Ok s v s') (hs : WellFormed s)
    (hnum : Numbered s) : Numbered s' := by
  cases op with
  | findDocument | findModel | listRecoverable => exact h.2 ▸ hnum
  | completeJob jobId =>
    rw [ok_exec_ok.1 h]
    exact hnum.congr rfl rfl hnum.payloads.completed
  | deferJob jobId now retryAfterSecs =>
    rw [ok_exec_ok.1 h]
    exact hnum.congr rfl rfl hnum.payloads.deferred
  | deleteDocument => exact numbered_deleteDocument h hnum
  | replaceEmbeddings =>
    have hrep := ok_replaceEmbeddingsForDocumentModel h
    exact hnum.same hrep.documents hrep.models hrep.jobs
  | upsertDocument => exact numbered_upsert h hs hnum

/-! ## Every store -/

theorem numbered_step {op : StoreOp} (h : StoreStep E s op s') (hs : WellFormed s) (hnum : Numbered s) :
    Numbered s' := by
  cases h with
  | reconcile h => exact (h.keeps traced_reconcile keeps_reconcile_numbered ⟨hs, hnum⟩).2
  | activate h => exact h.keeps traced_ensureActiveSearchModel keeps_activate_numbered hnum
  | @db _ op h =>
    obtain rfl | ⟨v, h⟩ := atomic_dbReq op s s' h
    · exact hnum
    · exact numbered_of_ok h hs hnum
  | @markStale _ docIds now h =>
    obtain rfl | ⟨u, h⟩ := atomic_markDocumentsStale docIds now s s' h
    · exact hnum
    · exact numbered_markDocumentsStale h hs hnum
  | enqueue hty h =>
    obtain rfl | ⟨u, h⟩ := Tx.atomic_exec s s' h
    · exact hnum
    · rw [ok_enqueueJobDb h]
      exact hnum.congr rfl rfl (hnum.payloads.enqueued hty)
  | claim => exact hnum.congr rfl rfl hnum.payloads.claimed

/-- In every store of a server's life the embed jobs name ids that were given out. -/
theorem numbered_run {tr : List StoreOp} (h : Run (StoreStep E) .empty tr s) : Numbered s := by
  refine (h.invariant (I := fun s => WellFormed s ∧ Numbered s) ?_ ⟨wellFormed_empty, numbered_empty⟩).2
  exact fun s op s' _ hstep hs => ⟨wellFormed_step hstep hs.1, numbered_step hstep hs.1 hs.2⟩

end Ask
