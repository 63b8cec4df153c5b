/-
  The embedding statistics add up: the documents counted as embedded, locked
  and remaining are all documents, and when a claim is locked is what the
  queue means by it.
-/
import Ask.Refs
import Ask.SeedLaw
import Ask.Stats
import Mathlib.Data.List.ReduceOption

namespace Ask

open Lib

variable {E : Env} {s s' : Store} {model : EmbeddingModel} {modelId now cutoff d : ℤ}
  {snap : EmbeddingStatsSnapshot}

/-! ## Decoding -/

/-- A column of whole numbers decodes to them. -/
theorem mapM_getI64 {column : String} {g : AnyError → AnyError} (ids : List ℤ) :
    (ids.map fun id => [(column, SqlValue.integer id)]).mapM
      (fun row => (SqlRow.getI64 row 0).mapError g) = .ok ids := by
  rw [List.mapM_map]
  refine (mapM_eq_ok fun id _ => ?_).trans (congrArg Except.ok (List.map_id ids))
  rfl

/-! ## What the queries load -/

/-- The documents of the embedding rows that satisfy `p`. -/
def Store.documentsWhere (s : Store) (p : DocumentEmbedding → Bool) : Finset ℤ :=
  ((s.embeddings.rows.filter p).map DocumentEmbedding.documentId).toFinset

theorem Store.mem_documentsWhere {p : DocumentEmbedding → Bool} :
    d ∈ s.documentsWhere p ↔ ∃ r ∈ s.embeddings.rows, p r = true ∧ r.documentId = d := by
  simp only [documentsWhere, List.mem_toFinset, List.mem_map, List.mem_filter, and_assoc]

/-- The documents with a row of the model in one of the states. -/
def Store.documentsIn (s : Store) (modelId : ℤ) (states : List EmbedState) : Finset ℤ :=
  s.documentsWhere fun r => decide (r.modelId = modelId) && decide (r.state ∈ states)

theorem Store.mem_documentsIn {states : List EmbedState} : d ∈ s.documentsIn modelId states ↔
    ∃ r ∈ s.embeddings.rows, r.pair = (d, modelId) ∧ r.state ∈ states := by
  simp only [documentsIn, mem_documentsWhere, Bool.and_eq_true, decide_eq_true_eq,
    DocumentEmbedding.pair, Prod.mk.injEq]
  constructor
  · rintro ⟨r, hr, ⟨hm, hst⟩, hd⟩
    exact ⟨r, hr, ⟨hd, hm⟩, hst⟩
  · rintro ⟨r, hr, ⟨hd, hm⟩, hst⟩
    exact ⟨r, hr, ⟨hm, hst⟩, hd⟩

/-- `SELECT DISTINCT document_id` decodes to the documents. -/
theorem mapM_distinctDocumentIds {g : AnyError → AnyError} (s : Store) (p : DocumentEmbedding → Bool) :
    ∃ ids, (s.distinctDocumentIds p).mapM (fun row => (SqlRow.getI64 row 0).mapError g) = .ok ids ∧
      ids.toFinset = s.documentsWhere p := by
  refine ⟨_, mapM_getI64 _, ?_⟩
  ext d
  rw [Store.documentsWhere, List.mem_toFinset, List.mem_toFinset, List.mem_dedup]

theorem countDocuments_ok (s : Store) : countDocuments.Ok s s.documents.rows.length s := ⟨rfl, rfl⟩

theorem loadDistinctDocumentIdsForStates_ok (s : Store) : ∀ states : List EmbedState,
    (loadDistinctDocumentIdsForStates modelId states).Ok s (s.documentsIn modelId states) s
  | [] => by
    refine Tx.ok_pure.2 ⟨?_, rfl⟩
    ext d
    simp [Store.mem_documentsIn]
  | state :: states => by
    obtain ⟨ids, hids, hset⟩ := mapM_distinctDocumentIds
      (g := .context "failed to read embedding document id") s
      fun r => decide (r.modelId = modelId) && decide (r.state = state)
    rw [loadDistinctDocumentIdsForStates, Tx.ok_bind]
    refine ⟨ids, s, Tx.ok_query.2 ⟨hids, rfl⟩, ?_⟩
    rw [Tx.ok_bind]
    refine ⟨_, s, loadDistinctDocumentIdsForStates_ok s states, Tx.ok_pure.2 ⟨?_, rfl⟩⟩
    ext d
    rw [hset, Finset.mem_union]
    simp only [Store.documentsIn, Store.mem_documentsWhere, Bool.and_eq_true, decide_eq_true_eq,
      List.mem_cons]
    constructor
    · rintro (⟨r, hr, ⟨hm, hst⟩, hd⟩ | ⟨r, hr, ⟨hm, hst⟩, hd⟩)
      · exact ⟨r, hr, ⟨hm, .inl hst⟩, hd⟩
      · exact ⟨r, hr, ⟨hm, .inr hst⟩, hd⟩
    · rintro ⟨r, hr, ⟨hm, hst | hst⟩, hd⟩
      · exact .inl ⟨r, hr, ⟨hm, hst⟩, hd⟩
      · exact .inr ⟨r, hr, ⟨hm, hst⟩, hd⟩

theorem loadRecentEmbeddedDocumentIds_ok (s : Store) (modelId createdAfter : ℤ) :
    (loadRecentEmbeddedDocumentIds modelId createdAfter).Ok s (s.documentsWhere fun r =>
      decide (r.modelId = modelId) && decide (r.state = .embedded) && decide (createdAfter ≤ r.createdAt)) s := by
  obtain ⟨ids, hids, hset⟩ := mapM_distinctDocumentIds
    (g := .context "failed to read recent embedded document id") s
    fun r => decide (r.modelId = modelId) && decide (r.state = .embedded) && decide (createdAfter ≤ r.createdAt)
  refine Tx.ok_query.2 ⟨bind_eq_ok.2 ⟨ids, hids, ?_⟩, rfl⟩
  rw [← hset]
  rfl

/-- The counts of the file types. -/
def Store.fileTypeCounts (s : Store) : List DocumentFileTypeCount :=
  (tally (s.documents.rows.map Document.fileType)).map fun group => ⟨group.1, group.2⟩

theorem loadDocumentFileTypeCounts_ok (s : Store) : loadDocumentFileTypeCounts.Ok s s.fileTypeCounts s := by
  refine Db.ok_context.2 (Tx.ok_query.2 ⟨?_, rfl⟩)
  rw [Store.fileTypeRows, List.mapM_map]
  refine mapM_eq_ok fun group _ => ?_
  rfl

/-! ## Claims -/

/-- The embed job of the pair is claimed, and no claim at `now` takes it. -/
def FailedLocked (E : Env) (s : Store) (now : ℤ) (p : Pair) : Prop :=
  ∃ e ∈ s.jobs.rows, e.jobType = .embedDocument ∧ E.decodeEmbedPayload e.payload = .ok ⟨p.1, p.2⟩ ∧
    e.claimedAt ≠ none ∧ e.claimable now = false

/-- The cutoff of the statistics is the complement of what the queue hands out. -/
theorem claimedSince_iff {e : JobQueueEntry} :
    e.claimedSince (now - failedLockoutSecs) = true ↔ e.claimedAt ≠ none ∧ e.claimable now = false := by
  rw [← Bool.not_eq_true, claimable_iff]
  cases h : e.claimedAt with
  | none => simp [JobQueueEntry.claimedSince, h]
  | some c => simp [JobQueueEntry.claimedSince, h, failedLockoutSecs]

theorem Store.mem_claimedPayloads {row : SqlRow} : row ∈ s.claimedPayloads cutoff ↔
    ∃ e ∈ s.jobs.rows, e.jobType = .embedDocument ∧ e.claimedSince cutoff = true ∧
      row = [("payload", .text e.payload)] := by
  simp only [claimedPayloads, List.mem_map, List.mem_filter, Bool.and_eq_true, decide_eq_true_eq]
  constructor
  · rintro ⟨e, ⟨he, hty, hc⟩, rfl⟩
    exact ⟨e, he, hty, hc, rfl⟩
  · rintro ⟨e, he, hty, hc, rfl⟩
    exact ⟨e, ⟨he, hty, hc⟩, rfl⟩

theorem claimedDocument_eq_ok {text : String} {found : Option ℤ} :
    claimedDocument E modelId [("payload", .text text)] = .ok found ↔
      ∃ p, E.decodeEmbedPayload text = .ok p ∧
        (if p.modelId = modelId then some p.documentId else none) = found := by
  show (E.decodeEmbedPayload text).mapError _ >>= _ = _ ↔ _
  rw [bind_eq_ok]
  simp only [mapError_eq_ok, pure, Except.pure, Except.ok.injEq]

/-- Every payload of an embed job claimed since the cutoff can be decoded. -/
def ClaimedDecode (E : Env) (s : Store) (cutoff : ℤ) : Prop :=
  ∀ e ∈ s.jobs.rows, e.jobType = .embedDocument → e.claimedSince cutoff = true →
    ∃ p, E.decodeEmbedPayload e.payload = .ok p

/-- The claimed documents are loaded where all payloads decode. -/
theorem loadClaimedEmbedDocumentIds_ok (h : ClaimedDecode E s cutoff) (modelId : ℤ) :
    ∃ ids, (loadClaimedEmbedDocumentIds E modelId cutoff).Ok s ids s := by
  have hall : ∀ row ∈ s.claimedPayloads cutoff, ∃ found, claimedDocument E modelId row = .ok found := by
    intro row hrow
    obtain ⟨e, he, hty, hc, rfl⟩ := Store.mem_claimedPayloads.1 hrow
    obtain ⟨p, hp⟩ := h e he hty hc
    exact ⟨_, claimedDocument_eq_ok.2 ⟨p, hp, rfl⟩⟩
  obtain ⟨found, hfound⟩ := exists_mapM_eq_ok.2 hall
  exact ⟨_, Tx.ok_query.2 ⟨bind_eq_ok.2 ⟨found, hfound, rfl⟩, rfl⟩⟩

theorem ok_loadClaimedEmbedDocumentIds {ids : Finset ℤ}
    (h : (loadClaimedEmbedDocumentIds E modelId cutoff).Ok s ids s') :
    s' = s ∧ ClaimedDecode E s cutoff ∧ ∀ d, d ∈ ids ↔ ∃ e ∈ s.jobs.rows, e.jobType = .embedDocument ∧
      E.decodeEmbedPayload e.payload = .ok ⟨d, modelId⟩ ∧ e.claimedSince cutoff = true := by
  obtain ⟨hload, rfl⟩ := Tx.ok_query.1 h
  obtain ⟨found, hfound, hids⟩ := bind_eq_ok.1 hload
  obtain rfl := Except.ok.inj hids
  refine ⟨rfl, ?_, fun d => ?_⟩
  · intro e he hty hc
    obtain ⟨o, ho⟩ := exists_mapM_eq_ok.1 ⟨found, hfound⟩ _ (Store.mem_claimedPayloads.2 ⟨e, he, hty, hc, rfl⟩)
    obtain ⟨p, hp, -⟩ := claimedDocument_eq_ok.1 ho
    exact ⟨p, hp⟩
  · rw [List.mem_toFinset, List.reduceOption_mem_iff, mem_of_mapM hfound]
    constructor
    · rintro ⟨row, hrow, hd⟩
      obtain ⟨e, he, hty, hc, rfl⟩ := Store.mem_claimedPayloads.1 hrow
      obtain ⟨p, hp, hif⟩ := claimedDocument_eq_ok.1 hd
      split_ifs at hif with hm
      obtain rfl := Option.some.inj hif
      exact ⟨e, he, hty, by rw [hp, ← hm], hc⟩
    · rintro ⟨e, he, hty, hp, hc⟩
      exact ⟨_, Store.mem_claimedPayloads.2 ⟨e, he, hty, hc, rfl⟩,
        claimedDocument_eq_ok.2 ⟨_, hp, if_pos rfl⟩⟩

/-! ## The counts of rows -/

theorem sqlSum_of_ne_nil {values : List ℤ} (h : values ≠ []) : sqlSum values = .integer values.sum := by
  cases values with
  | nil => exact absurd rfl h
  | cons => rfl

/-- The number of rows in the state. -/
def countState (rows : List DocumentEmbedding) (state : EmbedState) : ℕ :=
  rows.countP fun r => decide (r.state = state)

theorem sumOfState_of_ne_nil {rows : List DocumentEmbedding} {state : EmbedState} (h : rows ≠ []) :
    sumOfState rows state = .integer (countState rows state) := by
  rw [sumOfState, sqlSum_of_ne_nil (mt List.map_eq_nil_iff.1 h), countState, ← sum_ones]

/-- Every row is in one of the three states. -/
theorem length_eq_countStates : ∀ rows : List DocumentEmbedding, rows.length =
    countState rows .embedded + countState rows .pending + countState rows .stale
  | [] => rfl
  | r :: rows => by
    have ih := length_eq_countStates rows
    simp only [countState, List.length_cons, List.countP_cons] at ih ⊢
    cases r.state <;> simp <;> omega

/-- Over no rows the sums are NULL, which is not an `i64`. -/
theorem embeddingCounts_nil : embeddingCounts [("total", .integer 0), ("embedded", sumOfState [] .embedded),
    ("pending", sumOfState [] .pending), ("stale", sumOfState [] .stale)] =
      .error (.msg "Invalid column type Null at index: 1, name: embedded") := rfl

theorem loadDocumentEmbeddingCounts_ok (h : s.rowsOf modelId ≠ []) :
    (loadDocumentEmbeddingCounts modelId).Ok s ((s.rowsOf modelId).length,
      countState (s.rowsOf modelId) .embedded, countState (s.rowsOf modelId) .pending,
      countState (s.rowsOf modelId) .stale) s := by
  refine Db.ok_context.2 (Tx.ok_query.2 ⟨?_, rfl⟩)
  rw [sumOfState_of_ne_nil h, sumOfState_of_ne_nil h, sumOfState_of_ne_nil h]
  rfl

/-- The counts are loaded exactly where the model has a row. -/
theorem rowsOf_ne_nil_of_ok {counts : ℤ × ℤ × ℤ × ℤ}
    (h : (loadDocumentEmbeddingCounts modelId).Ok s counts s') : s.rowsOf modelId ≠ [] := by
  intro hnil
  obtain ⟨hload, -⟩ := Tx.ok_query.1 (Db.ok_context.1 h)
  rw [hnil] at hload
  cases embeddingCounts_nil.symm.trans hload

/-! ## The snapshot -/

/-- The documents with an embedded row of the model since `createdAfter`. -/
def Store.embeddedSince (s : Store) (modelId createdAfter : ℤ) : Finset ℤ :=
  s.documentsWhere fun r =>
    decide (r.modelId = modelId) && decide (r.state = .embedded) && decide (createdAfter ≤ r.createdAt)

/-- The documents counted as embedded among `ids`. -/
def Store.settled (s : Store) (modelId : ℤ) (ids : Finset ℤ) : Finset ℤ :=
  ids \ s.documentsIn modelId [.pending, .stale]

/-- The snapshot, where the documents of the claimed jobs are `claimed`. -/
def snapshotOf (s : Store) (modelId now : ℤ) (claimed : Finset ℤ) : EmbeddingStatsSnapshot where
  totalDocuments := s.documents.rows.length
  embeddedDocuments := (s.settled modelId (s.documentsIn modelId [.embedded])).card
  failedLockedDocuments := (s.documentsIn modelId [.pending, .stale] ∩ claimed).card
  remainingDocuments := saturatingSub
    (saturatingSub s.documents.rows.length (s.settled modelId (s.documentsIn modelId [.embedded])).card)
    (s.documentsIn modelId [.pending, .stale] ∩ claimed).card
  documentsEmbeddedLastFiveMinutes :=
    (s.settled modelId (s.embeddedSince modelId (now - recentRateWindowSecs))).card
  documentsByFileType := s.fileTypeCounts
  documentEmbeddingsTotal := (s.rowsOf modelId).length
  documentEmbeddingsEmbedded := countState (s.rowsOf modelId) .embedded
  documentEmbeddingsPending := countState (s.rowsOf modelId) .pending
  documentEmbeddingsStale := countState (s.rowsOf modelId) .stale

/-- The snapshot is what is left once the claimed documents and the counts are loaded. -/
theorem ok_loadEmbeddingStatsSnapshot_iff : (loadEmbeddingStatsSnapshot E model now).Ok s snap s' ↔
    ∃ claimed, (loadClaimedEmbedDocumentIds E model.id (now - failedLockoutSecs)).Ok s claimed s ∧
      s.rowsOf model.id ≠ [] ∧ snap = snapshotOf s model.id now claimed ∧ s' = s := by
  rw [loadEmbeddingStatsSnapshot, (countDocuments_ok s).bind_iff,
    (loadDistinctDocumentIdsForStates_ok s _).bind_iff, (loadDistinctDocumentIdsForStates_ok s _).bind_iff,
    Tx.ok_bind]
  constructor
  · rintro ⟨claimed, s₁, hclaimed, h⟩
    obtain ⟨rfl, -⟩ := ok_loadClaimedEmbedDocumentIds hclaimed
    rw [(loadRecentEmbeddedDocumentIds_ok _ _ _).bind_iff, (loadDocumentFileTypeCounts_ok _).bind_iff] at h
    obtain ⟨counts, s₂, hcounts, -⟩ := Tx.ok_bind.1 h
    have hrows := rowsOf_ne_nil_of_ok hcounts
    rw [(loadDocumentEmbeddingCounts_ok hrows).bind_iff, Tx.ok_pure] at h
    exact ⟨claimed, hclaimed, hrows, h.1.symm, h.2.symm⟩
  · rintro ⟨claimed, hclaimed, hrows, rfl, rfl⟩
    refine ⟨claimed, _, hclaimed, ?_⟩
    rw [(loadRecentEmbeddedDocumentIds_ok _ _ _).bind_iff, (loadDocumentFileTypeCounts_ok _).bind_iff,
      (loadDocumentEmbeddingCounts_ok hrows).bind_iff]
    exact Tx.ok_pure.2 ⟨rfl, rfl⟩

/-- The snapshot is loaded exactly where the payloads of the claimed jobs decode and the model has a
    row. -/
theorem succeeds_loadEmbeddingStatsSnapshot :
    (loadEmbeddingStatsSnapshot E model now).Succeeds s ↔
      ClaimedDecode E s (now - failedLockoutSecs) ∧ ∃ r ∈ s.embeddings.rows, r.modelId = model.id := by
  have hrow : s.rowsOf model.id ≠ [] ↔ ∃ r ∈ s.embeddings.rows, r.modelId = model.id := by
    simp only [Store.rowsOf, ne_eq, List.filter_eq_nil_iff, decide_eq_true_eq, not_forall, not_not,
      exists_prop]
  rw [← hrow]
  constructor
  · rintro ⟨snap, s', h⟩
    obtain ⟨claimed, hclaimed, hrows, -⟩ := ok_loadEmbeddingStatsSnapshot_iff.1 h
    exact ⟨(ok_loadClaimedEmbedDocumentIds hclaimed).2.1, hrows⟩
  · rintro ⟨hdecode, hrows⟩
    obtain ⟨claimed, hclaimed⟩ := loadClaimedEmbedDocumentIds_ok hdecode model.id
    exact ⟨_, s, ok_loadEmbeddingStatsSnapshot_iff.2 ⟨claimed, hclaimed, hrows, rfl, rfl⟩⟩

/-- Where the model has no row, the counts fail to decode. -/
theorem fails_loadEmbeddingStatsSnapshot (hdecode : ClaimedDecode E s (now - failedLockoutSecs))
    (hrows : ∀ r ∈ s.embeddings.rows, r.modelId ≠ model.id) :
    (loadEmbeddingStatsSnapshot E model now).Fails s (.context "failed to query document embedding counts"
      (.msg "Invalid column type Null at index: 1, name: embedded")) := by
  obtain ⟨claimed, hclaimed⟩ := loadClaimedEmbedDocumentIds_ok hdecode model.id
  have hnil : s.rowsOf model.id = [] := by simpa [Store.rowsOf] using hrows
  rw [loadEmbeddingStatsSnapshot, (countDocuments_ok s).fails_bind_iff,
    (loadDistinctDocumentIdsForStates_ok s _).fails_bind_iff,
    (loadDistinctDocumentIdsForStates_ok s _).fails_bind_iff, hclaimed.fails_bind_iff,
    (loadRecentEmbeddedDocumentIds_ok s _ _).fails_bind_iff, (loadDocumentFileTypeCounts_ok s).fails_bind_iff]
  refine Tx.fails_bind.2 (.inl (Tx.fails_mapError.2 ⟨_, Tx.fails_query.2 ?_, rfl⟩))
  rw [hnil]
  exact embeddingCounts_nil

theorem ok_loadEmbeddingStatsSnapshot (h : (loadEmbeddingStatsSnapshot E model now).Ok s snap s') :
    ∃ claimed : Finset ℤ, snap = snapshotOf s model.id now claimed ∧
      ∀ d, d ∈ claimed ↔ FailedLocked E s now (d, model.id) := by
  obtain ⟨claimed, hclaimed, -, hsnap, -⟩ := ok_loadEmbeddingStatsSnapshot_iff.1 h
  refine ⟨claimed, hsnap, fun d => ?_⟩
  rw [(ok_loadClaimedEmbedDocumentIds hclaimed).2.2]
  simp only [FailedLocked, claimedSince_iff]

/-! ## What is counted -/

/-- The pair has an embedded row and none that waits. -/
def FullyEmbedded (s : Store) (p : Pair) : Prop :=
  (∃ r ∈ s.embeddings.rows, r.pair = p ∧ r.state = .embedded) ∧ ¬WorkLeft s p

/-- The difference is not an `i64`. -/
def Saturates (a b : ℤ) : Prop := saturatingSub a b ≠ a - b

theorem saturatingSub_eq {a b : ℤ} (h : IsI64 (a - b)) : saturatingSub a b = a - b := by
  unfold IsI64 at h
  unfold saturatingSub
  omega

/-- Parts of a count that an `i64` holds. -/
theorem saturatingSub_exact {n a b : ℕ} (hle : a + b ≤ n) (hn : IsI64 n) :
    saturatingSub n a = n - a ∧ saturatingSub (n - a) b = n - a - b := by
  obtain ⟨-, hlt⟩ := hn
  constructor
  · refine saturatingSub_eq ?_
    unfold IsI64
    omega
  · refine saturatingSub_eq ?_
    unfold IsI64
    omega

/-- The counts of a snapshot at `now`, and how they add up. -/
structure AddsUp (E : Env) (s : Store) (modelId now : ℤ) (snap : EmbeddingStatsSnapshot) : Prop where
  total : snap.totalDocuments = s.documents.rows.length
  embedded : snap.embeddedDocuments =
    {doc | doc ∈ s.documents.rows ∧ FullyEmbedded s (doc.id, modelId)}.ncard
  locked : snap.failedLockedDocuments = {doc | doc ∈ s.documents.rows ∧
    WorkLeft s (doc.id, modelId) ∧ FailedLocked E s now (doc.id, modelId)}.ncard
  exact : ¬Saturates snap.totalDocuments snap.embeddedDocuments ∧
    ¬Saturates (snap.totalDocuments - snap.embeddedDocuments) snap.failedLockedDocuments
  sum : snap.embeddedDocuments + snap.failedLockedDocuments + snap.remainingDocuments = snap.totalDocuments
  remaining : 0 ≤ snap.remainingDocuments
  recent : snap.documentsEmbeddedLastFiveMinutes ≤ snap.embeddedDocuments
  rows : snap.documentEmbeddingsEmbedded + snap.documentEmbeddingsPending +
    snap.documentEmbeddingsStale = snap.documentEmbeddingsTotal
  fileTypes : (snap.documentsByFileType.map (·.documentCount)).sum = snap.totalDocuments

theorem mem_recoverable : d ∈ s.documentsIn modelId [.pending, .stale] ↔ WorkLeft s (d, modelId) := by
  simp only [Store.mem_documentsIn, WorkLeft, List.mem_cons, List.not_mem_nil, or_false]

theorem mem_settled : d ∈ s.settled modelId (s.documentsIn modelId [.embedded]) ↔
    FullyEmbedded s (d, modelId) := by
  rw [Store.settled, Finset.mem_sdiff, mem_recoverable]
  simp only [Store.mem_documentsIn, FullyEmbedded, List.mem_singleton]

/-- Every embedding row belongs to a document. -/
def Referring (s : Store) : Prop :=
  ∀ r ∈ s.embeddings.rows, ∃ doc ∈ s.documents.rows, doc.id = r.documentId

theorem documentsWhere_subset (hs : Referring s) (p : DocumentEmbedding → Bool) :
    s.documentsWhere p ⊆ s.documents.keys := by
  intro d hd
  obtain ⟨r, hr, -, rfl⟩ := Store.mem_documentsWhere.1 hd
  exact AutoTable.mem_keys.2 (hs r hr)

/-- A set of documents with embedding rows, counted as documents. -/
theorem card_eq_ncard {ids : Finset ℤ} {P : Pair → Prop} (hs : Referring s)
    (hsub : ∃ p, ids ⊆ s.documentsWhere p) (h : ∀ d, d ∈ ids ↔ P (d, modelId)) :
    ids.card = {doc | doc ∈ s.documents.rows ∧ P (doc.id, modelId)}.ncard := by
  obtain ⟨p, hp⟩ := hsub
  refine (AutoTable.ncard_rows fun d => ?_).symm
  rw [h d]
  constructor
  · intro hd
    obtain ⟨doc, hdoc, rfl⟩ := AutoTable.mem_keys.1 (documentsWhere_subset hs p (hp ((h d).2 hd)))
    exact ⟨doc, hdoc, rfl, hd⟩
  · rintro ⟨doc, -, rfl, hd⟩
    exact hd

/-- The embedded and the locked documents are different ones of the store. -/
theorem card_settled_add_card_locked_le (hs : Referring s) (modelId : ℤ) (claimed : Finset ℤ) :
    (s.settled modelId (s.documentsIn modelId [.embedded])).card +
      (s.documentsIn modelId [.pending, .stale] ∩ claimed).card ≤ s.documents.rows.length := by
  have hdisjoint : Disjoint (s.settled modelId (s.documentsIn modelId [.embedded]))
      (s.documentsIn modelId [.pending, .stale] ∩ claimed) :=
    Finset.disjoint_of_subset_right Finset.inter_subset_left Finset.sdiff_disjoint
  rw [← Finset.card_union_of_disjoint hdisjoint, ← AutoTable.card_keys]
  refine Finset.card_le_card (Finset.union_subset ?_ ?_)
  · exact Finset.sdiff_subset.trans (documentsWhere_subset hs _)
  · exact Finset.inter_subset_left.trans (documentsWhere_subset hs _)

theorem embeddedSince_subset {createdAfter : ℤ} :
    s.embeddedSince modelId createdAfter ⊆ s.documentsIn modelId [.embedded] := by
  intro d hd
  obtain ⟨r, hr, hp, hid⟩ := Store.mem_documentsWhere.1 hd
  simp only [Bool.and_eq_true, decide_eq_true_eq] at hp
  exact Store.mem_documentsIn.2 ⟨r, hr, Prod.ext hid hp.1.1, List.mem_singleton.2 hp.1.2⟩

theorem sum_fileTypeCounts : (s.fileTypeCounts.map (·.documentCount)).sum = s.documents.rows.length := by
  have hcast : s.fileTypeCounts.map (·.documentCount) =
      ((tally (s.documents.rows.map Document.fileType)).map Prod.snd).map ((↑) : ℕ → ℤ) := by
    rw [Store.fileTypeCounts, List.map_map, List.map_map]
    rfl
  rw [hcast, ← Nat.cast_list_sum, sum_tally, List.length_map]

/-- **The statistics add up**: of a store whose rows all refer to documents, at any time, the documents
    counted as embedded, locked and remaining are all of them and no subtraction saturates; what is
    counted is what the states of the rows and the claims of the jobs say; recent documents are embedded
    ones; and the counts of rows and of file types sum to their totals.  `hcount` is the range of the
    database's `COUNT(*)`. -/
theorem stats_add_up (hs : Referring s) (hcount : IsI64 s.documents.rows.length)
    (h : (loadEmbeddingStatsSnapshot E model now).Ok s snap s') : AddsUp E s model.id now snap := by
  obtain ⟨claimed, rfl, hclaimed⟩ := ok_loadEmbeddingStatsSnapshot h
  have hle := card_settled_add_card_locked_le hs model.id claimed
  obtain ⟨hfirst, hsecond⟩ := saturatingSub_exact hle hcount
  have hremaining : (snapshotOf s model.id now claimed).remainingDocuments = s.documents.rows.length -
      (s.settled model.id (s.documentsIn model.id [.embedded])).card -
      (s.documentsIn model.id [.pending, .stale] ∩ claimed).card := by
    rw [← hsecond, ← hfirst]
    rfl
  refine ⟨rfl, ?_, ?_, ⟨not_not.2 hfirst, not_not.2 hsecond⟩, ?_, ?_, ?_, ?_, sum_fileTypeCounts⟩
  · exact congrArg Nat.cast (card_eq_ncard hs ⟨_, Finset.sdiff_subset⟩ fun d => mem_settled)
  · refine congrArg Nat.cast (card_eq_ncard (P := fun p => WorkLeft s p ∧ FailedLocked E s now p) hs
      ⟨_, Finset.inter_subset_left⟩ fun d => ?_)
    rw [Finset.mem_inter, mem_recoverable, hclaimed]
  · rw [hremaining]
    simp only [snapshotOf]
    omega
  · rw [hremaining]
    omega
  · have hsub : s.settled model.id (s.embeddedSince model.id (now - recentRateWindowSecs)) ⊆
        s.settled model.id (s.documentsIn model.id [.embedded]) :=
      Finset.sdiff_subset_sdiff embeddedSince_subset (le_refl _)
    exact Int.ofNat_le.2 (Finset.card_le_card hsub)
  · have hlen := length_eq_countStates (s.rowsOf model.id)
    simp only [snapshotOf]
    omega

/-! ## A store and its statistics -/

/-- The libraries, with a decoder that reads every payload of the server. -/
def readingEnv : Env := { sampleEnv with decodeEmbedPayload := sampleDecode }

/-- A document of this file type. -/
def statsDocument (id : ℤ) (fileType : String) : Document :=
  ⟨id, "/r/" ++ toString id, fileType, .resource, 0, 1, "", "\x7b\x7d", 0⟩

/-- Its row for model 1. -/
def statsRow (id : ℤ) (state : EmbedState) (createdAt : ℤ) : DocumentEmbedding :=
  ⟨id, id, 1, .filename, 0, 0, state, none, createdAt⟩

/-- Five documents at the time 100000: two embedded, one of them ten minutes ago, one pending with a
    claimed job, one stale, one without rows. -/
def statsStore : Store where
  documents := ⟨[statsDocument 1 "md", statsDocument 2 "txt", statsDocument 3 "md", statsDocument 4 "md",
    statsDocument 5 "md"], 5, by decide, by decide, by decide⟩
  models := ⟨[⟨1, "m", 768, 512, 0, 0⟩], 1, by decide, by decide, by decide⟩
  embeddings := ⟨[statsRow 1 .embedded 99940, statsRow 2 .embedded 99400, statsRow 3 .pending 99880,
    statsRow 4 .stale 99820], 4, by decide, by decide, by decide⟩
  jobs := ⟨[⟨1, .embedDocument, embedPayloadJson (3, 1), some 99880, 99880⟩], 1, by decide, by decide, by decide⟩
  searchState := some ⟨1, 768, 0⟩
  vec := none

theorem stats_add_up_five : ∃ snap, (loadEmbeddingStatsSnapshot readingEnv ⟨1, "m", 768, 512, 0, 0⟩ 100000).Ok
      statsStore snap statsStore ∧
    snap = ⟨5, 2, 1, 2, 1, [⟨"md", 4⟩, ⟨"txt", 1⟩], 4, 2, 1, 1⟩ ∧ AddsUp readingEnv statsStore 1 100000 snap := by
  have hload : (loadEmbeddingStatsSnapshot readingEnv ⟨1, "m", 768, 512, 0, 0⟩ 100000 statsStore).result.toOption =
      some ⟨5, 2, 1, 2, 1, [⟨"md", 4⟩, ⟨"txt", 1⟩], 4, 2, 1, 1⟩ := by decide +kernel
  have hok : (loadEmbeddingStatsSnapshot readingEnv ⟨1, "m", 768, 512, 0, 0⟩ 100000).Ok statsStore _ statsStore :=
    ⟨toOption_eq_some.1 hload, rfl⟩
  have hs : Referring statsStore := by
    unfold Referring
    decide
  have hcount : IsI64 statsStore.documents.rows.length := by
    unfold IsI64
    decide
  exact ⟨_, hok, rfl, stats_add_up hs hcount hok⟩

end Ask
