/-
  Ingesting files does to the catalog of the store what `Catalog.ingest` says,
  so that the order of the files matters to the ids only.
-/
import Ask.Catalog

namespace Ask

open Lib

variable {s s' s₁ : Store} {docId docId' id modelId now : ℤ} {doc : Document} {chunks : List ChunkRef}
  {path path' : String}

/-! ## The catalog of a store -/

/-- The document with the id has the path. -/
def Store.PathOf (s : Store) (docId : ℤ) (path : String) : Prop :=
  ∃ d ∈ s.documents.rows, d.id = docId ∧ d.filepath = path

/-- A row without its own id and its document's. -/
def DocumentEmbedding.bare (r : DocumentEmbedding) : DocumentEmbedding :=
  { r with id := 0, documentId := 0 }

/-- The store with paths in place of ids. -/
def Store.catalog (s : Store) : Catalog where
  documents := {d | ∃ d₀ ∈ s.documents.rows, d = { d₀ with id := 0 }}
  rows := {x | ∃ r ∈ s.embeddings.rows, s.PathOf r.documentId x.1 ∧ x.2 = r.bare}
  vectors := {x | ∃ v ∈ s.vecRows, ∃ r ∈ s.embeddings.rows, r.id = v.1 ∧ s.PathOf r.documentId x.1 ∧
    x.2 = (r.modelId, r.chunkType, r.chunkStart, v.2)}
  jobs := {j | ∃ e ∈ s.jobs.rows, ∃ docId, s.PathOf docId j.path ∧
    e.uniqueKey = embedJobKey (docId, j.modelId) ∧ e.claimedAt = j.claimedAt ∧ e.createdAt = j.createdAt}
  others := {e | e ∈ s.jobs.rows ∧
    ∀ docId path m, s.PathOf docId path → e.uniqueKey ≠ embedJobKey (docId, m)}
  models := s.models
  searchState := s.searchState
  dimensions := s.vec.map fun v => v.dimensions

theorem bare_staleOf (r : DocumentEmbedding) : (staleOf r).bare = staleOf r.bare := by
  unfold staleOf DocumentEmbedding.bare
  split_ifs <;> rfl

/-! ## Paths -/

theorem Store.PathOf.path_unique (h : s.PathOf docId path) (h' : s.PathOf docId path') : path = path' := by
  obtain ⟨d, hd, hid, rfl⟩ := h
  obtain ⟨d', hd', hid', rfl⟩ := h'
  rw [AutoTable.eq_of_key hd hd' (hid.trans hid'.symm)]

theorem WellFormed.id_unique (hs : WellFormed s) (h : s.PathOf docId path) (h' : s.PathOf docId' path) :
    docId = docId' := by
  obtain ⟨d, hd, rfl, hpath⟩ := h
  obtain ⟨d', hd', rfl, hpath'⟩ := h'
  rw [hs.paths d hd d' hd' (hpath.trans hpath'.symm)]

theorem Store.PathOf.le_seq (h : s.PathOf docId path) : docId ≤ s.documents.seq := by
  obtain ⟨d, hd, rfl, -⟩ := h
  exact s.documents.le_seq d hd

/-- Every row of a well-formed store is of a document. -/
theorem WellFormed.exists_path (hs : WellFormed s) {r : DocumentEmbedding} (hr : r ∈ s.embeddings.rows) :
    ∃ path, s.PathOf r.documentId path := by
  obtain ⟨⟨d, hd, hid⟩, -⟩ := hasPair_iff.1 (hs.foreignKeys r hr)
  exact ⟨d.filepath, d, hd, hid, rfl⟩

theorem knows_catalog : s.catalog.Knows doc ↔
    ∃ d ∈ s.documents.rows, d.filepath = doc.filepath ∧ d.fileHash = doc.fileHash := by
  constructor
  · rintro ⟨_, ⟨d, hd, rfl⟩, hpath, hhash⟩
    exact ⟨d, hd, hpath, hhash⟩
  · rintro ⟨d, hd, hpath, hhash⟩
    exact ⟨_, ⟨d, hd, rfl⟩, hpath, hhash⟩

namespace Ingested

variable (h : Ingested s doc id modelId chunks now s₁ s')
include h

theorem pathOf : s'.PathOf docId path ↔
    docId = id ∧ path = doc.filepath ∨ docId ≠ id ∧ s.PathOf docId path := by
  unfold Store.PathOf
  simp only [h.documents, h.written.mem]
  constructor
  · rintro ⟨d, rfl | ⟨hd, hid⟩, rfl, rfl⟩
    · exact .inl ⟨rfl, rfl⟩
    · exact .inr ⟨hid, d, hd, rfl, rfl⟩
  · rintro (⟨rfl, rfl⟩ | ⟨hid, d, hd, rfl, rfl⟩)
    · exact ⟨_, .inl rfl, rfl, rfl⟩
    · exact ⟨d, .inr ⟨hd, hid⟩, rfl, rfl⟩

/-- Before the ingest the id and the path belonged to each other, if they belonged to anything. -/
theorem id_iff (hs : WellFormed s) (hp : s.PathOf docId path) : docId = id ↔ path = doc.filepath := by
  obtain ⟨hid, hfree, -⟩ | ⟨⟨d, hd, hid, hpath, -⟩, -⟩ := h.written.case
  · have hle := hp.le_seq
    obtain ⟨d, hd, -, rfl⟩ := hp
    constructor
    · intro heq
      omega
    · exact fun hpath => absurd hpath (hfree d hd)
  · have hold : s.PathOf id doc.filepath := ⟨d, hd, hid, hpath⟩
    constructor
    · rintro rfl
      exact hp.path_unique hold
    · rintro rfl
      exact hs.id_unique hp hold

theorem pathOf_mono (hs : WellFormed s) (hp : s.PathOf docId path) : s'.PathOf docId path := by
  rw [h.pathOf]
  by_cases hid : docId = id
  · exact .inl ⟨hid, (h.id_iff hs hp).1 hid⟩
  · exact .inr ⟨hid, hp⟩

/-- An id that was given out before has the path it had. -/
theorem pathOf_old (hp : s'.PathOf docId path) (hle : docId ≤ s.documents.seq) : s.PathOf docId path := by
  obtain ⟨rfl, rfl⟩ | ⟨-, hp⟩ := h.pathOf.1 hp
  · obtain ⟨hid, -⟩ | ⟨⟨d, hd, hid, hpath, -⟩, -⟩ := h.written.case
    · omega
    · exact ⟨d, hd, hid, hpath⟩
  · exact hp

/-! ## What an ingest does to each part -/

theorem documents_catalog (hs : WellFormed s) :
    s'.catalog.documents = (s.catalog.write modelId now doc chunks).documents := by
  ext d'
  rw [Catalog.mem_documents_write]
  constructor
  · rintro ⟨d, hd, rfl⟩
    rw [h.documents, h.written.mem] at hd
    obtain rfl | ⟨hd, hid⟩ := hd
    · exact .inr rfl
    · exact .inl ⟨⟨d, hd, rfl⟩, fun hpath => hid ((h.id_iff hs ⟨d, hd, rfl, rfl⟩).2 hpath)⟩
  · rintro (⟨⟨d, hd, rfl⟩, hne⟩ | rfl)
    · refine ⟨d, ?_, rfl⟩
      rw [h.documents, h.written.mem]
      exact .inr ⟨hd, fun hid => hne ((h.id_iff hs ⟨d, hd, rfl, rfl⟩).1 hid)⟩
    · refine ⟨{ doc with id := id }, ?_, rfl⟩
      rw [h.documents, h.written.mem]
      exact .inl rfl

theorem vectors_catalog (hs : WellFormed s) (hs' : WellFormed s') :
    s'.catalog.vectors = (s.catalog.write modelId now doc chunks).vectors := by
  ext x
  rw [Catalog.mem_vectors_write]
  constructor
  · rintro ⟨v, hv, r, hr, hid, hp, hx⟩
    have hv₀ := (h.mem_vecRows hs).1 hv
    obtain ⟨r₀, hr₀, hid₀, hst, -⟩ := hs'.of_mem_vecRows hv
    obtain rfl := AutoTable.eq_of_key hr₀ hr (hid₀.trans hid.symm)
    obtain ⟨hr₀, hne⟩ | ⟨r₁, -, -, -, rfl⟩ | ⟨c, -, he, -⟩ := h.mem_embeddings hs.foreignKeys hr
    · obtain ⟨hd, -⟩ | ⟨-, hp⟩ := h.pathOf.1 hp
      · exact absurd hd hne
      · exact ⟨⟨v, hv₀.1, _, hr₀, hid, hp, hx⟩, fun hpath => hne ((h.id_iff hs hp).2 hpath)⟩
    · exact absurd hst (staleOf_state r₁)
    · rw [he] at hst
      cases hst
  · rintro ⟨⟨v, hv, r, hr, hid, hp, hx⟩, hne⟩
    have hd : r.documentId ≠ id := fun hd => hne ((h.id_iff hs hp).1 hd)
    refine ⟨v, (h.mem_vecRows hs).2 ⟨hv, ?_⟩, r, h.frame hs.foreignKeys hr hd, hid,
      h.pathOf_mono hs hp, hx⟩
    intro r' hr' hid'
    rwa [AutoTable.eq_of_key hr' hr (hid'.trans hid.symm)]

theorem dimensions_catalog : s'.catalog.dimensions = s.catalog.dimensions := by
  have hwithout : ∀ (t : Store) p, (t.vecWithout p).map (fun v => v.dimensions) =
      t.vec.map fun v => v.dimensions := by
    intro t p
    rw [Store.vecWithout, Option.map_map]
    rfl
  show s'.vec.map _ = s.vec.map _
  rw [h.vec, hwithout]
  show (s₁.vecWithoutPair id modelId).map _ = _
  rw [hwithout]
  obtain ⟨-, -, -, hvec⟩ | ⟨-, s₀, -, -, hvec, -, -, hvec'⟩ := h.written.case
  · rw [hvec]
  · rw [hvec', hwithout, ← hvec]

end Ingested

/-! ## Rows -/

/-- Of the chunks of a key the last one is stored. -/
theorem last_pending
    (h : (upsertDocumentAndReplacePendingEmbeddings doc modelId chunks now).Ok s (id, true) s')
    {c : ChunkRef} (hc : LastChunk chunks c) :
    ∃ rid, pendingRow id modelId now c rid ∈ s'.embeddings.rows := by
  obtain ⟨s₁, s₂, s₃, n, -, -, h3, h4⟩ := steps_of_upsert_changed h
  obtain ⟨q, rfl, -⟩ := ok_seedEmbedJobs h4
  obtain ⟨l, l', rfl, hlast⟩ := hc
  rw [insertPendingEmbeddings, Tx.ok_bind] at h3
  obtain ⟨_, t, h3, hvec⟩ := h3
  obtain rfl := ok_exec_ok.1 hvec
  obtain ⟨t₁, -, h3⟩ := Tx.ok_each_append.1 h3
  obtain ⟨t₂, hone, hrest⟩ := Tx.ok_each_cons.1 h3
  obtain ⟨-, e, rfl, hins⟩ := ok_insertPendingEmbedding (Db.ok_context.1 hone)
  obtain ⟨-, e', rfl, hins'⟩ := ok_insertPendingRows hrest
  obtain ⟨rid, hrid⟩ := hins.complete (by simp) c List.mem_cons_self
  refine ⟨rid, hins'.frame _ hrid ?_⟩
  intro c' hc' hkey
  exact hlast c' hc' (congrArg Prod.snd hkey).symm

theorem mem_rows_upsert (hs : WellFormed s)
    (h : (upsertDocumentAndReplacePendingEmbeddings doc modelId chunks now).Ok s (id, true) s')
    {r : DocumentEmbedding} (hr : r ∈ s'.embeddings.rows) :
    (r ∈ s.embeddings.rows ∧ r.documentId ≠ id) ∨
    (∃ r₀ ∈ s.embeddings.rows, r₀.documentId = id ∧ r₀.modelId ≠ modelId ∧ r = staleOf r₀) ∨
    ∃ c, LastChunk chunks c ∧ r = pendingRow id modelId now c r.id := by
  obtain ⟨s₁, hi, -⟩ := seededWith_upsert h
  obtain hframe | hstale | ⟨c, hc, he, -⟩ := hi.mem_embeddings hs.foreignKeys hr
  · exact .inl hframe
  · exact .inr (.inl hstale)
  · obtain ⟨c', hc', hkey⟩ := exists_lastChunk hc
    obtain ⟨rid, hrid⟩ := last_pending h hc'
    have hsame : r.uniqueKey = (pendingRow id modelId now c' rid).uniqueKey := by
      rw [he]
      exact congrArg (Prod.mk (id, modelId)) hkey.symm
    obtain rfl := AutoTable.eq_of_index hr hrid hsame
    exact .inr (.inr ⟨c', hc', rfl⟩)

theorem rows_catalog (hs : WellFormed s)
    (h : (upsertDocumentAndReplacePendingEmbeddings doc modelId chunks now).Ok s (id, true) s') :
    s'.catalog.rows = (s.catalog.write modelId now doc chunks).rows := by
  obtain ⟨s₁, hi, -⟩ := seededWith_upsert h
  ext ⟨path, r'⟩
  rw [Catalog.mem_rows_write]
  constructor
  · rintro ⟨r, hr, hp, rfl⟩
    obtain ⟨hr₀, hne⟩ | ⟨r₀, hr₀, hd, hm, rfl⟩ | ⟨c, hc, he⟩ := mem_rows_upsert hs h hr
    · obtain ⟨hd, -⟩ | ⟨-, hp⟩ := hi.pathOf.1 hp
      · exact absurd hd hne
      · exact .inl ⟨⟨r, hr₀, hp, rfl⟩, fun hpath => hne ((hi.id_iff hs hp).2 hpath)⟩
    · rw [staleOf_documentId] at hp
      obtain ⟨path₀, hp₀⟩ := hs.exists_path hr₀
      obtain rfl := hp.path_unique (hi.pathOf_mono hs hp₀)
      exact .inr ⟨(hi.id_iff hs hp₀).1 hd, .inl ⟨r₀.bare, bare_staleOf r₀, ⟨r₀, hr₀, hp₀, rfl⟩, hm⟩⟩
    · rw [he] at hp
      have hnew : s'.PathOf id doc.filepath := hi.pathOf.2 (.inl ⟨rfl, rfl⟩)
      exact .inr ⟨hp.path_unique hnew, .inr ⟨c, hc, by rw [he]; rfl⟩⟩
  · rintro (⟨⟨r, hr, hp, rfl⟩, hne⟩ | ⟨rfl, ⟨_, rfl, ⟨r, hr, hp, rfl⟩, hm⟩ | ⟨c, hc, rfl⟩⟩)
    · exact ⟨r, hi.frame hs.foreignKeys hr fun hd => hne ((hi.id_iff hs hp).1 hd), hi.pathOf_mono hs hp,
        rfl⟩
    · refine ⟨staleOf r, hi.frame_stale hs.foreignKeys hr ((hi.id_iff hs hp).2 rfl) hm, ?_,
        (bare_staleOf r).symm⟩
      rw [staleOf_documentId]
      exact hi.pathOf_mono hs hp
    · obtain ⟨rid, hrid⟩ := last_pending h hc
      exact ⟨_, hrid, hi.pathOf.2 (.inl ⟨rfl, rfl⟩), rfl⟩

/-! ## Jobs -/

/-- The pairs that an ingest seeds for, by document ids: those with work left, those of the document
    and its new one. -/
def Store.AskedFor (s : Store) (id modelId : ℤ) (chunks : List ChunkRef) (p : Pair) : Prop :=
  (∃ r ∈ s.embeddings.rows, r.pair = p ∧ (r.state ≠ .embedded ∨ r.documentId = id)) ∨
    p = (id, modelId) ∧ chunks ≠ []

theorem asked_of_recoverable (hs : WellFormed s) (hi : Ingested s doc id modelId chunks now s₁ s')
    {p : Pair} (hp : p ∈ s'.recoverablePairs) : s.AskedFor id modelId chunks p := by
  obtain ⟨r, hr, rfl, hrec⟩ := Store.mem_recoverablePairs.1 hp
  obtain ⟨hr₀, -⟩ | ⟨r₀, hr₀, hd, -, rfl⟩ | ⟨c, hc, he, -⟩ := hi.mem_embeddings hs.foreignKeys hr
  · exact .inl ⟨r, hr₀, rfl, .inl (recoverable_iff.1 hrec)⟩
  · exact .inl ⟨r₀, hr₀, (staleOf_pair r₀).symm, .inr hd⟩
  · exact .inr ⟨by rw [he]; rfl, List.ne_nil_of_mem hc⟩

/-- Once the document is written, its old pairs have work left like the others. -/
theorem recoverable_written (hs : WellFormed s) (hw : DocumentWritten s doc id s₁) {p : Pair} :
    p ∈ s₁.recoverablePairs ↔
      ∃ r ∈ s.embeddings.rows, r.pair = p ∧ (r.state ≠ .embedded ∨ r.documentId = id) := by
  rw [Store.mem_recoverablePairs]
  constructor
  · rintro ⟨r, hr, rfl, hrec⟩
    obtain ⟨r₀, hr₀, rfl⟩ := (hw.mem_embeddings hs.foreignKeys).1 hr
    split_ifs at hrec ⊢ with hd
    · exact ⟨r₀, hr₀, (staleOf_pair r₀).symm, .inr hd⟩
    · exact ⟨r₀, hr₀, rfl, .inl (recoverable_iff.1 hrec)⟩
  · rintro ⟨r, hr, rfl, hst⟩
    refine ⟨_, (hw.mem_embeddings hs.foreignKeys).2 ⟨r, hr, rfl⟩, by split_ifs <;> simp, ?_⟩
    rw [recoverable_iff]
    split_ifs with hd
    · exact staleOf_state r
    · exact hst.resolve_right hd

/-- The new pair has work left when it has chunks. -/
theorem new_pair_recoverable (hne : chunks ≠ [])
    (h : (upsertDocumentAndReplacePendingEmbeddings doc modelId chunks now).Ok s (id, true) s') :
    (id, modelId) ∈ s'.recoverablePairs := by
  obtain ⟨c₀, hc₀⟩ := List.exists_mem_of_ne_nil chunks hne
  obtain ⟨c, hc, -⟩ := exists_lastChunk hc₀
  obtain ⟨rid, hrid⟩ := last_pending h hc
  exact Store.mem_recoverablePairs.2 ⟨_, hrid, rfl, rfl⟩

theorem exists_seeded_pairs (hs : WellFormed s) (hnow : doc.updatedAt = now)
    (h : (upsertDocumentAndReplacePendingEmbeddings doc modelId chunks now).Ok s (id, true) s') :
    ∃ pairs, SeededWith pairs now s.jobs s'.jobs ∧ ∀ p, p ∈ pairs ↔ s.AskedFor id modelId chunks p := by
  obtain ⟨s₁, hi, hq, hq₁⟩ := seededWith_upsert h
  obtain ⟨hjobs, -, hfree⟩ | hq₁ := hq₁
  · -- a new document has no rows yet
    rw [hjobs] at hq
    refine ⟨_, hq, fun p => ⟨asked_of_recoverable hs hi, ?_⟩⟩
    rintro (⟨r, hr, rfl, hst⟩ | ⟨rfl, hne⟩)
    · have hd : r.documentId ≠ id := by
        intro hd
        obtain ⟨path, hp⟩ := hs.exists_path hr
        obtain rfl := (hi.id_iff hs hp).1 hd
        obtain ⟨d, hd, -, hpath⟩ := hp
        exact hfree d hd hpath
      have hrec := recoverable_iff.2 (hst.resolve_right hd)
      exact Store.mem_recoverablePairs.2 ⟨r, hi.frame hs.foreignKeys hr hd, rfl, hrec⟩
    · exact new_pair_recoverable hne h
  · -- a changed one is seeded for twice: its old pairs first
    rw [hnow] at hq₁
    refine ⟨_, hq₁.append hq, fun p => ?_⟩
    rw [List.mem_append, recoverable_written hs hi.written]
    constructor
    · rintro (hp | hp)
      · exact .inl hp
      · exact asked_of_recoverable hs hi hp
    · rintro (hp | ⟨rfl, hne⟩)
      · exact .inl hp
      · exact .inr (new_pair_recoverable hne h)

/-- The same pairs by path. -/
theorem mem_touched_catalog (hs : WellFormed s) (hs' : WellFormed s')
    (hi : Ingested s doc id modelId chunks now s₁ s') {m : ℤ} (hp : s'.PathOf docId path) :
    (path, m) ∈ s.catalog.touched modelId doc.filepath chunks ↔
      s.AskedFor id modelId chunks (docId, m) := by
  refine or_congr ?_ (and_congr_left fun _ => ?_)
  · constructor
    · rintro ⟨_, ⟨r, hr, hp₀, rfl⟩, rfl, hst⟩
      obtain rfl := hs'.id_unique hp (hi.pathOf_mono hs hp₀)
      exact ⟨r, hr, rfl, hst.imp_right (hi.id_iff hs hp₀).2⟩
    · rintro ⟨r, hr, hpair, hst⟩
      obtain ⟨rfl, rfl⟩ := Prod.mk.inj hpair
      obtain ⟨path₀, hp₀⟩ := hs.exists_path hr
      obtain rfl := hp.path_unique (hi.pathOf_mono hs hp₀)
      exact ⟨r.bare, ⟨r, hr, hp₀, rfl⟩, rfl, hst.imp_right (hi.id_iff hs hp₀).1⟩
  · have hnew : s'.PathOf id doc.filepath := hi.pathOf.2 (.inl ⟨rfl, rfl⟩)
    rw [Prod.mk.injEq, Prod.mk.injEq]
    refine and_congr_left fun _ => ⟨?_, ?_⟩
    · rintro rfl
      exact hs'.id_unique hp hnew
    · rintro rfl
      exact hp.path_unique hnew

/-- A queued job by its document's path. -/
def JobQueueEntry.pathJob (e : JobQueueEntry) (path : String) (m : ℤ) : PathJob :=
  ⟨path, m, e.claimedAt, e.createdAt⟩

theorem mem_jobs_catalog {j : PathJob} : j ∈ s.catalog.jobs ↔ ∃ e ∈ s.jobs.rows, ∃ docId,
    s.PathOf docId j.path ∧ e.uniqueKey = embedJobKey (docId, j.modelId) ∧
      j = e.pathJob j.path j.modelId := by
  obtain ⟨path, m, claimedAt, createdAt⟩ := j
  simp only [Store.catalog, Set.mem_ofPred_eq, JobQueueEntry.pathJob, PathJob.mk.injEq, true_and,
    eq_comm]

/-- Renewing a job is what seeding by path does to it. -/
theorem pathJob_renewed {e : JobQueueEntry} {pairs : List Pair} {P : Set (String × ℤ)} {m : ℤ}
    (hkey : e.uniqueKey = embedJobKey (docId, m)) (hP : (path, m) ∈ P ↔ (docId, m) ∈ pairs) :
    (e.renewed pairs now).pathJob path m = (pathSeeder now).touch P (e.pathJob path m) := by
  have hmem : e.uniqueKey ∈ pairs.map embedJobKey ↔ (docId, m) ∈ pairs := by
    rw [hkey, List.mem_map_of_injective embedJobKey_injective]
  by_cases hp : (docId, m) ∈ pairs
  · rw [Seeder.touch_of_mem (S := pathSeeder now) (hP.2 hp)]
    by_cases hold : e.claimedBefore (now - staleJobAgeSecs) = true
    · rw [JobQueueEntry.renewed, if_pos ⟨hmem.2 hp, hold⟩]
      exact (if_pos hold).symm
    · rw [JobQueueEntry.renewed, if_neg fun h => hold h.2]
      exact (if_neg hold).symm
  · rw [Seeder.touch_of_notMem (S := pathSeeder now) fun h => hp (hP.1 h),
      JobQueueEntry.renewed_of_not_mem fun h => hp (hmem.1 h)]

/-- A path that is asked for is a document's. -/
theorem exists_path_of_touched (hs : WellFormed s) (hi : Ingested s doc id modelId chunks now s₁ s')
    {k : String × ℤ} (hk : k ∈ s.catalog.touched modelId doc.filepath chunks) :
    ∃ docId, s'.PathOf docId k.1 := by
  obtain ⟨_, ⟨r, -, hp, -⟩, -⟩ | ⟨rfl, -⟩ := hk
  · exact ⟨r.documentId, hi.pathOf_mono hs hp⟩
  · exact ⟨id, hi.pathOf.2 (.inl ⟨rfl, rfl⟩)⟩

/-- The document of a job had its path before. -/
theorem pathOf_of_job (hs : WellFormed s) (hi : Ingested s doc id modelId chunks now s₁ s')
    {e : JobQueueEntry} {m : ℤ} (he : e ∈ s.jobs.rows) (hkey : e.uniqueKey = embedJobKey (docId, m))
    (hp : s'.PathOf docId path) : s.PathOf docId path := by
  obtain ⟨p, hpay, hle⟩ := hs.payloads e he (congrArg Prod.fst hkey)
  obtain rfl := embedPayloadJson_injective (hpay.symm.trans (congrArg Prod.snd hkey))
  exact hi.pathOf_old hp hle

theorem pathJob_mem_catalog (hs : WellFormed s) (hi : Ingested s doc id modelId chunks now s₁ s')
    {e : JobQueueEntry} {m : ℤ} (he : e ∈ s.jobs.rows) (hkey : e.uniqueKey = embedJobKey (docId, m))
    (hp : s'.PathOf docId path) : e.pathJob path m ∈ s.catalog.jobs :=
  mem_jobs_catalog.2 ⟨e, he, docId, pathOf_of_job hs hi he hkey hp, hkey, rfl⟩

theorem jobs_catalog (hs : WellFormed s) (hs' : WellFormed s') (hnow : doc.updatedAt = now)
    (h : (upsertDocumentAndReplacePendingEmbeddings doc modelId chunks now).Ok s (id, true) s') :
    s'.catalog.jobs = (s.catalog.write modelId now doc chunks).jobs := by
  obtain ⟨s₁, hi, -⟩ := seededWith_upsert h
  obtain ⟨pairs, hq, hpairs⟩ := exists_seeded_pairs hs hnow h
  have htouched : ∀ {docId path m}, s'.PathOf docId path →
      ((path, m) ∈ s.catalog.touched modelId doc.filepath chunks ↔ (docId, m) ∈ pairs) :=
    fun hp => (mem_touched_catalog hs hs' hi hp).trans (hpairs _).symm
  ext j
  rw [mem_jobs_catalog]
  constructor
  · rintro ⟨e, he, docId, hp, hkey, hj⟩
    obtain ⟨e₀, he₀, rfl⟩ | ⟨-, p, hpp, hnew, hfree⟩ := hq.sound e he
    · rw [JobQueueEntry.renewed_uniqueKey] at hkey
      exact .inl ⟨e₀.pathJob j.path j.modelId, pathJob_mem_catalog hs hi he₀ hkey hp,
        hj.trans (pathJob_renewed hkey (htouched hp))⟩
    · have hkey' : embedJobKey p = embedJobKey (docId, j.modelId) := by
        rw [← hkey, hnew]
        rfl
      obtain rfl := embedJobKey_injective hkey'
      refine .inr ⟨(j.path, j.modelId), (htouched hp).2 hpp, ?_, ?_⟩
      · rw [hj, hnew]
        rfl
      · intro j₀ hj₀ hsame
        obtain ⟨e₀, he₀, docId₀, hp₀, hkey₀, -⟩ := mem_jobs_catalog.1 hj₀
        obtain ⟨hpath, hmodel⟩ := Prod.mk.inj hsame
        rw [hpath] at hp₀
        rw [hmodel, hs'.id_unique (hi.pathOf_mono hs hp₀) hp] at hkey₀
        exact hfree e₀ he₀ hkey₀
  · rintro (⟨j₀, hj₀, rfl⟩ | ⟨⟨path, m⟩, hk, rfl, hfree⟩)
    · obtain ⟨e₀, he₀, docId, hp, hkey, hj⟩ := mem_jobs_catalog.1 hj₀
      have hp' := hi.pathOf_mono hs hp
      have htouch : (pathSeeder now).touch (s.catalog.touched modelId doc.filepath chunks) j₀ =
          (e₀.renewed pairs now).pathJob j₀.path j₀.modelId :=
        (congrArg _ hj).trans (pathJob_renewed hkey (htouched hp')).symm
      rw [htouch]
      exact ⟨_, hq.kept e₀ he₀, docId, hp', JobQueueEntry.renewed_uniqueKey.trans hkey, rfl⟩
    · obtain ⟨docId, hp⟩ := exists_path_of_touched hs hi hk
      obtain ⟨e, he, hkey⟩ := hq.queued _ ((htouched hp).1 hk)
      refine ⟨e, he, docId, hp, hkey, ?_⟩
      obtain ⟨e₀, he₀, rfl⟩ | ⟨-, p, -, hnew, -⟩ := hq.sound e he
      · rw [JobQueueEntry.renewed_uniqueKey] at hkey
        exact absurd rfl (hfree _ (pathJob_mem_catalog hs hi he₀ hkey hp))
      · rw [hnew]
        rfl

theorem others_catalog (hs : WellFormed s) (hnow : doc.updatedAt = now)
    (h : (upsertDocumentAndReplacePendingEmbeddings doc modelId chunks now).Ok s (id, true) s') :
    s'.catalog.others = s.catalog.others := by
  obtain ⟨s₁, hi, -⟩ := seededWith_upsert h
  obtain ⟨pairs, hq, hpairs⟩ := exists_seeded_pairs hs hnow h
  have hpath : ∀ p ∈ pairs, ∃ path, s'.PathOf p.1 path := by
    intro p hp
    obtain ⟨r, hr, rfl, -⟩ | ⟨rfl, -⟩ := (hpairs p).1 hp
    · obtain ⟨path, hp⟩ := hs.exists_path hr
      exact ⟨path, hi.pathOf_mono hs hp⟩
    · exact ⟨doc.filepath, hi.pathOf.2 (.inl ⟨rfl, rfl⟩)⟩
  have hfree : ∀ {e : JobQueueEntry},
      (∀ docId path m, s'.PathOf docId path → e.uniqueKey ≠ embedJobKey (docId, m)) →
        e.uniqueKey ∉ pairs.map embedJobKey := by
    intro e hother hmem
    obtain ⟨p, hpp, hkey⟩ := List.mem_map.1 hmem
    obtain ⟨path, hp⟩ := hpath p hpp
    exact hother p.1 path p.2 hp hkey.symm
  ext e
  constructor
  · rintro ⟨he, hother⟩
    obtain ⟨e₀, he₀, rfl⟩ | ⟨-, p, hpp, hnew, -⟩ := hq.sound e he
    · simp only [JobQueueEntry.renewed_uniqueKey] at hother
      rw [JobQueueEntry.renewed_of_not_mem (hfree hother)]
      exact ⟨he₀, fun docId path m hp => hother docId path m (hi.pathOf_mono hs hp)⟩
    · obtain ⟨path, hp⟩ := hpath p hpp
      refine absurd ?_ (hother p.1 path p.2 hp)
      rw [hnew]
      rfl
  · rintro ⟨he, hother⟩
    have hother' : ∀ docId path m, s'.PathOf docId path → e.uniqueKey ≠ embedJobKey (docId, m) :=
      fun docId path m hp hkey => hother docId path m (pathOf_of_job hs hi he hkey hp) hkey
    have hkept := hq.kept e he
    rw [JobQueueEntry.renewed_of_not_mem (hfree hother')] at hkept
    exact ⟨hkept, hother'⟩

/-- **An ingest does to the catalog what it should.** -/
theorem catalog_upsert {changed : Bool} (hs : WellFormed s) (hnow : doc.updatedAt = now)
    (h : (upsertDocumentAndReplacePendingEmbeddings doc modelId chunks now).Ok s (id, changed) s') :
    s'.catalog = s.catalog.ingest modelId now (doc, chunks) := by
  cases changed with
  | false =>
    obtain ⟨rfl, d, hd, -, hpath, hhash⟩ := ok_upsert_unchanged h
    exact (Catalog.ingest_of_knows (knows_catalog.2 ⟨d, hd, hpath, hhash⟩)).symm
  | true =>
    obtain ⟨s₁, hi, -⟩ := seededWith_upsert h
    have hs' := wellFormed_upsert h hs
    have hunknown : ¬s.catalog.Knows doc := by
      rw [knows_catalog]
      rintro ⟨d, hd, hpath, hhash⟩
      obtain ⟨-, hfree, -⟩ | ⟨⟨d₀, hd₀, -, hpath₀, hne⟩, -⟩ := hi.written.case
      · exact hfree d hd hpath
      · rw [hs.paths d hd d₀ hd₀ (hpath.trans hpath₀.symm)] at hhash
        exact hne hhash
    rw [Catalog.ingest_of_not_knows hunknown]
    exact Catalog.ext (hi.documents_catalog hs) (rows_catalog hs h) (hi.vectors_catalog hs hs')
      (jobs_catalog hs hs' hnow h) (others_catalog hs hnow h) hi.models hi.searchState
      hi.dimensions_catalog

/-! ## Ingests succeed -/

theorem succeeds_exec_ok {f : Store → Store} {s : Store} :
    Tx.Succeeds (Tx.exec fun s => .ok ((), f s) : Db Unit) s := ⟨(), f s, ok_exec_ok.2 rfl⟩

theorem succeeds_markDocumentsStaleInQueueTime (docIds : List ℤ) (s : Store) :
    Tx.Succeeds (markDocumentsStaleInQueueTime docIds now) s := by
  rw [markDocumentsStaleInQueueTime_eq]
  split_ifs
  · exact Tx.succeeds_pure
  · refine Tx.succeeds_bind succeeds_exec_ok fun _ s₁ _ => ?_
    refine Tx.succeeds_bind succeeds_exec_ok fun _ s₂ _ => ?_
    exact Tx.succeeds_bind (succeeds_seedEmbedJobs s₂) fun _ _ _ => Tx.succeeds_pure

theorem succeeds_insertDocument (doc : Document) (s : Store) : Tx.Succeeds (insertDocument doc) s := by
  cases hins : s.documents.insert fun id => { doc with id := id } with
  | some documents =>
    exact ⟨documents.seq, { s with documents := documents }, by rw [insertDocument, Tx.ok_exec, hins]⟩
  | none =>
    obtain ⟨d, hd, hid⟩ := AutoTable.insert_eq_none.1 hins
    have := s.documents.le_seq d hd
    dsimp only at hid
    omega

theorem succeeds_upsertDocumentInTx (doc : Document) (s : Store) :
    Tx.Succeeds (upsertDocumentInTx doc) s := by
  unfold upsertDocumentInTx
  refine Tx.succeeds_bind ⟨_, s, rfl, rfl⟩ fun found s₁ _ => ?_
  cases found with
  | some d =>
    dsimp only
    split_ifs
    · exact Tx.succeeds_pure
    · refine Tx.succeeds_bind succeeds_exec_ok fun _ s₂ _ => ?_
      refine Tx.succeeds_bind (succeeds_markDocumentsStaleInQueueTime _ s₂) fun _ _ _ => ?_
      exact Tx.succeeds_pure
  | none => exact Tx.succeeds_bind (succeeds_insertDocument doc s₁) fun _ _ _ => Tx.succeeds_pure

theorem succeeds_insertPendingEmbedding {c : ChunkRef} (hpair : s.hasPair docId modelId = true) :
    Tx.Succeeds (insertPendingEmbedding docId modelId c now) s := by
  cases hins : s.embeddings.insert (pendingRow docId modelId now c) with
  | some e =>
    exact ⟨(), { s with embeddings := e }, by rw [insertPendingEmbedding, Tx.ok_exec, if_pos hpair, hins]⟩
  | none => exact ⟨(), _, by rw [insertPendingEmbedding, Tx.ok_exec, if_pos hpair, hins]⟩

theorem succeeds_insertPendingEmbeddings (hpair : s.hasPair docId modelId = true) :
    Tx.Succeeds (insertPendingEmbeddings docId modelId chunks now) s := by
  refine Tx.succeeds_bind (Tx.succeeds_each (I := fun t => t.hasPair docId modelId = true) ?_ hpair)
    fun _ _ _ => succeeds_exec_ok
  intro c _ t ht
  refine ⟨Tx.succeeds_mapError (succeeds_insertPendingEmbedding ht), ?_⟩
  intro t' hok
  obtain ⟨-, e, rfl, -⟩ := ok_insertPendingEmbedding (Db.ok_context.1 hok)
  exact ht

/-- With a registered model an ingest does not fail. -/
theorem succeeds_upsert (hmodel : ∃ m ∈ s.models.rows, m.id = modelId) :
    Tx.Succeeds (upsertDocumentAndReplacePendingEmbeddings doc modelId chunks now) s := by
  rw [upsertDocumentAndReplacePendingEmbeddings_eq]
  refine Tx.succeeds_transaction (Tx.succeeds_bind (succeeds_upsertDocumentInTx doc s) ?_)
  rintro ⟨id, changed⟩ s₁ h₁
  cases changed with
  | false => exact Tx.succeeds_pure
  | true =>
    obtain ⟨hcon, -⟩ | ⟨-, hw⟩ := ok_upsertDocumentInTx h₁
    · cases hcon
    have hpair : s₁.hasPair id modelId = true := by
      refine hasPair_iff.2 ⟨⟨_, (hw.mem _).2 (.inl rfl), rfl⟩, ?_⟩
      rwa [hw.models]
    refine Tx.succeeds_bind (Tx.succeeds_bind succeeds_exec_ok fun _ _ _ => succeeds_exec_ok) ?_
    intro _ s₂ h₂
    obtain ⟨_, s₀, hvec, hrows⟩ := Tx.ok_bind.1 h₂
    obtain rfl := ok_exec_ok.1 hvec
    obtain rfl := ok_exec_ok.1 hrows
    refine Tx.succeeds_bind (succeeds_insertPendingEmbeddings hpair) fun _ s₃ _ => ?_
    exact Tx.succeeds_bind (succeeds_seedEmbedJobs s₃) fun _ _ _ => Tx.succeeds_pure

/-! ## Any order -/

/-- Ingest the files one after the other. -/
def ingestAll (modelId now : ℤ) (files : List (Document × List ChunkRef)) : Db Unit :=
  Tx.each (fun file => do
    let _ ← upsertDocumentAndReplacePendingEmbeddings file.1 modelId file.2 now
    pure ()) files

variable {files files' : List (Document × List ChunkRef)}

theorem ok_ingestFile {file : Document × List ChunkRef} {u : Unit} (h : Tx.Ok (do
      let _ ← upsertDocumentAndReplacePendingEmbeddings file.1 modelId file.2 now
      pure () : Db Unit) s u s') :
    ∃ id changed, (upsertDocumentAndReplacePendingEmbeddings file.1 modelId file.2 now).Ok s
      (id, changed) s' := by
  obtain ⟨⟨id, changed⟩, s₁, h₁, h₂⟩ := Tx.ok_bind.1 h
  obtain ⟨-, rfl⟩ := Tx.ok_pure.1 h₂
  exact ⟨id, changed, h₁⟩

theorem models_upsert {changed : Bool}
    (h : (upsertDocumentAndReplacePendingEmbeddings doc modelId chunks now).Ok s (id, changed) s') :
    s'.models = s.models := by
  obtain ⟨-, rfl, -⟩ | ⟨-, s₁, hi⟩ := ok_upsertDocumentAndReplacePendingEmbeddings h
  · rfl
  · exact hi.models

theorem succeeds_ingestAll (hmodel : ∃ m ∈ s.models.rows, m.id = modelId) :
    Tx.Succeeds (ingestAll modelId now files) s := by
  refine Tx.succeeds_each (I := fun t => ∃ m ∈ t.models.rows, m.id = modelId) ?_ hmodel
  intro file _ t ht
  refine ⟨Tx.succeeds_bind (succeeds_upsert ht) fun _ _ _ => Tx.succeeds_pure, ?_⟩
  intro t' hok
  obtain ⟨id, changed, hok⟩ := ok_ingestFile hok
  rwa [models_upsert hok]

/-- A whole run of ingests, by its files. -/
theorem catalog_ingestAll (hs : WellFormed s) (hnow : ∀ file ∈ files, file.1.updatedAt = now) {u : Unit}
    (h : (ingestAll modelId now files).Ok s u s') :
    s'.catalog = files.foldl (fun c file => c.ingest modelId now file) s.catalog := by
  induction files generalizing s with
  | nil =>
    obtain rfl := Tx.ok_each_nil.1 h
    rfl
  | cons file files ih =>
    obtain ⟨s₁, h₁, h₂⟩ := Tx.ok_each_cons.1 h
    obtain ⟨id, changed, h₁⟩ := ok_ingestFile h₁
    rw [List.foldl_cons, ← catalog_upsert hs (hnow file List.mem_cons_self) h₁]
    exact ih (wellFormed_upsert h₁ hs) (fun f hf => hnow f (List.mem_cons_of_mem file hf)) h₂

/-- **The order of files does not matter**: with a registered model and files of different paths, the
    ingests succeed in any order, and the stores they leave are the same up to ids. -/
theorem ingest_order (hs : WellFormed s) (hmodel : ∃ m ∈ s.models.rows, m.id = modelId)
    (hpaths : (files.map fun file => file.1.filepath).Nodup)
    (hnow : ∀ file ∈ files, file.1.updatedAt = now) (hperm : files.Perm files') :
    ∃ s₁ s₂, (ingestAll modelId now files).Ok s () s₁ ∧ (ingestAll modelId now files').Ok s () s₂ ∧
      s₁.catalog = s₂.catalog := by
  have hsucc : ∀ files, Tx.Succeeds (ingestAll modelId now files) s := fun _ => succeeds_ingestAll hmodel
  obtain ⟨_, s₁, h₁⟩ := hsucc files
  obtain ⟨_, s₂, h₂⟩ := hsucc files'
  refine ⟨s₁, s₂, h₁, h₂, ?_⟩
  rw [catalog_ingestAll hs hnow h₁,
    catalog_ingestAll hs (fun file hf => hnow file (hperm.mem_iff.2 hf)) h₂]
  exact Catalog.foldl_ingest hperm hpaths s.catalog

/-- A file that changed and two new ones, in one order and in the other. -/
theorem sample_ingest_order : ∃ s, Run (StoreStep sampleEnv) .empty sampleCalls s ∧
    ∃ s₁ s₂, (ingestAll 1 9 [({ sampleDocument with fileHash := "h2", updatedAt := 9 }, [(.content, 0, 3)]),
        ({ sampleDocument with filepath := "/b", updatedAt := 9 }, [(.filename, 0, 0)]),
        ({ sampleDocument with filepath := "/c", updatedAt := 9 }, [])]).Ok s () s₁ ∧
      (ingestAll 1 9 [({ sampleDocument with filepath := "/c", updatedAt := 9 }, []),
        ({ sampleDocument with filepath := "/b", updatedAt := 9 }, [(.filename, 0, 0)]),
        ({ sampleDocument with fileHash := "h2", updatedAt := 9 }, [(.content, 0, 3)])]).Ok s () s₂ ∧
      s₁.catalog = s₂.catalog := by
  have hplay : ((callStores sampleEnv sampleCalls .empty).any fun s =>
      s.models.rows.any fun m => decide (m.id = 1)) = true := by
    decide +kernel
  obtain ⟨s, hs, hplay⟩ := (Option.any_eq_true _ _).1 hplay
  obtain ⟨m, hm, hid⟩ := List.any_eq_true.1 hplay
  have hrun := run_of_callStores hs
  refine ⟨s, hrun, ingest_order (wellFormed_run hrun) ⟨m, hm, of_decide_eq_true hid⟩ ?_ ?_ ?_⟩
  · decide
  · simp
  · exact (List.reverse_perm _).symm

end Ask
