/-
  What the dispatch of one embed job does to the store where nothing fails,
  and that it leaves less to do.
-/
import Ask.Reliable
import Ask.SpanLaw

namespace Ask

open Lib Task

variable {E : Env} {view : View} {vector : EmbeddingModel → Bytes → Vector32} {s s' t : Store}
  {file : Bytes} {d : Document} {m : EmbeddingModel} {docId jobId modelId now : ℤ} {w w' : World}
  {entry : JobQueueEntry}

/-! ## What a dispatch does -/

/-- What the dispatch of a pair's job does to the store: the document is gone, its file is gone, is
    another one, or is the one recorded, and then its rows are listed and embedded. -/
inductive DispatchOutcome (E : Env) (view : View) (vector : EmbeddingModel → Bytes → Vector32) (m : EmbeddingModel)
    (jobId docId : ℤ) (s : Store) : Store → Prop
  | gone : (∀ d ∈ s.documents.rows, d.id ≠ docId) →
      DispatchOutcome E view vector m jobId docId s { s with jobs := completeJob s.jobs jobId }
  | deleted {d : Document} {s₁ : Store} : d ∈ s.documents.rows → d.id = docId → view d.filepath = none →
      (deleteDocument docId).Ok s () s₁ →
      DispatchOutcome E view vector m jobId docId s { s₁ with jobs := completeJob s₁.jobs jobId }
  | replanned {d doc : Document} {file : Bytes} {now : ℤ} {s₁ : Store} :
      d ∈ s.documents.rows → d.id = docId → view d.filepath = some file → E.hash file ≠ d.fileHash →
      doc.filepath = d.filepath → doc.fileHash = E.hash file → doc.updatedAt = now →
      (upsertDocumentAndReplacePendingEmbeddings doc m.id (planRefs E file m) now).Ok
        { s with jobs := completeJob s.jobs jobId } (docId, true) s₁ →
      DispatchOutcome E view vector m jobId docId s { s₁ with jobs := completeJob s₁.jobs jobId }
  | idle {d : Document} {file : Bytes} : d ∈ s.documents.rows → d.id = docId →
      view d.filepath = some file → E.hash file = d.fileHash →
      (∀ r ∈ s.embeddings.rows, r.pair = (docId, m.id) → r.state = .embedded) →
      DispatchOutcome E view vector m jobId docId s { s with jobs := completeJob s.jobs jobId }
  | embedded {d : Document} {file : Bytes} {ec : List EmbeddedChunk} {now : ℤ} {s₁ : Store} :
      d ∈ s.documents.rows → d.id = docId → view d.filepath = some file → E.hash file = d.fileHash →
      (∃ r ∈ s.embeddings.rows, r.pair = (docId, m.id) ∧ r.state ≠ .embedded) →
      (∀ c, c ∈ ec.map (·.ref) ↔
        ∃ r ∈ s.embeddings.rows, (r.pair = (docId, m.id) ∧ r.state ≠ .embedded) ∧ r.ref = c) →
      (∀ c ∈ ec, c.embedding = serializeEmbedding (vector m (chunkInput d.filepath file c.ref))) →
      Replaced s docId m.id ec now s₁ →
      DispatchOutcome E view vector m jobId docId s { s₁ with jobs := completeJob s₁.jobs jobId }

theorem completeJob_completeJob (q : JobQueue) : completeJob (completeJob q jobId) jobId = completeJob q jobId := by
  refine AutoTable.ext ?_ rfl
  simp [completeJob, AutoTable.delete]

/-- With the recorded hash the handler lists the rows, and goes on when there are some. -/
theorem done_embedFile_listed (hfile : view d.filepath = some file) (hhash : E.hash file = d.fileHash)
    (h : Done (Reliable view vector) (embedFile E entry d m) w () w') :
    ∃ rows, (∀ r, r ∈ rows ↔ r ∈ w.store.embeddings.rows ∧ r.pair = (d.id, m.id) ∧ r.state ≠ .embedded) ∧
      (rows = [] ∧ w'.store = w.store ∨ rows ≠ [] ∧ ∃ w₁, w₁.store = w.store ∧
        Done (Reliable view vector) (embedRows d m rows) w₁ () w') := by
  unfold embedFile at h
  obtain ⟨currentHash, w₁, hcurrent, h1⟩ := done_bind.1 h
  obtain ⟨hs₁, file', hfile', rfl⟩ := done_hashFile And.left (done_context.1 hcurrent)
  obtain rfl := Option.some.inj (hfile.symm.trans hfile')
  rw [if_neg (not_not.2 hhash)] at h1
  obtain ⟨_, w₂, hconn, h2⟩ := done_bind.1 h1
  obtain rfl := done_connect And.left (done_context.1 hconn)
  obtain ⟨rows, w₃, hlist, h3⟩ := done_bind.1 h2
  obtain ⟨hs₃, hmem⟩ := ok_listRecoverableEmbeddingsForModel (done_db And.left hlist)
  rw [hs₁] at hs₃ hmem
  refine ⟨rows, hmem, ?_⟩
  split_ifs at h3 with hnil
  · obtain ⟨-, rfl⟩ := done_pure.1 h3
    exact .inl ⟨hnil, hs₃⟩
  · exact .inr ⟨hnil, w₃, hs₃, h3⟩

/-- A handler whose file is gone deletes the document. -/
theorem ok_of_done_gone (hdecode : E.decodeEmbedPayload entry.payload = .ok ⟨d.id, m.id⟩)
    (hd : d ∈ w.store.documents.rows) (hm : m ∈ w.store.models.rows) (hnone : view d.filepath = none)
    (h : Done (Reliable view vector) (embedDocumentProcess E ⟨entry, modelId⟩) w () w') :
    (deleteDocument d.id).Ok w.store () w'.store := by
  obtain ⟨hfound, -⟩ | ⟨d', hd', hid, w₁, hs₁, h1⟩ := done_loaded And.left hdecode hm h
  · rw [AutoTable.get?_eq_some.2 ⟨hd, rfl⟩] at hfound
    cases hfound
  obtain rfl := AutoTable.eq_of_key hd' hd hid
  obtain ⟨answer, w₂, hmeta, h2⟩ := done_bind.1 h1
  obtain ⟨⟨rfl, -⟩, hobliging⟩ := done_ask.1 hmeta
  obtain ⟨e, rfl, hnot⟩ := hobliging hnone
  dsimp only at h2
  rw [if_pos hnot] at h2
  obtain ⟨_, w₃, hconn, h3⟩ := done_bind.1 h2
  obtain rfl := done_connect And.left (done_context.1 hconn)
  rw [← hs₁]
  exact done_db And.left (done_context.1 h3)

/-- The outcomes of a dispatch that works. -/
theorem done_outcome (hs : WellFormed w.store) (hty : entry.jobType = .embedDocument)
    (hdecode : E.decodeEmbedPayload entry.payload = .ok ⟨docId, m.id⟩) (hm : m ∈ w.store.models.rows)
    (h : Done (Reliable view vector) (dispatchJob E entry modelId) w () w') :
    DispatchOutcome E view vector m entry.id docId w.store w'.store := by
  obtain ⟨w₁, hprocess, hend⟩ := done_dispatchJob And.left hty h
  rw [hend]
  obtain ⟨hfound, hcompleted⟩ | ⟨d, hd, rfl, -⟩ := done_loaded And.left hdecode hm hprocess
  · have hnone : ∀ d ∈ w.store.documents.rows, d.id ≠ docId := by
      intro d hd hid
      rw [AutoTable.get?_eq_some.2 ⟨hd, hid⟩] at hfound
      cases hfound
    rw [hcompleted, completeJob_completeJob]
    exact .gone hnone
  cases hfile : view d.filepath with
  | none => exact .deleted hd rfl hfile (ok_of_done_gone hdecode hd hm hfile hprocess)
  | some file =>
    obtain ⟨w₂, hs₂, hembed⟩ := done_embedDocumentProcess And.left hdecode hd hm hfile hprocess
    by_cases hhash : E.hash file = d.fileHash
    · obtain ⟨rows, hmem, hcase⟩ := done_embedFile_listed hfile hhash hembed
      rw [hs₂] at hmem hcase
      obtain ⟨rfl, hsame⟩ | ⟨hne, w₃, hs₃, hrows⟩ := hcase
      · rw [hsame]
        refine .idle hd rfl hfile hhash fun r hr hp => ?_
        by_contra hst
        exact absurd ((hmem r).2 ⟨hr, hp, hst⟩) List.not_mem_nil
      · obtain ⟨prepared, now, hprepared, hok⟩ := done_embedRows And.left E (fun h => h.2.embedsEach)
          hfile hrows
        rw [hs₃] at hok
        obtain ⟨r, hr⟩ := List.exists_mem_of_ne_nil rows hne
        refine .embedded hd rfl hfile hhash ⟨r, (hmem r).1 hr⟩ ?_ ?_
          (ok_replaceEmbeddingsForDocumentModel hok)
        · intro c
          rw [refs_embeddedChunks (List.length_map _), refs_prepareEmbeddedChunks hprepared]
          simp only [List.mem_map, hmem, and_assoc]
        · exact fun c hc => vector_of_mem_embeddedChunks (input_of_prepared hprepared) hc
    · obtain ⟨now, _, _, _, ⟨id, changed⟩, hok⟩ := done_embedFile_replan And.left hfile hhash hembed
      rw [hs₂] at hok
      cases changed with
      | false =>
        obtain ⟨-, d', hd', -, hpath, hsame⟩ := ok_upsert_unchanged hok
        rw [hs.paths d' hd' d hd hpath] at hsame
        exact absurd hsame.symm hhash
      | true =>
        obtain ⟨_, hi, -⟩ := seededWith_upsert hok
        obtain rfl := hi.written.id_eq hs.paths hd rfl
        refine .replanned hd rfl hfile hhash ?_ ?_ ?_ hok
        · rfl
        · rfl
        · rfl

/-! ## The queue -/

/-- What the rows of a queue ask for. -/
def asked (q : JobQueue) : List (JobType × String) := q.rows.map JobQueueEntry.uniqueKey

theorem mem_asked {q : JobQueue} {k : JobType × String} : k ∈ asked q ↔ ∃ e ∈ q.rows, e.uniqueKey = k :=
  List.mem_map

theorem nodup_asked (q : JobQueue) : (asked q).Nodup := List.pairwise_map.2 q.unique

theorem mem_asked_completeJob {q : JobQueue} {e : JobQueueEntry} (he : e ∈ q.rows) {k : JobType × String} :
    k ∈ asked (completeJob q e.id) ↔ k ∈ asked q ∧ k ≠ e.uniqueKey := by
  rw [mem_asked, mem_asked]
  constructor
  · rintro ⟨e', he', rfl⟩
    obtain ⟨he', hid⟩ := mem_completeJob.1 he'
    refine ⟨⟨e', he', rfl⟩, fun hkey => hid ?_⟩
    rw [AutoTable.eq_of_index he' he hkey]
  · rintro ⟨⟨e', he', rfl⟩, hne⟩
    refine ⟨e', mem_completeJob.2 ⟨he', fun hid => hne ?_⟩, rfl⟩
    rw [AutoTable.eq_of_key he' he hid]

theorem asked_claimJob (q : JobQueue) (now : ℤ) {k : JobType × String} :
    k ∈ asked (claimJob q now).2 ↔ k ∈ asked q := by
  rw [mem_asked, mem_asked]
  constructor
  · rintro ⟨e, he, rfl⟩
    obtain ⟨e₀, he₀, -, hkey⟩ := exists_mem_of_mem_claimJob he
    exact ⟨e₀, he₀, hkey⟩
  · rintro ⟨e, he, rfl⟩
    obtain ⟨e', he', -, hkey⟩ := @exists_mem_claimJob_of_mem _ now e he
    exact ⟨e', he', hkey⟩

/-- The row that a claim hands out is in the queue. -/
theorem mem_of_claim {q : JobQueue} (h : (claimJob q now).1 = some entry) : entry ∈ (claimJob q now).2.rows := by
  obtain ⟨hnone, -⟩ | ⟨e₀, he₀, -, -, hsome, hrows, -⟩ := claimJob_cases q now
  · rw [hnone] at h
    cases h
  · obtain rfl := Option.some.inj (hsome.symm.trans h)
    rw [hrows]
    exact List.mem_map.2 ⟨e₀, he₀, if_pos rfl⟩

theorem asked_of_seededWith {pairs : List Pair} {q q' : JobQueue} (h : SeededWith pairs now q q')
    {k : JobType × String} (hk : k ∈ asked q') : k ∈ asked q ∨ ∃ p ∈ pairs, k = embedJobKey p := by
  obtain ⟨e, he, rfl⟩ := mem_asked.1 hk
  obtain ⟨e₀, he₀, rfl⟩ | ⟨-, p, hp, hnew, -⟩ := h.sound e he
  · exact .inl (mem_asked.2 ⟨e₀, he₀, JobQueueEntry.renewed_uniqueKey.symm⟩)
  · refine .inr ⟨p, hp, ?_⟩
    rw [hnew]
    rfl

/-- An ingest asks for the pairs it seeds, and for nothing else that was not asked for. -/
theorem asked_of_upsert {doc : Document} {id : ℤ} {chunks : List ChunkRef} (hs : WellFormed s)
    (h : (upsertDocumentAndReplacePendingEmbeddings doc m.id chunks now).Ok s (id, true) s')
    {k : JobType × String} (hk : k ∈ asked s'.jobs) :
    k ∈ asked s.jobs ∨ ∃ p, s.AskedFor id m.id chunks p ∧ k = embedJobKey p := by
  obtain ⟨s₁, hi, hq, hq₁⟩ := seededWith_upsert h
  obtain hk | ⟨p, hp, rfl⟩ := asked_of_seededWith hq hk
  · obtain ⟨hjobs, -⟩ | hq₁ := hq₁
    · rw [hjobs] at hk
      exact .inl hk
    · obtain hk | ⟨p, hp, rfl⟩ := asked_of_seededWith hq₁ hk
      · exact .inl hk
      · exact .inr ⟨p, .inl ((recoverable_written hs hi.written).1 hp), rfl⟩
  · exact .inr ⟨p, asked_of_recoverable hs hi hp, rfl⟩

/-! ## What drains -/

/-- The document's file is there and has the recorded hash. -/
def upToDate (E : Env) (view : View) (d : Document) : Bool :=
  decide ((view d.filepath).map E.hash = some d.fileHash)

/-- The documents whose file is not what it was when they were recorded. -/
def outdated (E : Env) (view : View) (s : Store) : List Document :=
  s.documents.rows.filter fun d => !upToDate E view d

/-- What is left to do at most: a job for each row of the queue, and one more for each document that
    has to be planned again. -/
def workload (E : Env) (view : View) (s : Store) : ℕ := (outdated E view s).length + s.jobs.rows.length

theorem nodup_outdated (E : Env) (view : View) (s : Store) : (outdated E view s).Nodup := by
  refine List.Pairwise.filter _ (s.documents.sorted.imp ?_)
  rintro d d' hlt rfl
  exact lt_irrefl _ hlt

theorem length_asked (q : JobQueue) : (asked q).length = q.rows.length := List.length_map _

/-- A store that drains: only one model has rows, these are of its plans, and the queue holds its
    embed jobs and nothing else, among them one for each pair with work left. -/
structure Drainable (E : Env) (view : View) (vector : EmbeddingModel → Bytes → Vector32)
    (m : EmbeddingModel) (s : Store) : Prop where
  wellFormed : WellFormed s
  fits : Fits vector m s
  ofModel : ∀ r ∈ s.embeddings.rows, r.modelId = m.id
  planned : ∀ d ∈ s.documents.rows, ∀ file, view d.filepath = some file → E.hash file = d.fileHash →
    Agrees E s.embeddings d.id m file
  jobs : ∀ k ∈ asked s.jobs, ∃ docId, k = embedJobKey (docId, m.id) ∧
    E.decodeEmbedPayload k.2 = .ok ⟨docId, m.id⟩
  queued : ∀ p ∈ s.recoverablePairs, embedJobKey p ∈ asked s.jobs

theorem Drainable.plannedFor (h : Drainable E view vector m s) : PlannedFor E view s m docId := by
  intro d hd hid file hfile hhash r hr hp
  obtain hempty | hplan := h.planned d hd file hfile hhash
  · exact absurd hp (refsOf_eq_empty.1 hempty r hr)
  · have hmem : r.ref ∈ refsOf s.embeddings (d.id, m.id) := ⟨r, hr, hp, rfl⟩
    rwa [hplan] at hmem

/-- A store whose work left is attended to: only one model has rows, each pair with work left has its job,
    and the embed jobs are of its pairs; there may be other jobs beside them. -/
structure Attended (E : Env) (vector : EmbeddingModel → Bytes → Vector32) (m : EmbeddingModel) (s : Store) :
    Prop where
  wellFormed : WellFormed s
  fits : Fits vector m s
  ofModel : ∀ r ∈ s.embeddings.rows, r.modelId = m.id
  jobs : ∀ k ∈ asked s.jobs, k.1 = .embedDocument → ∃ docId, k = embedJobKey (docId, m.id) ∧
    E.decodeEmbedPayload k.2 = .ok ⟨docId, m.id⟩
  queued : ∀ p ∈ s.recoverablePairs, embedJobKey p ∈ asked s.jobs

theorem Drainable.attended (h : Drainable E view vector m s) : Attended E vector m s :=
  ⟨h.wellFormed, h.fits, h.ofModel, fun k hk _ => h.jobs k hk, h.queued⟩

theorem Attended.claimed (h : Attended E vector m s) (now : ℤ) :
    Attended E vector m { s with jobs := (claimJob s.jobs now).2 } where
  wellFormed := { h.wellFormed with payloads := PayloadsIn.claimed h.wellFormed.payloads }
  fits := ⟨h.fits.mem, h.fits.dimensions, h.fits.length, h.fits.index⟩
  ofModel := h.ofModel
  jobs k hk := h.jobs k ((asked_claimJob s.jobs now).1 hk)
  queued p hp := (asked_claimJob s.jobs now).2 (h.queued p hp)

/-- With one row left to embed the whole pair is left. -/
theorem WellFormed.workLeft {p : Pair} (h : WellFormed s)
    (hsome : ∃ r ∈ s.embeddings.rows, r.pair = p ∧ r.state ≠ .embedded) {r : DocumentEmbedding}
    (hr : r ∈ s.embeddings.rows) (hp : r.pair = p) : r.state ≠ .embedded := by
  obtain ⟨r₀, hr₀, hp₀, hst₀⟩ := hsome
  rwa [h.uniform r hr r₀ hr₀ (hp.trans hp₀.symm)]

/-- The rows listed of such a pair are all of its rows. -/
theorem WellFormed.refsOf_replaced {s₁ : Store} {ec : List EmbeddedChunk} (h : WellFormed s)
    (hsome : ∃ r ∈ s.embeddings.rows, r.pair = (docId, m.id) ∧ r.state ≠ .embedded)
    (hrefs : ∀ c, c ∈ ec.map (·.ref) ↔
      ∃ r ∈ s.embeddings.rows, (r.pair = (docId, m.id) ∧ r.state ≠ .embedded) ∧ r.ref = c)
    (hr : Replaced s docId m.id ec now s₁) :
    refsOf s₁.embeddings (docId, m.id) = refsOf s.embeddings (docId, m.id) := by
  rw [hr.refsOf_self]
  ext c
  rw [Set.mem_ofPred_eq, hrefs]
  refine exists_congr fun r => and_congr_right fun hr => ?_
  rw [and_assoc]
  exact and_congr_right fun hp => and_iff_right (h.workLeft hsome hr hp)

/-! ## One dispatch -/

theorem WellFormed.completed (h : WellFormed s) (jobId : ℤ) :
    WellFormed { s with jobs := completeJob s.jobs jobId } :=
  { h with payloads := PayloadsIn.completed h.payloads }

theorem Ingested.ofModel {doc : Document} {id : ℤ} {chunks : List ChunkRef} {s₁ : Store}
    (h : Ingested s doc id m.id chunks now s₁ s') (hs : ForeignKeys s)
    (hmodel : ∀ r ∈ s.embeddings.rows, r.modelId = m.id) : ∀ r ∈ s'.embeddings.rows, r.modelId = m.id := by
  intro r hr
  obtain ⟨hr₀, -⟩ | ⟨r₀, hr₀, -, hne, -⟩ | ⟨c, -, he, -⟩ := h.mem_embeddings hs hr
  · exact hmodel r hr₀
  · exact absurd (hmodel r₀ hr₀) hne
  · rw [he]
    rfl

/-- What fits a store fits one with the same models and an index of the same width. -/
theorem Fits.of_same (h : Fits vector m s) (hmodels : s'.models = s.models)
    (hdim : s'.vec.map (fun v => v.dimensions) = s.vec.map fun v => v.dimensions) : Fits vector m s' := by
  refine ⟨?_, h.dimensions, h.length, ?_⟩
  · rw [hmodels]
    exact h.mem
  · intro v hv
    rw [hv] at hdim
    obtain ⟨v₀, hv₀, hsame⟩ := Option.map_eq_some_iff.1 hdim.symm
    exact hsame.symm.trans (h.index v₀ hv₀)

theorem map_dimensions_vecWithout (t : Store) (p : DocumentEmbedding → Bool) :
    (t.vecWithout p).map (fun v => v.dimensions) = t.vec.map fun v => v.dimensions := by
  rw [Store.vecWithout, Option.map_map]
  rfl

theorem dimensions_putAll : ∀ {l : List (ℤ × Bytes)} {v v' : VecTable}, putAll v l = some v' →
    v'.dimensions = v.dimensions
  | [], v, v', h => by
    cases h
    rfl
  | (rowid, vector) :: l, v, v', h => by
    rw [putAll, Option.bind_eq_some_iff] at h
    obtain ⟨v₁, hput, h⟩ := h
    exact (dimensions_putAll h).trans (VecTable.put_eq_some hput).1

namespace DispatchOutcome

variable (h : DispatchOutcome E view vector m entry.id docId s s')
include h

theorem models : s'.models = s.models := by
  cases h with
  | gone | idle => rfl
  | deleted _ _ _ hdel => rw [ok_deleteDocument hdel]
  | embedded _ _ _ _ _ _ _ hr => exact hr.models
  | replanned _ _ _ _ _ _ _ hok =>
    obtain ⟨_, hi, -⟩ := seededWith_upsert hok
    exact hi.models

theorem dimensions : s'.vec.map (fun v => v.dimensions) = s.vec.map fun v => v.dimensions := by
  cases h with
  | gone | idle => rfl
  | deleted _ _ _ hdel =>
    rw [ok_deleteDocument hdel]
    exact map_dimensions_vecWithout ..
  | embedded _ _ _ _ _ _ _ hr =>
    obtain ⟨hnone, hnone'⟩ | ⟨v, v', hv, hv', hput⟩ := hr.vec
    · exact congrArg _ (hnone'.trans hnone.symm)
    · have hsame := map_dimensions_vecWithout s fun r => decide (r.pair = (docId, m.id))
      rw [show s.vecWithout _ = some v from hv, Option.map_some, ← dimensions_putAll hput] at hsame
      exact (congrArg (Option.map fun v : VecTable => v.dimensions) hv').trans hsame
  | replanned _ _ _ _ _ _ _ hok =>
    obtain ⟨_, hi, -⟩ := seededWith_upsert hok
    exact hi.dimensions_catalog

theorem wellFormed (hs : WellFormed s) : WellFormed s' := by
  cases h with
  | gone | idle => exact hs.completed _
  | deleted _ _ _ hdel => exact (wellFormed_deleteDocument hdel hs).completed _
  | embedded _ _ _ _ _ _ _ hr => exact (hr.wellFormed hs).completed _
  | replanned _ _ _ _ _ _ _ hok => exact (wellFormed_upsert hok (hs.completed _)).completed _

theorem ofModel (hs : ForeignKeys s) (hmodel : ∀ r ∈ s.embeddings.rows, r.modelId = m.id) :
    ∀ r ∈ s'.embeddings.rows, r.modelId = m.id := by
  intro r hr
  cases h with
  | gone | idle => exact hmodel r hr
  | deleted _ _ _ hdel =>
    rw [ok_deleteDocument hdel] at hr
    exact hmodel r (AutoTable.mem_delete.1 hr).1
  | embedded _ _ _ _ _ _ _ hrep =>
    obtain ⟨hr₀, -⟩ | ⟨-, c, -, he⟩ := hrep.mem_embeddings hr
    · exact hmodel r hr₀
    · rw [he]
      rfl
  | replanned _ _ _ _ _ _ _ hok =>
    obtain ⟨_, hi, -⟩ := seededWith_upsert hok
    exact hi.ofModel hs hmodel r hr

variable (ha : Attended E vector m s) (hs : Drainable E view vector m s)
  (hentry : entry ∈ s.jobs.rows) (hkey : entry.uniqueKey = embedJobKey (docId, m.id))
include ha hentry hkey

/-- A dispatch asks for nothing new. -/
theorem asked_subset {k : JobType × String} (hk : k ∈ asked s'.jobs) : k ∈ asked s.jobs := by
  have hcomplete : ∀ {q : JobQueue}, k ∈ asked (completeJob q entry.id) → k ∈ asked q := by
    intro q hk
    obtain ⟨e, he, rfl⟩ := mem_asked.1 hk
    exact mem_asked.2 ⟨e, (mem_completeJob.1 he).1, rfl⟩
  cases h with
  | gone | idle => exact hcomplete hk
  | deleted _ _ _ hdel =>
    have hk := hcomplete hk
    rwa [ok_deleteDocument hdel] at hk
  | embedded _ _ _ _ _ _ _ hr =>
    have hk := hcomplete hk
    rwa [hr.jobs] at hk
  | @replanned d doc file now s₁ hd hid hfile hhash hpath hdoc hnow hok =>
    have hk := hcomplete hk
    -- the pairs seeded for are this one and those with work left before
    obtain hk | ⟨p, ⟨r, hr, rfl, hst | hrd⟩ | ⟨rfl, -⟩, rfl⟩ :=
      asked_of_upsert (ha.wellFormed.completed entry.id) hok hk
    · exact hcomplete hk
    · exact ha.queued _ (Store.mem_recoverablePairs.2 ⟨r, hr, rfl, recoverable_iff.2 hst⟩)
    · refine mem_asked.2 ⟨entry, hentry, hkey.trans ?_⟩
      rw [← hrd, ← ha.ofModel r hr]
      rfl
    · exact mem_asked.2 ⟨entry, hentry, hkey⟩

omit ha hentry hkey in
/-- The documents are those before, but for the one that was planned again. -/
theorem of_mem_documents (hd : d ∈ s'.documents.rows) : d ∈ s.documents.rows ∨
    d.id = docId ∧ upToDate E view d = true ∧ (∃ d₀ ∈ outdated E view s, d₀.id = docId) ∧
      ∀ file, view d.filepath = some file → Agrees E s'.embeddings docId m file := by
  cases h with
  | gone | idle => exact .inl hd
  | deleted _ _ _ hdel =>
    rw [ok_deleteDocument hdel] at hd
    exact .inl (AutoTable.mem_delete.1 hd).1
  | embedded _ _ _ _ _ _ _ hr =>
    rw [hr.documents] at hd
    exact .inl hd
  | @replanned d₀ doc file now s₁ hd₀ hid hfile hhash hpath hdoc _ hok =>
    obtain ⟨_, hi, -⟩ := seededWith_upsert hok
    rw [hi.documents] at hd
    obtain rfl | ⟨hd, -⟩ := (hi.written.mem d).1 hd
    · right
      have hview : view doc.filepath = some file := by rw [hpath, hfile]
      refine ⟨rfl, ?_, ⟨d₀, List.mem_filter.2 ⟨hd₀, ?_⟩, hid⟩, ?_⟩
      · simp [upToDate, hview, hdoc]
      · simp [upToDate, hfile, hhash]
      · intro file' hfile'
        obtain rfl := Option.some.inj (hview.symm.trans hfile')
        exact .inr (hi.refsOf_self nodup_planned)
    · exact .inl hd

omit ha hentry hkey in
include hs in
theorem planned : ∀ d ∈ s'.documents.rows, ∀ file, view d.filepath = some file →
    E.hash file = d.fileHash → Agrees E s'.embeddings d.id m file := by
  intro d hd file hfile hhash
  obtain hd₀ | ⟨rfl, -, -, hagrees⟩ := h.of_mem_documents hd
  · have hagrees := hs.planned d hd₀ file hfile hhash
    cases h with
    | gone | idle => exact hagrees
    | deleted _ _ _ hdel =>
      rw [ok_deleteDocument hdel] at hd ⊢
      refine hagrees.congr (refsOf_delete fun r hr => decide_eq_false fun hdoc => ?_)
      have hne : d.id ≠ docId := by simpa using (AutoTable.mem_delete.1 hd).2
      exact hne ((congrArg Prod.fst hr).symm.trans hdoc)
    | embedded _ _ _ _ hsome hrefs _ hr =>
      refine hagrees.congr ?_
      by_cases hid : d.id = docId
      · have hsame := hs.wellFormed.refsOf_replaced hsome hrefs hr
        rw [hid]
        exact hsame
      · exact hr.refsOf_of_ne fun hp => hid (congrArg Prod.fst hp)
    | replanned hd' hid' hfile' hhash' _ _ _ hok =>
      obtain ⟨_, hi, -⟩ := seededWith_upsert hok
      refine hagrees.congr (hi.refsOf_of_ne hs.wellFormed.foreignKeys fun hp => hhash' ?_)
      -- the document that was planned again had another hash
      obtain rfl := AutoTable.eq_of_key hd₀ hd' ((congrArg Prod.fst hp).trans hid'.symm)
      rwa [← Option.some.inj (hfile.symm.trans hfile')]
  · exact hagrees file hfile

theorem queued : ∀ p ∈ s'.recoverablePairs, embedJobKey p ∈ asked s'.jobs := by
  intro p hp
  have hold : ∀ {t : Store}, t.jobs = s.jobs →
      (∀ r ∈ t.embeddings.rows, r.state ≠ .embedded → r.pair ≠ (docId, m.id) ∧ r ∈ s.embeddings.rows) →
      p ∈ t.recoverablePairs → embedJobKey p ∈ asked (completeJob t.jobs entry.id) := by
    intro t hjobs hrows hp
    obtain ⟨r, hr, rfl, hrec⟩ := Store.mem_recoverablePairs.1 hp
    obtain ⟨hne, hr⟩ := hrows r hr (recoverable_iff.1 hrec)
    rw [hjobs, mem_asked_completeJob hentry, hkey]
    exact ⟨ha.queued _ (Store.mem_recoverablePairs.2 ⟨r, hr, rfl, hrec⟩),
      fun heq => hne (embedJobKey_injective heq)⟩
  cases h with
  | gone hnone =>
    refine hold rfl (fun r hr _ => ⟨fun hpair => ?_, hr⟩) hp
    obtain ⟨⟨d, hd, hid⟩, -⟩ := hasPair_iff.1 (ha.wellFormed.foreignKeys r hr)
    exact hnone d hd (hid.trans (congrArg Prod.fst hpair))
  | idle _ _ _ _ hall => exact hold rfl (fun r hr hst => ⟨fun hpair => hst (hall r hr hpair), hr⟩) hp
  | deleted _ _ _ hdel =>
    obtain rfl := ok_deleteDocument hdel
    refine hold rfl (fun r hr _ => ?_) hp
    obtain ⟨hr, hne⟩ := AutoTable.mem_delete.1 hr
    exact ⟨fun hpair => of_decide_eq_false hne (congrArg Prod.fst hpair), hr⟩
  | embedded _ _ _ _ _ _ _ hrep =>
    refine hold hrep.jobs (fun r hr hst => ?_) hp
    obtain ⟨hr, hne⟩ | ⟨-, c, -, he⟩ := hrep.mem_embeddings hr
    · exact ⟨hne, hr⟩
    · rw [he] at hst
      exact absurd rfl hst
  | replanned _ _ _ _ _ _ _ hok =>
    obtain ⟨_, hi, hq, -⟩ := seededWith_upsert hok
    obtain ⟨e, he, hk⟩ := hq.queued p hp
    refine mem_asked.2 ⟨e, mem_completeJob.2 ⟨he, fun hid => ?_⟩, hk⟩
    -- the job was gone before the queue was seeded
    obtain ⟨e₀, he₀, hid₀, -⟩ := hi.seeded.old e he (by rw [hid]; exact s.jobs.le_seq entry hentry)
    exact (mem_completeJob.1 he₀).2 (hid₀.trans hid)

theorem attended : Attended E vector m s' where
  wellFormed := h.wellFormed ha.wellFormed
  fits := ha.fits.of_same h.models h.dimensions
  ofModel := h.ofModel ha.wellFormed.foreignKeys ha.ofModel
  jobs k hk := ha.jobs k (h.asked_subset ha hentry hkey hk)
  queued := h.queued ha hentry hkey

omit ha in
include hs in
theorem drainable : Drainable E view vector m s' := by
  have hattended := h.attended hs.attended hentry hkey
  refine ⟨hattended.wellFormed, hattended.fits, hattended.ofModel, h.planned hs, fun k hk => ?_,
    hattended.queued⟩
  exact hs.jobs k (h.asked_subset hs.attended hentry hkey hk)

omit ha hkey in
/-- The job of the dispatch is gone, or the document was outdated and is not any more. -/
theorem progress : entry.uniqueKey ∉ asked s'.jobs ∨ ∃ d ∈ outdated E view s, d ∉ outdated E view s' := by
  have hgone : ∀ {q : JobQueue}, q = s.jobs → entry.uniqueKey ∉ asked (completeJob q entry.id) := by
    rintro _ rfl hk
    exact ((mem_asked_completeJob hentry).1 hk).2 rfl
  cases h with
  | gone | idle => exact .inl (hgone rfl)
  | deleted _ _ _ hdel =>
    obtain rfl := ok_deleteDocument hdel
    exact .inl (hgone rfl)
  | embedded _ _ _ _ _ _ _ hr => exact .inl (hgone hr.jobs)
  | @replanned d doc file _ _ hd hid hfile hhash hpath hdoc _ hok =>
    obtain ⟨_, hi, -⟩ := seededWith_upsert hok
    refine .inr ⟨d, List.mem_filter.2 ⟨hd, by simp [upToDate, hfile, hhash]⟩, fun hd' => ?_⟩
    obtain ⟨hmem, hout⟩ := List.mem_filter.1 hd'
    rw [hi.documents] at hmem
    obtain hnew | ⟨-, hne⟩ := (hi.written.mem d).1 hmem
    · rw [hnew] at hhash
      exact hhash hdoc.symm
    · exact hne hid

/-- Every dispatch lowers the workload: its job is gone, or its document is no longer outdated. -/
theorem workload_lt : workload E view s' < workload E view s := by
  have hdocs : ∀ d ∈ outdated E view s', d ∈ outdated E view s := by
    intro d hd
    obtain ⟨hd, hout⟩ := List.mem_filter.1 hd
    obtain hd₀ | ⟨-, hup, -⟩ := h.of_mem_documents hd
    · exact List.mem_filter.2 ⟨hd₀, hout⟩
    · rw [hup] at hout
      cases hout
  have hle := (List.subperm_of_subset (nodup_outdated E view s') hdocs).length_le
  have hjobs := (List.subperm_of_subset (nodup_asked s'.jobs)
    fun _ hk => h.asked_subset ha hentry hkey hk).length_le
  unfold workload
  rw [← length_asked, ← length_asked]
  obtain hgone | ⟨d, hd, hnew⟩ := h.progress hentry
  · have hlt := (List.subperm_of_subset (List.nodup_cons.2 ⟨hgone, nodup_asked s'.jobs⟩)
      (List.cons_subset.2 ⟨mem_asked.2 ⟨entry, hentry, rfl⟩,
        fun _ hk => h.asked_subset ha hentry hkey hk⟩)).length_le
    rw [List.length_cons] at hlt
    omega
  · have hlt := (List.subperm_of_subset (List.nodup_cons.2 ⟨hnew, nodup_outdated E view s'⟩)
      (List.cons_subset.2 ⟨hd, hdocs⟩)).length_le
    rw [List.length_cons] at hlt
    omega

end DispatchOutcome

end Ask
