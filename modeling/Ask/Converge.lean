/-
  A library whose files change while the server works: requests, jobs and
  edits in any order, with nothing that fails.

  `settled` is not the server's: it remembers which paths were taken up by an
  ingest or marked stale since they last changed.
-/
import Ask.LibraryLaw

namespace Ask

open Lib

variable {E : Env} {contents : String → Set Bytes} {view : View} {vector : EmbeddingModel → Bytes → Vector32}
  {m : EmbeddingModel} {s s' : Store} {d : Document} {docId : ℤ} {path : String}

/-! ## Steps -/

/-- The host, the database, and the paths that are settled. -/
structure LibraryState where
  host : Host
  store : Store
  settled : Set String

/-- What may happen to a library. -/
inductive LibraryOp where
  | edit (host : Host)
  | request (route : IngestRoute) (payload : String) (now : ℤ)
  | stale (docIds : List ℤ) (now : ℤ)
  | ingest (now : ℤ) (files : List String)
  | embed (now : ℤ) (result : Except AnyError Unit)

/-- The store once a job was claimed. -/
def Store.claimed (s : Store) (now : ℤ) : Store := { s with jobs := (claimJob s.jobs now).2 }

/-- One step: files change, a request is made, or a worker claims the next job and dispatches it.  A file
    at a path has one of its contents. -/
inductive LibraryStep (E : Env) (contents : String → Set Bytes) (vector : EmbeddingModel → Bytes → Vector32)
    (m : EmbeddingModel) : LibraryState → LibraryOp → LibraryState → Prop
  | edit {l : LibraryState} {host : Host} :
      (∀ p file, host.view p = some file → file ∈ contents p) →
      LibraryStep E contents vector m l (.edit host)
        ⟨host, l.store, {p | p ∈ l.settled ∧ host.view p = l.host.view p}⟩
  | request {l : LibraryState} {route : IngestRoute} {payload : String} {now : ℤ} {s : Store} :
      (enqueueJobDb route.jobType payload now).Ok l.store () s →
      LibraryStep E contents vector m l (.request route payload now) ⟨l.host, s, l.settled⟩
  | stale {l : LibraryState} {docIds : List ℤ} {now : ℤ} {s : Store} :
      (markDocumentsStale docIds now).Ok l.store () s →
      LibraryStep E contents vector m l (.stale docIds now)
        ⟨l.host, s, {p | p ∈ l.settled ∨ ∃ docId ∈ docIds, l.store.PathOf docId p}⟩
  | ingest {l : LibraryState} {now : ℤ} {entry : JobQueueEntry} {route : IngestRoute}
      {payload : IngestFolderPayload} {isMatch : String → Bool} {fuel : ℕ} {files : List String} {w : World} :
      (claimJob l.store.jobs now).1 = some entry → entry.jobType = route.jobType →
      E.decodeIngestPayload entry.payload = .ok payload →
      E.compilePattern payload.filePattern = .ok isMatch →
      l.host.jobFiles fuel route payload isMatch = some files →
      l.host.Done (dispatchJob E entry m.id) ⟨l.store.claimed now, [], []⟩ () w →
      (∀ d ∈ w.store.documents.rows, IsI64 d.id) →
      LibraryStep E contents vector m l (.ingest now files)
        ⟨l.host, w.store, {p | p ∈ l.settled ∨ p ∈ files}⟩
  | embed {l : LibraryState} {now : ℤ} {entry : JobQueueEntry} {result : Except AnyError Unit} {w : World} :
      (claimJob l.store.jobs now).1 = some entry → entry.jobType = .embedDocument →
      Proc.Runs (Reliable l.host.view vector) (dispatchJob E entry m.id) ⟨l.store.claimed now, [], []⟩
        result w →
      LibraryStep E contents vector m l (.embed now result) ⟨l.host, w.store, l.settled⟩

/-! ## What is kept -/

/-- The document is recorded as that content: it has the content's hash and the rows of its plan, and the
    embedded ones are in the index with the vectors of their own inputs. -/
structure RecordedAs (E : Env) (vector : EmbeddingModel → Bytes → Vector32) (m : EmbeddingModel) (file : Bytes)
    (s : Store) (d : Document) : Prop where
  hash : d.fileHash = E.hash file
  refs : refsOf s.embeddings (d.id, m.id) = {c | c ∈ planRefs E file m}
  embedded : ∀ r ∈ s.embeddings.rows, r.pair = (d.id, m.id) → r.state = .embedded →
    ∃ bytes, bytes = serializeEmbedding (vector m (chunkInput d.filepath file r.ref)) ∧
      r.embedding = some bytes ∧ (r.id, bytes) ∈ s.vecRows

/-- Each document is recorded as a content of its path. -/
def Truthful (E : Env) (contents : String → Set Bytes) (vector : EmbeddingModel → Bytes → Vector32)
    (m : EmbeddingModel) (s : Store) : Prop :=
  ∀ d ∈ s.documents.rows, ∃ file ∈ contents d.filepath, RecordedAs E vector m file s d

/-- The path's document has work left or the hash of its file, or there is neither. -/
def Settling (E : Env) (view : View) (m : EmbeddingModel) (s : Store) (path : String) : Prop :=
  (∃ d ∈ s.documents.rows, d.filepath = path ∧
    ((d.id, m.id) ∈ s.recoverablePairs ∨ (view path).map E.hash = some d.fileHash)) ∨
  view path = none ∧ ∀ d ∈ s.documents.rows, d.filepath ≠ path

theorem sameFor_jobs (docId : ℤ) (s : Store) (q : JobQueue) : SameFor docId s { s with jobs := q } :=
  ⟨fun _ _ => Iff.rfl, fun _ _ => Iff.rfl, fun _ _ _ _ => Iff.rfl⟩

theorem SameFor.recordedAs {file : Bytes} (hsame : SameFor d.id s s') (h : RecordedAs E vector m file s d) :
    RecordedAs E vector m file s' d where
  hash := h.hash
  refs := by
    rw [← h.refs]
    ext c
    exact exists_congr fun r => and_congr_left fun hp => hsame.rows r (congrArg Prod.fst hp.1)
  embedded r hr hp hst := by
    have hdoc : r.documentId = d.id := congrArg Prod.fst hp
    have hr₀ := (hsame.rows r hdoc).1 hr
    obtain ⟨bytes, hbytes, hemb, hvec⟩ := h.embedded r hr₀ hp hst
    exact ⟨bytes, hbytes, hemb, (hsame.vectors r hr₀ hdoc bytes).2 hvec⟩

theorem SameFor.recoverable (hsame : SameFor docId s s') (h : (docId, m.id) ∈ s.recoverablePairs) :
    (docId, m.id) ∈ s'.recoverablePairs := by
  obtain ⟨r, hr, hp, hst⟩ := Store.mem_recoverablePairs.1 h
  exact Store.mem_recoverablePairs.2 ⟨r, (hsame.rows r (congrArg Prod.fst hp)).2 hr, hp, hst⟩

/-- A truthful document has rows. -/
theorem RecordedAs.exists_row {file : Bytes} (h : RecordedAs E vector m file s d) :
    ∃ r ∈ s.embeddings.rows, r.pair = (d.id, m.id) := by
  have hmem : (ChunkType.filename, 0, 0) ∈ refsOf s.embeddings (d.id, m.id) := by
    rw [h.refs]
    exact filename_mem_planned
  obtain ⟨r, hr, hp, -⟩ := hmem
  exact ⟨r, hr, hp⟩

/-- With nothing left to embed a document recorded as its file is true to it. -/
theorem RecordedAs.trueToFile {file : Bytes} (h : RecordedAs E vector m file s d)
    (hd : d ∈ s.documents.rows) (hfile : view d.filepath = some file)
    (hidle : (d.id, m.id) ∉ s.recoverablePairs) : TrueToFile E view vector m d.id d.filepath s := by
  unfold TrueToFile
  rw [hfile]
  refine ⟨⟨d, hd, rfl, rfl, h.hash⟩, h.refs, fun r hr hp => ?_⟩
  have hst : r.state = .embedded := by
    by_contra hst
    exact hidle (Store.mem_recoverablePairs.2 ⟨r, hr, hp, recoverable_iff.2 hst⟩)
  exact ⟨hst, h.embedded r hr hp hst⟩

/-- A path settles as long as its document is kept and no document is added to it. -/
theorem Settling.of_kept (h : Settling E view m s path)
    (hkept : ∀ d ∈ s.documents.rows, d.filepath = path → SameFor d.id s s')
    (hpaths : ∀ d ∈ s'.documents.rows, d.filepath = path → ∃ d₀ ∈ s.documents.rows, d₀.filepath = path) :
    Settling E view m s' path := by
  rcases h with ⟨d, hd, hpath, hwork⟩ | ⟨hnone, hfree⟩
  · have hsame := hkept d hd hpath
    exact .inl ⟨d, (hsame.documents d rfl).2 hd, hpath, hwork.imp_left hsame.recoverable⟩
  · refine .inr ⟨hnone, fun d hd hpath => ?_⟩
    obtain ⟨d₀, hd₀, hpath₀⟩ := hpaths d hd hpath
    exact hfree d₀ hd₀ hpath₀

/-! ## One dispatch -/

namespace DispatchOutcome

variable {entry : JobQueueEntry} (h : DispatchOutcome E view vector m entry.id docId s s')
include h

/-- A dispatch brings no new document and moves none. -/
theorem path_mono (hd : d ∈ s'.documents.rows) :
    ∃ d₀ ∈ s.documents.rows, d₀.id = d.id ∧ d₀.filepath = d.filepath := by
  cases h with
  | gone | idle => exact ⟨d, hd, rfl, rfl⟩
  | deleted _ _ _ hdel =>
    rw [ok_deleteDocument hdel] at hd
    exact ⟨d, (AutoTable.mem_delete.1 hd).1, rfl, rfl⟩
  | embedded _ _ _ _ _ _ _ hr =>
    rw [hr.documents] at hd
    exact ⟨d, hd, rfl, rfl⟩
  | @replanned d₀ doc _ _ _ hd₀ hid _ _ hpath _ _ hok =>
    obtain ⟨_, hi, -⟩ := seededWith_upsert hok
    rw [hi.documents] at hd
    rcases (hi.written.mem d).1 hd with rfl | ⟨hd, -⟩
    · exact ⟨d₀, hd₀, hid, hpath.symm⟩
    · exact ⟨d, hd, rfl, rfl⟩

variable (hs : WellFormed s) (hvec : s.vec.isSome = true)
include hs hvec

/-- A dispatch leaves each document recorded as a content of its path. -/
theorem truthful (hcontents : ∀ p file, view p = some file → file ∈ contents p)
    (hinj : ∀ p, Set.InjOn E.hash (contents p)) (ht : Truthful E contents vector m s) :
    Truthful E contents vector m s' := by
  intro d hd
  by_cases hid : d.id = docId
  · cases h with
    | gone hnone => exact absurd hid (hnone d hd)
    | deleted _ _ _ hdel =>
      rw [ok_deleteDocument hdel] at hd
      exact absurd hid (of_decide_eq_false (AutoTable.mem_delete.1 hd).2)
    | idle =>
      obtain ⟨file, hfile, hrec⟩ := ht d hd
      exact ⟨file, hfile, (sameFor_jobs d.id s _).recordedAs hrec⟩
    | @replanned d₀ doc file now s₁ hd₀ hid₀ hfile _ hpath hhash _ hok =>
      obtain ⟨_, hi, -⟩ := seededWith_upsert hok
      have heffect := hi.effect (hs.completed _) (wellFormed_upsert hok (hs.completed _)) nodup_planned
      have hnew : { doc with id := docId } ∈ s₁.documents.rows := ((heffect.document _).2 rfl).1
      obtain rfl := AutoTable.eq_of_key hd hnew hid
      have hread : view doc.filepath = some file := by rw [hpath, hfile]
      refine ⟨file, hcontents doc.filepath file hread, hhash, hi.refsOf_self nodup_planned, fun r hr hp hst => ?_⟩
      rw [(heffect.pending r hr hp).1] at hst
      cases hst
    | @embedded d₀ file ec now s₁ hd₀ hid₀ hfile hhash hsome hrefs hvector hrep =>
      rw [show s₁.documents = s.documents from hrep.documents] at hd
      obtain rfl := AutoTable.eq_of_key hd hd₀ (hid.trans hid₀.symm)
      subst hid
      obtain ⟨file', hfile', hrec⟩ := ht d hd
      obtain rfl := hinj _ hfile' (hcontents _ _ hfile) (hrec.hash.symm.trans hhash.symm)
      refine ⟨file', hfile', hrec.hash, ?_, fun r hr hp _ => ?_⟩
      · exact (hs.refsOf_replaced hsome hrefs hrep).trans hrec.refs
      · rcases hrep.mem_embeddings hr with ⟨-, hne⟩ | ⟨-, c, hc, he⟩
        · exact absurd hp hne
        · have hbytes : r.embedding = some c.embedding := congrArg DocumentEmbedding.embedding he
          refine ⟨c.embedding, ?_, hbytes, ?_⟩
          · rw [hvector c hc, he]
            rfl
          · refine (hrep.index hs hvec (fun r' hr' hp' => hs.workLeft hsome hr' hp') _).2 ?_
            exact .inr ⟨r, hr, hp, rfl, hbytes⟩
  · have hsame : SameFor d.id s s' := h.sameFor hs hvec hid
    obtain ⟨file, hfile, hrec⟩ := ht d ((hsame.documents d rfl).1 hd)
    exact ⟨file, hfile, hsame.recordedAs hrec⟩

/-- A path goes on to settle, whatever document the dispatch is of. -/
theorem settling (hp : Settling E view m s path) : Settling E view m s' path := by
  rcases hp with ⟨d, hd, rfl, hwork⟩ | ⟨hnone, hfree⟩
  · by_cases hid : d.id = docId
    · cases h with
      | gone hnone => exact absurd hid (hnone d hd)
      | @deleted d₀ s₁ hd₀ hid₀ hfile hdel =>
        obtain rfl := AutoTable.eq_of_key hd hd₀ (hid.trans hid₀.symm)
        obtain rfl := ok_deleteDocument hdel
        refine .inr ⟨hfile, fun d' hd' hpath => ?_⟩
        obtain ⟨hd', hne⟩ := AutoTable.mem_delete.1 hd'
        rw [hs.paths d' hd' d hd hpath] at hne
        exact of_decide_eq_false hne hid
      | idle => exact .inl ⟨d, hd, rfl, hwork⟩
      | @replanned d₀ doc file now s₁ hd₀ hid₀ _ _ hpath _ _ hok =>
        obtain ⟨_, hi, -⟩ := seededWith_upsert hok
        obtain rfl := AutoTable.eq_of_key hd hd₀ (hid.trans hid₀.symm)
        have hnew : { doc with id := docId } ∈ s₁.documents.rows := by
          rw [hi.documents]
          exact (hi.written.mem _).2 (.inl rfl)
        have hrec := new_pair_recoverable (List.ne_nil_of_mem filename_mem_planned) hok
        exact .inl ⟨_, hnew, hpath, .inl hrec⟩
      | @embedded d₀ file ec now s₁ hd₀ hid₀ hfile hhash _ _ _ hrep =>
        obtain rfl := AutoTable.eq_of_key hd hd₀ (hid.trans hid₀.symm)
        refine .inl ⟨d, ?_, rfl, .inr ?_⟩
        · rw [show s₁.documents = s.documents from hrep.documents]
          exact hd
        · rw [hfile, Option.map_some, hhash]
    · have hsame : SameFor d.id s s' := h.sameFor hs hvec hid
      exact .inl ⟨d, (hsame.documents d rfl).2 hd, rfl, hwork.imp_left hsame.recoverable⟩
  · refine .inr ⟨hnone, fun d hd hpath => ?_⟩
    obtain ⟨d₀, hd₀, -, hpath₀⟩ := h.path_mono hd
    exact hfree d₀ hd₀ (hpath₀.trans hpath)

end DispatchOutcome

end Ask
