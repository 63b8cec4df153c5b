/-
  Whatever the order of edits, requests and jobs, a library whose queue has no
  embed job left is true to the files that settled, and is searched as such.
-/
import Ask.Converge

namespace Ask

open Lib Task

variable {E : Env} {contents : String → Set Bytes} {view : View} {vector : EmbeddingModel → Bytes → Vector32}
  {m : EmbeddingModel} {s s' : Store} {d : Document} {docId now : ℤ} {path : String} {files : List String}
  {docIds : List ℤ}

/-! ## Files ingested -/

/-- A file that was planned anew is recorded as it is. -/
theorem PlannedFile.recordedAs {file : Bytes} (h : PlannedFile E view m s d file) :
    RecordedAs E vector m file s d where
  hash := h.snapshot.fileHash
  refs := by
    ext c
    rw [Set.mem_ofPred_eq, ← h.rows.mem_iff]
    constructor
    · rintro ⟨r, hr, hp, rfl⟩
      exact List.mem_map.2 ⟨r, List.mem_filter.2 ⟨hr, decide_eq_true hp⟩, rfl⟩
    · intro hc
      obtain ⟨r, hr, rfl⟩ := List.mem_map.1 hc
      obtain ⟨hr, hp⟩ := List.mem_filter.1 hr
      exact ⟨r, hr, of_decide_eq_true hp, rfl⟩
  embedded r hr hp hst := by
    rw [(h.pending r hr hp).1] at hst
    cases hst

theorem FilesIngested.truthful (h : FilesIngested E view m files s s')
    (hcontents : ∀ p file, view p = some file → file ∈ contents p) (ht : Truthful E contents vector m s) :
    Truthful E contents vector m s' := by
  intro d hd
  rcases h.kept_or_planned hd with ⟨⟨hold, -⟩, hsame⟩ | ⟨file, hplanned⟩
  · obtain ⟨file, hfile, hrec⟩ := ht d hold
    exact ⟨file, hfile, hsame.recordedAs hrec⟩
  · exact ⟨file, hcontents _ _ hplanned.read, hplanned.recordedAs⟩

theorem FilesIngested.settling (h : FilesIngested E view m files s s')
    (hp : Settling E view m s path ∨ path ∈ files) : Settling E view m s' path := by
  by_cases hmem : path ∈ files
  · obtain ⟨d, hd, hpath, hhash⟩ := h.recorded path hmem
    exact .inl ⟨d, hd, hpath, .inr hhash⟩
  · refine (hp.resolve_right hmem).of_kept (fun d hd hpath => ?_) fun d hd hpath => ?_
    · exact h.kept d hd fun hin => absurd (hpath ▸ hin) hmem
    · rcases h.documents d hd with hold | ⟨⟨hin, -⟩, -⟩
      · exact ⟨d, hold, hpath⟩
      · exact absurd (hpath ▸ hin) hmem

/-! ## Documents marked stale -/

namespace MarkedStale

variable (h : MarkedStale s docIds now s')
include h

theorem mem_rows {r : DocumentEmbedding} : r ∈ s'.embeddings.rows ↔ ∃ r₀ ∈ s.embeddings.rows,
    (if r₀.documentId ∈ docIds ∧ r₀.state = .embedded then { r₀ with state := .stale } else r₀) = r := by
  rw [h.embeddings, List.mem_map]

/-- Nothing changes of a document that is not listed. -/
theorem sameFor (hout : docId ∉ docIds) : SameFor docId s s' := by
  refine ⟨fun d _ => by rw [h.documents], fun r hid => ?_, fun r hr hid bytes => ?_⟩
  · rw [h.mem_rows]
    constructor
    · rintro ⟨r₀, hr₀, rfl⟩
      split_ifs at hid ⊢ with hstale
      · exact absurd (hid ▸ hstale.1) hout
      · exact hr₀
    · intro hr
      exact ⟨r, hr, if_neg fun hstale => hout (hid ▸ hstale.1)⟩
  · refine (h.vec _).trans (and_iff_left fun r' hr' hid' => ?_)
    rw [AutoTable.eq_of_key hr' hr hid', hid]
    exact hout

/-- A listed document keeps its spans, and none of its rows stays embedded. -/
theorem unembedded (hin : docId ∈ docIds) {r : DocumentEmbedding} (hr : r ∈ s'.embeddings.rows)
    (hid : r.documentId = docId) : r.state ≠ .embedded := by
  obtain ⟨r₀, -, rfl⟩ := h.mem_rows.1 hr
  split_ifs at hid ⊢ with hstale
  · exact EmbedState.noConfusion
  · exact fun hst => hstale ⟨hid ▸ hin, hst⟩

theorem refsOf_eq (p : Pair) : refsOf s'.embeddings p = refsOf s.embeddings p := by
  ext c
  constructor
  · rintro ⟨r, hr, hp, rfl⟩
    obtain ⟨r₀, hr₀, rfl⟩ := h.mem_rows.1 hr
    refine ⟨r₀, hr₀, ?_, ?_⟩
    · split_ifs at hp <;> exact hp
    · split_ifs <;> rfl
  · rintro ⟨r, hr, hp, rfl⟩
    refine ⟨_, h.mem_rows.2 ⟨r, hr, rfl⟩, ?_, ?_⟩
    · split_ifs <;> exact hp
    · split_ifs <;> rfl

theorem truthful (ht : Truthful E contents vector m s) : Truthful E contents vector m s' := by
  intro d hd
  rw [h.documents] at hd
  obtain ⟨file, hfile, hrec⟩ := ht d hd
  refine ⟨file, hfile, ?_⟩
  by_cases hin : d.id ∈ docIds
  · refine ⟨hrec.hash, (h.refsOf_eq _).trans hrec.refs, fun r hr hp hst => ?_⟩
    exact absurd hst (h.unembedded hin hr (congrArg Prod.fst hp))
  · exact (h.sameFor hin).recordedAs hrec

/-- The paths of listed documents settle: their documents have work left now. -/
theorem settling (ht : Truthful E contents vector m s)
    (hp : Settling E view m s path ∨ ∃ docId ∈ docIds, s.PathOf docId path) : Settling E view m s' path := by
  have hmarked : ∀ d ∈ s.documents.rows, d.id ∈ docIds → (d.id, m.id) ∈ s'.recoverablePairs := by
    intro d hd hin
    obtain ⟨file, -, hrec⟩ := ht d hd
    obtain ⟨r, hr, hp⟩ := hrec.exists_row
    have hr' := h.mem_rows.2 ⟨r, hr, rfl⟩
    refine Store.mem_recoverablePairs.2 ⟨_, hr', ?_, recoverable_iff.2 (h.unembedded hin hr' ?_)⟩
    · split_ifs <;> exact hp
    · split_ifs <;> exact congrArg Prod.fst hp
  rcases hp with (⟨d, hd, hpath, hwork⟩ | ⟨hnone, hfree⟩) | ⟨_, hin, d, hd, rfl, hpath⟩
  · refine .inl ⟨d, by rwa [h.documents], hpath, ?_⟩
    by_cases hin : d.id ∈ docIds
    · exact .inl (hmarked d hd hin)
    · exact hwork.imp_left (h.sameFor hin).recoverable
  · exact .inr ⟨hnone, by rwa [h.documents]⟩
  · exact .inl ⟨d, by rwa [h.documents], hpath, .inl (hmarked d hd hin)⟩

end MarkedStale

/-- Work left is attended to after documents were marked. -/
theorem Attended.markedStale (ha : Attended E vector m s) (hdecode : DecodesMembers E.decodeEmbedPayload)
    (hids : ∀ d ∈ s.documents.rows, IsI64 d.id) (hm : IsI64 m.id) (hne : docIds ≠ [])
    (h : (markDocumentsStaleInQueueTime docIds now).Ok s () s') (hstale : MarkedStale s docIds now s')
    (hwell : WellFormed s') : Attended E vector m s' := by
  have hseeded := seededWith_markDocumentsStaleInQueueTime hne h
  have hmodel : ∀ r ∈ s'.embeddings.rows, r.modelId = m.id := by
    intro r hr
    obtain ⟨r₀, hr₀, rfl⟩ := hstale.mem_rows.1 hr
    split_ifs <;> exact ha.ofModel r₀ hr₀
  refine ⟨hwell, ha.fits.of_same hstale.models ?_, hmodel, fun k hk hkind => ?_, fun p hp => ?_⟩
  · obtain ⟨q, -, -, rfl⟩ := ok_markDocumentsStaleInQueueTime hne h
    exact map_dimensions_vecWithout ..
  · rcases asked_of_seededWith hseeded hk with hk | ⟨p, hp, rfl⟩
    · exact ha.jobs k hk hkind
    · obtain ⟨r, hr, rfl, -⟩ := Store.mem_recoverablePairs.1 hp
      obtain ⟨path, d, hd, hid, -⟩ := hwell.exists_path hr
      rw [hstale.documents] at hd
      have hpair : r.pair = (d.id, m.id) := Prod.ext hid.symm (hmodel r hr)
      rw [hpair]
      exact ⟨d.id, rfl, hdecode _ _ _ (hids d hd) hm (.inl (readObject_embedPayloadJson (d.id, m.id)))⟩
  · exact mem_asked.2 (hseeded.queued p hp)

/-- Work left is attended to after a request for an ingest. -/
theorem Attended.requested (ha : Attended E vector m s) {jobType : JobType} {payload : String}
    (hty : jobType ≠ .embedDocument) :
    Attended E vector m { s with jobs := (enqueueJob s.jobs jobType payload now).2 } where
  wellFormed := { ha.wellFormed with payloads := PayloadsIn.enqueued ha.wellFormed.payloads hty }
  fits := ⟨ha.fits.mem, ha.fits.dimensions, ha.fits.length, ha.fits.index⟩
  ofModel := ha.ofModel
  jobs k hk hkind := by
    obtain ⟨e, he, rfl⟩ := mem_asked.1 hk
    have hold := mem_of_mem_enqueueJob_of_ne _ _ _ _ he fun heq => hty (heq.symm.trans hkind)
    exact ha.jobs _ (mem_asked.2 ⟨e, hold, rfl⟩) hkind
  queued p hp := by
    obtain ⟨e, he, hkey⟩ := mem_asked.1 (ha.queued p hp)
    obtain ⟨e', he', -, hkey'⟩ := exists_mem_enqueueJob_of_mem s.jobs jobType payload now he
    exact mem_asked.2 ⟨e', he', hkey'.trans hkey⟩

/-! ## Runs -/

/-- What holds in every state of a library. -/
structure LibraryState.Sound (E : Env) (contents : String → Set Bytes)
    (vector : EmbeddingModel → Bytes → Vector32) (m : EmbeddingModel) (l : LibraryState) : Prop where
  attended : Attended E vector m l.store
  active : ∃ updatedAt, l.store.searchState = some ⟨m.id, m.dimensions, updatedAt⟩
  indexed : l.store.vec.isSome = true
  ids : ∀ d ∈ l.store.documents.rows, IsI64 d.id
  files : ∀ p file, l.host.view p = some file → file ∈ contents p
  truthful : Truthful E contents vector m l.store
  settled : ∀ p ∈ l.settled, Settling E l.host.view m l.store p

theorem isSome_of_dimensions {v v' : Option VecTable} (h : v'.map (fun v => v.dimensions) =
    v.map fun v => v.dimensions) (hvec : v.isSome = true) : v'.isSome = true := by
  have hsome := congrArg Option.isSome h
  rw [Option.isSome_map, Option.isSome_map] at hsome
  exact hsome.trans hvec

/-- What is planned of a truthful document is what its file's plan says. -/
theorem Truthful.plannedFor (ht : Truthful E contents vector m s)
    (hcontents : ∀ p file, view p = some file → file ∈ contents p)
    (hinj : ∀ p, Set.InjOn E.hash (contents p)) : PlannedFor E view s m docId := by
  intro d hd _ file hfile hhash r hr hp
  obtain ⟨file', hfile', hrec⟩ := ht d hd
  obtain rfl := hinj _ hfile' (hcontents _ _ hfile) (hrec.hash.symm.trans hhash.symm)
  have hmem : r.ref ∈ refsOf s.embeddings (d.id, m.id) := ⟨r, hr, hp, rfl⟩
  rwa [hrec.refs] at hmem

section
variable {l l' : LibraryState}

/-- A round over an embed job ends well, with one of the outcomes. -/
theorem LibraryState.Sound.embed {entry : JobQueueEntry} {result : Except AnyError Unit} {w : World}
    (hl : l.Sound E contents vector m) (hinj : ∀ p, Set.InjOn E.hash (contents p))
    (hclaim : (claimJob l.store.jobs now).1 = some entry) (hty : entry.jobType = .embedDocument)
    (hrun : Proc.Runs (Reliable l.host.view vector) (dispatchJob E entry m.id) ⟨l.store.claimed now, [], []⟩
      result w) :
    result = .ok () ∧ (⟨l.host, w.store, l.settled⟩ : LibraryState).Sound E contents vector m := by
  have ha := hl.attended.claimed now
  have hentry := mem_of_claim hclaim
  obtain ⟨docId, hkey, hpayload⟩ := ha.jobs _ (mem_asked.2 ⟨entry, hentry, rfl⟩) hty
  have ht : Truthful E contents vector m (l.store.claimed now) := by
    intro d hd
    obtain ⟨file, hfile, hrec⟩ := hl.truthful d hd
    exact ⟨file, hfile, (sameFor_jobs d.id l.store _).recordedAs hrec⟩
  have hworks : Works (Reliable l.host.view vector) (dispatchJob E entry m.id) ⟨l.store.claimed now, [], []⟩ :=
    works_dispatchJob hty hpayload ha.fits (ht.plannedFor hl.files hinj)
  obtain ⟨_, hok⟩ := hworks.of_runs hrun
  rw [hok] at hrun
  have hout : DispatchOutcome E l.host.view vector m entry.id docId (l.store.claimed now) w.store :=
    done_outcome ha.wellFormed hty hpayload ha.fits.mem hrun
  refine ⟨hok, hout.attended ha hentry hkey, ?_, isSome_of_dimensions hout.dimensions hl.indexed, ?_, hl.files,
    hout.truthful ha.wellFormed hl.indexed hl.files hinj ht, fun p hp => ?_⟩
  · rw [hout.searchState]
    exact hl.active
  · intro d hd
    obtain ⟨d₀, hd₀, hid, -⟩ := hout.path_mono hd
    rw [← hid]
    exact hl.ids d₀ hd₀
  · exact hout.settling ha.wellFormed hl.indexed (hl.settled p hp)

/-- Every step keeps the library sound. -/
theorem LibraryStep.sound {op : LibraryOp} (h : LibraryStep E contents vector m l op l')
    (hinj : ∀ p, Set.InjOn E.hash (contents p)) (hdecode : DecodesMembers E.decodeEmbedPayload)
    (hm : IsI64 m.id) (hl : l.Sound E contents vector m) : l'.Sound E contents vector m := by
  cases h with
  | edit hfiles =>
    refine ⟨hl.attended, hl.active, hl.indexed, hl.ids, hfiles, hl.truthful, fun p hp => ?_⟩
    obtain ⟨hp, hsame⟩ := hp
    have hsettled := hl.settled p hp
    unfold Settling at hsettled ⊢
    rw [hsame]
    exact hsettled
  | @request route payload now s hok =>
    obtain rfl := ok_enqueueJobDb hok
    have hty : route.jobType ≠ .embedDocument := by cases route <;> exact JobType.noConfusion
    refine ⟨hl.attended.requested hty, hl.active, hl.indexed, hl.ids, hl.files, fun d hd => ?_, hl.settled⟩
    obtain ⟨file, hfile, hrec⟩ := hl.truthful d hd
    exact ⟨file, hfile, (sameFor_jobs d.id l.store _).recordedAs hrec⟩
  | @stale docIds now s hok =>
    have hwell := wellFormed_markDocumentsStale hok hl.attended.wellFormed
    rcases ok_markDocumentsStale hok with ⟨rfl, rfl⟩ | ⟨hne, hqueue⟩
    · refine ⟨hl.attended, hl.active, hl.indexed, hl.ids, hl.files, hl.truthful, fun p hp => ?_⟩
      exact hl.settled p (hp.resolve_right (by simp))
    · have hstale : MarkedStale l.store docIds now s := markedStale hl.attended.wellFormed hne hok
      have ha := hl.attended.markedStale hdecode hl.ids hm hne hqueue hstale hwell
      refine ⟨ha, ?_, ?_, ?_, hl.files, hstale.truthful hl.truthful, fun p hp => ?_⟩
      · rw [hstale.searchState]
        exact hl.active
      · obtain ⟨q, -, -, rfl⟩ := ok_markDocumentsStaleInQueueTime hne hqueue
        exact isSome_of_dimensions (map_dimensions_vecWithout ..) hl.indexed
      · rw [hstale.documents]
        exact hl.ids
      · exact hstale.settling hl.truthful (hp.imp_left (hl.settled p))
  | @ingest now entry route payload isMatch fuel files w hclaim hty hpayload hmatch hfiles hdone hids =>
    have ha := hl.attended.claimed now
    obtain ⟨fuel', files', s₁, hfiles', hrun, hstore⟩ :=
      run_of_done_dispatch hty hpayload hmatch ha.fits.mem hdone
    obtain rfl := jobFiles_unique hfiles hfiles'
    rw [hstore] at hids ⊢
    have hjob := jobType_ne_embed hty
    have hingested := filesIngested_run hrun ha.wellFormed
    have hentry : entry ∈ s₁.jobs.rows := hingested.otherJobs entry (mem_of_claim hclaim) hjob
    have ht : Truthful E contents vector m s₁ := by
      refine hingested.truthful hl.files fun d hd => ?_
      obtain ⟨file, hfile, hrec⟩ := hl.truthful d hd
      exact ⟨file, hfile, (sameFor_jobs d.id l.store _).recordedAs hrec⟩
    refine ⟨(ha.ingested hrun hdecode hids hm).completed hentry hjob, ?_, ?_, hids, hl.files, fun d hd => ?_,
      fun p hp => ?_⟩
    · show ∃ updatedAt, s₁.searchState = _
      rw [hingested.searchState]
      exact hl.active
    · exact isSome_of_dimensions (v := l.store.vec) hingested.dimensions hl.indexed
    · obtain ⟨file, hfile, hrec⟩ := ht d hd
      exact ⟨file, hfile, (sameFor_jobs d.id s₁ _).recordedAs hrec⟩
    · exact hingested.settling (hp.imp_left (hl.settled p))
  | embed hclaim hty hrun => exact (hl.embed hinj hclaim hty hrun).2

theorem LibraryState.Sound.run {ops : List LibraryOp} (h : Run (LibraryStep E contents vector m) l ops l')
    (hinj : ∀ p, Set.InjOn E.hash (contents p)) (hdecode : DecodesMembers E.decodeEmbedPayload)
    (hm : IsI64 m.id) (hl : l.Sound E contents vector m) : l'.Sound E contents vector m :=
  h.invariant (fun _ _ _ _ hstep hl => hstep.sound hinj hdecode hm hl) hl

theorem LibraryState.Sound.all_ok {ops : List LibraryOp} (h : Run (LibraryStep E contents vector m) l ops l')
    (hinj : ∀ p, Set.InjOn E.hash (contents p)) (hdecode : DecodesMembers E.decodeEmbedPayload)
    (hm : IsI64 m.id) (hl : l.Sound E contents vector m) {result : Except AnyError Unit}
    (hop : .embed now result ∈ ops) : result = .ok () := by
  induction h with
  | nil => cases hop
  | @cons l l₁ _ op ops hstep _ ih =>
    rcases List.mem_cons.1 hop with rfl | hop
    · cases hstep with
      | embed hclaim hty hrun => exact (hl.embed hinj hclaim hty hrun).1
    · exact ih (hstep.sound hinj hdecode hm hl) hop

end

/-! ## The library with no embed job left -/

/-- The library is true to the file at the path: its document is, or there is neither. -/
def TrueAt (E : Env) (view : View) (vector : EmbeddingModel → Bytes → Vector32) (m : EmbeddingModel) (s : Store)
    (path : String) : Prop :=
  (∃ d ∈ s.documents.rows, d.filepath = path ∧ (view path).isSome = true ∧
    TrueToFile E view vector m d.id path s) ∨
  view path = none ∧ ∀ d ∈ s.documents.rows, d.filepath ≠ path

/-- A server that was just booted: no documents yet, and nothing asked for but ingests. -/
structure LibraryState.Fresh (contents : String → Set Bytes) (vector : EmbeddingModel → Bytes → Vector32)
    (m : EmbeddingModel) (l : LibraryState) : Prop where
  wellFormed : WellFormed l.store
  fits : Fits vector m l.store
  active : ∃ updatedAt, l.store.searchState = some ⟨m.id, m.dimensions, updatedAt⟩
  indexed : l.store.vec.isSome = true
  documents : l.store.documents.rows = []
  jobs : ∀ e ∈ l.store.jobs.rows, e.jobType ≠ .embedDocument
  files : ∀ p file, l.host.view p = some file → file ∈ contents p
  settled : l.settled = ∅

theorem LibraryState.Fresh.sound {l : LibraryState} (h : l.Fresh contents vector m) :
    l.Sound E contents vector m := by
  have hnone : ∀ d, d ∉ l.store.documents.rows := by
    rw [h.documents]
    exact fun d => List.not_mem_nil
  have hrows : ∀ r, r ∉ l.store.embeddings.rows := by
    intro r hr
    obtain ⟨path, d, hd, -⟩ := h.wellFormed.exists_path hr
    exact hnone d hd
  refine ⟨⟨h.wellFormed, h.fits, fun r hr => absurd hr (hrows r), fun k hk hkind => ?_, fun p hp => ?_⟩,
    h.active, h.indexed, fun d hd => absurd hd (hnone d), h.files, fun d hd => absurd hd (hnone d),
    fun p hp => ?_⟩
  · obtain ⟨e, he, rfl⟩ := mem_asked.1 hk
    exact absurd hkind (h.jobs e he)
  · obtain ⟨r, hr, -⟩ := Store.mem_recoverablePairs.1 hp
    exact absurd hr (hrows r)
  · rw [h.settled] at hp
    exact absurd hp (Set.notMem_empty p)

section idle
variable {l : LibraryState} (hl : l.Sound E contents vector m) (hinj : ∀ p, Set.InjOn E.hash (contents p))
  (hidle : ∀ e ∈ l.store.jobs.rows, e.jobType ≠ .embedDocument)
include hl hinj hidle

/-- A document with the hash of its file is true to it. -/
theorem LibraryState.Sound.trueToFile (hd : d ∈ l.store.documents.rows)
    (hhash : (l.host.view d.filepath).map E.hash = some d.fileHash) :
    TrueToFile E l.host.view vector m d.id d.filepath l.store := by
  have hdone : (d.id, m.id) ∉ l.store.recoverablePairs := by
    intro hp
    obtain ⟨e, he, hkey⟩ := mem_asked.1 (hl.attended.queued _ hp)
    exact hidle e he (congrArg Prod.fst hkey)
  obtain ⟨file, hfile, hhash⟩ := Option.map_eq_some_iff.1 hhash
  obtain ⟨file', hfile', hrec⟩ := hl.truthful d hd
  obtain rfl := hinj _ hfile' (hl.files _ _ hfile) (hrec.hash.symm.trans hhash.symm)
  exact hrec.trueToFile hd hfile hdone

theorem LibraryState.Sound.trueAt (hp : path ∈ l.settled) : TrueAt E l.host.view vector m l.store path := by
  rcases hl.settled path hp with ⟨d, hd, rfl, hwork⟩ | hnone
  · have hhash : (l.host.view d.filepath).map E.hash = some d.fileHash := by
      refine hwork.resolve_left fun hrec => ?_
      obtain ⟨e, he, hkey⟩ := mem_asked.1 (hl.attended.queued _ hrec)
      exact hidle e he (congrArg Prod.fst hkey)
    refine .inl ⟨d, hd, rfl, ?_, hl.trueToFile hinj hidle hd hhash⟩
    obtain ⟨file, hfile, -⟩ := Option.map_eq_some_iff.1 hhash
    rw [hfile]
    rfl
  · exact .inr hnone

/-- Where every path of the library settled, the library is in sync and has the settled files. -/
theorem LibraryState.Sound.inSync (hall : l.store.library ⊆ l.settled) :
    InSync E l.host.view vector m l.store ∧
      l.store.library = {p | p ∈ l.settled ∧ (l.host.view p).isSome = true} := by
  have hsync : InSync E l.host.view vector m l.store := by
    intro d hd
    rcases hl.trueAt hinj hidle (hall ⟨d.id, d, hd, rfl, rfl⟩) with ⟨d', hd', hpath, -, htrue⟩ | ⟨-, hfree⟩
    · rwa [hl.attended.wellFormed.paths d hd d' hd' hpath.symm] at htrue ⊢
    · exact absurd rfl (hfree d hd)
  refine ⟨hsync, Set.ext fun p => ⟨fun hp => ⟨hall hp, ?_⟩, ?_⟩⟩
  · obtain ⟨docId, d, hd, -, rfl⟩ := hp
    obtain ⟨file, hfile, -⟩ := hsync.length_indexedChunks hd
    rw [hfile]
    rfl
  · rintro ⟨hp, hfile⟩
    rcases hl.trueAt hinj hidle hp with ⟨d, hd, hpath, -⟩ | ⟨hnone, -⟩
    · exact ⟨d.id, d, hd, rfl, hpath⟩
    · rw [hnone] at hfile
      cases hfile

end idle

/-- **A library converges to its files**: from a fresh server, in every order of edits, requests, markings
    and jobs, no round over an embed job fails; and whenever the queue holds no embed job, each document
    with the hash of its file is true to it, each path that was taken up or marked since it last changed
    is, and where these are all paths of the library a search answers with the closest files. -/
theorem library_converges {D : Type} [LinearOrder D] [Sub D] [Div D] [OfNat D 0] [OfNat D 1] [OfNat D 2]
    {dist : Bytes → Bytes → D} {search : SearchView D} {query : String} {limit : ℕ} {includeLocation : Bool}
    {l₀ l : LibraryState} {ops : List LibraryOp} (hinj : ∀ p, Set.InjOn E.hash (contents p))
    (hdecode : DecodesMembers E.decodeEmbedPayload) (hm : IsI64 m.id) (hfresh : l₀.Fresh contents vector m)
    (h : Run (LibraryStep E contents vector m) l₀ ops l) :
    (∀ now result, .embed now result ∈ ops → result = .ok ()) ∧
    ((∀ e ∈ l.store.jobs.rows, e.jobType ≠ .embedDocument) →
      (∀ d ∈ l.store.documents.rows, (l.host.view d.filepath).map E.hash = some d.fileHash →
        TrueToFile E l.host.view vector m d.id d.filepath l.store) ∧
      (∀ p ∈ l.settled, TrueAt E l.host.view vector m l.store p) ∧
      (l.store.library ⊆ l.settled → Nearest dist search.matchRows → 0 < limit → limit ≤ 100 →
        search.load = .ok l.store → search.query = .ok l.store →
        ∀ results, searchDocuments search query limit includeLocation = .ok results →
          ∃ queryVector rest, search.embed m [query] = .ok (queryVector :: rest) ∧
            AnswersFrom E l.host.view vector m dist (serializeEmbedding queryVector)
              {p | p ∈ l.settled ∧ (l.host.view p).isSome = true} limit results)) := by
  have hl : l.Sound E contents vector m := hfresh.sound.run h hinj hdecode hm
  refine ⟨fun now result hop => hfresh.sound.all_ok h hinj hdecode hm hop, fun hidle => ⟨?_, ?_, ?_⟩⟩
  · exact fun d hd hhash => hl.trueToFile hinj hidle hd hhash
  · exact fun p hp => hl.trueAt hinj hidle hp
  · intro hall hnear hlimit hmax hload hquery results hresults
    obtain ⟨hsync, hlibrary⟩ := hl.inSync hinj hidle hall
    obtain ⟨updatedAt, hactive⟩ := hl.active
    rw [← hlibrary]
    exact hsync.found hl.attended.wellFormed hl.attended.ofModel hl.attended.fits.mem ⟨_, hactive, rfl⟩ hnear
      hlimit hmax hload hquery hresults

/-! ## A file that is edited -/

/-- What the first run starts with: a model, an index for it, and the job of `/srv`. -/
def convergeStore (s : Store) : Bool :=
  decide ((embeddedModel ∈ s.models.rows ∧ s.searchState = some ⟨1, 1, 0⟩) ∧ s.vec.isSome = true ∧
    (s.vec.all fun v => v.dimensions = 1) = true ∧ s.documents.rows = [] ∧
    ∀ e ∈ s.jobs.rows, e.jobType = .ingestFolder)

/-- The job of `/srv` as it is asked for again. -/
def libraryAgain : JobQueueEntry := ⟨5, .ingestFolder, ingestPayloadJson linkPayload, some 41, 40⟩

/-- The store after a round over an embed job. -/
def playRound (edited : Bool) (s : Store) (now : ℤ) : Option Store :=
  match (claimJob s.jobs now).1 with
  | some entry => if entry.jobType = .embedDocument then playTick syncEnv (libraryOutside edited 20) s now else none
  | none => none

/-- Rounds at these times, one after the other. -/
def playRounds (edited : Bool) : List ℤ → Store → Option Store
  | [], s => some s
  | now :: times, s => (playRound edited s now).bind (playRounds edited times)

/-- A file at a path holds what it holds before or after the edit. -/
def libraryContents (p : String) : Set Bytes := {file | ∃ edited, (libraryHost edited).view p = some file}

theorem injOn_libraryContents (p : String) : Set.InjOn syncEnv.hash (libraryContents p) := by
  have hfiles : ∀ edited, ∀ e ∈ libraryEntries edited,
      e.2 = .dir ∨ ∃ file ∈ sampleHashes.map Prod.fst, e.2 = .file file := by
    decide
  have hmem : ∀ file ∈ libraryContents p, file ∈ sampleHashes.map Prod.fst := by
    rintro file ⟨edited, hview⟩
    unfold Host.view at hview
    split at hview
    · rename_i content hstat
      cases hview
      obtain ⟨names, -, hnode⟩ := Option.bind_eq_some_iff.1 hstat
      obtain ⟨l₁, l₂, heq, -⟩ := List.lookup_eq_some_iff.1 hnode
      have he : (names, Node.file file) ∈ libraryEntries edited := by
        rw [heq]
        exact List.mem_append_right _ List.mem_cons_self
      obtain hdir | ⟨file', hfile', hnode'⟩ := hfiles edited _ he
      · cases hdir
      · cases hnode'
        exact hfile'
    · cases hview
  exact fun a _ b hb h => eq_of_sampleHash (hmem b hb) h

theorem step_of_playRound {edited : Bool} {settled : Set String} {now : ℤ} {s s' : Store}
    (h : playRound edited s now = some s') :
    LibraryStep syncEnv libraryContents (fun _ => sampleVector) embeddedModel ⟨libraryHost edited, s, settled⟩
      (.embed now (.ok ())) ⟨libraryHost edited, s', settled⟩ := by
  unfold playRound at h
  split at h
  · rename_i entry hclaim
    split_ifs at h with hty
    obtain ⟨entry', w, hclaim', hrun, rfl⟩ :=
      @tick_of_playTick syncEnv (fun _ => sampleVector) _ _ _ _ (fun _ _ => rfl) h
    obtain rfl := Option.some.inj (hclaim.symm.trans hclaim')
    exact .embed hclaim hty hrun
  · cases h

theorem run_of_playRounds {edited : Bool} {settled : Set String} : ∀ {times : List ℤ} {s s' : Store},
    playRounds edited times s = some s' →
      Run (LibraryStep syncEnv libraryContents (fun _ => sampleVector) embeddedModel)
        ⟨libraryHost edited, s, settled⟩ (times.map fun now => .embed now (.ok ()))
        ⟨libraryHost edited, s', settled⟩
  | [], _, _, h => by
      cases h
      exact .nil _
  | now :: times, s, s', h => by
      obtain ⟨s₁, hs₁, h⟩ := Option.bind_eq_some_iff.1 h
      exact .cons (step_of_playRound hs₁) (run_of_playRounds h)

/-- A job of `/srv` is claimed and dispatched. -/
theorem step_of_playFolder {edited : Bool} (settled : Set String) {now : ℤ} {entry : JobQueueEntry} {s : Store}
    {w : World} (hclaim : (claimJob s.jobs now).1 = some entry) (hty : entry.jobType = .ingestFolder)
    (hpayload : entry.payload = ingestPayloadJson linkPayload)
    (hw : playFolder edited entry (s.claimed now) = some w)
    (hids : (w.store.documents.rows.all fun d => decide (d.id ∈ [1, 2, 3])) = true) :
    LibraryStep syncEnv libraryContents (fun _ => sampleVector) embeddedModel ⟨libraryHost edited, s, settled⟩
      (.ingest now libraryFiles) ⟨libraryHost edited, w.store, {p | p ∈ settled ∨ p ∈ libraryFiles}⟩ := by
  have hfiles : ∀ edited, (libraryHost edited).jobFiles 0 .ingest linkPayload (fun _ => true) =
      some libraryFiles := by
    decide +kernel
  have hroute : entry.jobType = IngestRoute.ingest.jobType := hty
  have hdecode : syncEnv.decodeIngestPayload entry.payload = .ok linkPayload := by
    rw [hpayload]
    exact decode_link
  have hbounds : ∀ id ∈ [(1 : ℤ), 2, 3], IsI64 id := by
    intro id hid
    simp only [List.mem_cons, List.not_mem_nil, or_false] at hid
    exact ⟨by omega, by omega⟩
  exact .ingest hclaim hroute hdecode match_sync (hfiles edited) (done_of_playFolder hw) fun d hd =>
    hbounds _ (of_decide_eq_true (List.all_eq_true.1 hids d hd))

/-- Three files are ingested and embedded; one is edited, the folder is ingested again, and another file is
    marked stale: then a search for two finds the nearest as they are now. -/
theorem sample_library_converges : ∃ (s : Store) (l : LibraryState) (results : List (SearchDocumentResult ℚ)),
    Run (LibraryStep syncEnv libraryContents (fun _ => sampleVector) embeddedModel) ⟨libraryHost false, s, ∅⟩
      ([.ingest 10 libraryFiles, .embed 30 (.ok ()), .embed 31 (.ok ()), .embed 32 (.ok ()),
        .edit (libraryHost true), .request .ingest (ingestPayloadJson linkPayload) 40, .ingest 41 libraryFiles,
        .embed 60 (.ok ()), .stale [2] 70, .embed 80 (.ok ())]) l ∧
    (∀ p ∈ libraryFiles, TrueAt syncEnv (libraryHost true).view (fun _ => sampleVector) embeddedModel l.store p) ∧
    searchDocuments (sampleSearch l.store) "q" 2 true = .ok results ∧
    results.map (fun x => (x.filepath, x.matchScore)) = [("/srv/b.txt", 37 / 40), ("/srv/a.txt", 0)] ∧
    AnswersFrom syncEnv (libraryHost true).view (fun _ => sampleVector) embeddedModel sampleDist
      (serializeEmbedding (sampleVector (utf8Bytes "q")))
      {p | p ∈ l.settled ∧ ((libraryHost true).view p).isSome = true} 2 results := by
  have hplay : ((callStores syncEnv (libraryCalls.take 3) .empty).any fun s => (convergeStore s &&
      decide ((claimJob s.jobs 10).1 = some libraryEntry)) &&
        (playFolder false libraryEntry (s.claimed 10)).any fun w =>
        (w.store.documents.rows.all fun d => decide (d.id ∈ [1, 2, 3])) &&
          (playRounds false [30, 31, 32] w.store).any fun s₁ =>
            (finish (enqueueJobDb .ingestFolder (ingestPayloadJson linkPayload) 40) s₁).any fun asked =>
              decide ((claimJob asked.2.jobs 41).1 = some libraryAgain) &&
              (playFolder true libraryAgain (asked.2.claimed 41)).any fun w' =>
                (w'.store.documents.rows.all fun d => decide (d.id ∈ [1, 2, 3])) &&
                  (playRounds true [60] w'.store).any fun s₂ =>
                    (finish (markDocumentsStale [2] 70) s₂).any fun marked =>
                      (playRounds true [80] marked.2).any fun s' =>
                        decide (s'.jobs.rows = [] ∧ ∀ d ∈ s'.documents.rows, d.filepath ∈ libraryFiles) &&
                          (searchDocuments (sampleSearch s') "q" 2 true).toOption.any fun results =>
                            decide (results.map (fun x => (x.filepath, x.matchScore)) =
                              [("/srv/b.txt", 37 / 40), ("/srv/a.txt", 0)])) = true := by
    decide +kernel
  obtain ⟨s, hs, hplay⟩ := (Option.any_eq_true _ _).1 hplay
  obtain ⟨hstore, hplay⟩ := Bool.and_eq_true_iff.1 hplay
  obtain ⟨hstore, hclaim⟩ := Bool.and_eq_true_iff.1 hstore
  obtain ⟨w, hw, hplay⟩ := (Option.any_eq_true _ _).1 hplay
  obtain ⟨hids, hplay⟩ := Bool.and_eq_true_iff.1 hplay
  obtain ⟨s₁, hs₁, hplay⟩ := (Option.any_eq_true _ _).1 hplay
  obtain ⟨asked, hasked, hplay⟩ := (Option.any_eq_true _ _).1 hplay
  obtain ⟨hagain, hplay⟩ := Bool.and_eq_true_iff.1 hplay
  obtain ⟨w', hw', hplay⟩ := (Option.any_eq_true _ _).1 hplay
  obtain ⟨hids', hplay⟩ := Bool.and_eq_true_iff.1 hplay
  obtain ⟨s₂, hs₂, hplay⟩ := (Option.any_eq_true _ _).1 hplay
  obtain ⟨marked, hmarked, hplay⟩ := (Option.any_eq_true _ _).1 hplay
  obtain ⟨s', hs', hplay⟩ := (Option.any_eq_true _ _).1 hplay
  obtain ⟨hend, hplay⟩ := Bool.and_eq_true_iff.1 hplay
  obtain ⟨results, hresults, hfound⟩ := (Option.any_eq_true _ _).1 hplay
  obtain ⟨⟨hm, hactive⟩, hvec, hdim, hdocuments, hjobs⟩ := of_decide_eq_true hstore
  obtain ⟨hempty, hpaths⟩ := of_decide_eq_true hend
  have hfresh : (⟨libraryHost false, s, ∅⟩ : LibraryState).Fresh libraryContents (fun _ => sampleVector)
      embeddedModel := by
    refine ⟨wellFormed_run (run_of_callStores hs), ⟨hm, by decide, fun _ => rfl, fun v hv => ?_⟩,
      ⟨0, hactive⟩, hvec, hdocuments, fun e he => ?_, fun p file hfile => ⟨false, hfile⟩, rfl⟩
    · rw [hv, Option.all_some] at hdim
      exact of_decide_eq_true hdim
    · rw [hjobs e he]
      exact JobType.noConfusion
  obtain ⟨settled, hrun, hmem⟩ : ∃ settled, Run (LibraryStep syncEnv libraryContents (fun _ => sampleVector)
      embeddedModel) ⟨libraryHost false, s, ∅⟩
        ([.ingest 10 libraryFiles, .embed 30 (.ok ()), .embed 31 (.ok ()), .embed 32 (.ok ()),
          .edit (libraryHost true), .request .ingest (ingestPayloadJson linkPayload) 40, .ingest 41 libraryFiles,
          .embed 60 (.ok ()), .stale [2] 70, .embed 80 (.ok ())]) ⟨libraryHost true, s', settled⟩ ∧
        ∀ p ∈ libraryFiles, p ∈ settled := by
    have hfirst := step_of_playFolder ∅ (of_decide_eq_true hclaim) rfl rfl hw hids
    have hsecond := fun settled => step_of_playFolder settled (of_decide_eq_true hagain) rfl rfl
      hw' hids'
    have hrequest := fun settled => @LibraryStep.request syncEnv libraryContents (fun _ => sampleVector)
      embeddedModel ⟨libraryHost true, s₁, settled⟩ .ingest _ _ _ (ok_of_finish hasked)
    refine ⟨_, .cons hfirst ((run_of_playRounds hs₁).append (.cons (.edit fun p file hfile => ⟨true, hfile⟩)
      (.cons (hrequest _) (.cons (hsecond _)
        ((run_of_playRounds hs₂).append (.cons (.stale (ok_of_finish hmarked)) (run_of_playRounds hs'))))))),
      fun p hp => .inl (.inr hp)⟩
  have hok : searchDocuments (sampleSearch s') "q" 2 true = .ok results := toOption_eq_some.1 hresults
  obtain ⟨-, hidle⟩ := library_converges (D := ℚ) injOn_libraryContents sampleDecode_decodesMembers
    ⟨by decide, by decide⟩ hfresh hrun
  obtain ⟨-, htrue, hsearch⟩ := hidle fun e he => absurd (hempty ▸ he) List.not_mem_nil
  have hall : s'.library ⊆ settled := by
    rintro _ ⟨docId, d, hd, -, rfl⟩
    exact hmem _ (hpaths d hd)
  obtain ⟨queryVector, rest, hembed, hanswers⟩ :=
    hsearch hall (nearest_sampleSearch s') (show 0 < 2 by decide) (by decide) rfl rfl results hok
  cases hembed
  exact ⟨s, _, results, hrun, fun p hp => htrue p (hmem p hp), hok, of_decide_eq_true hfound, hanswers⟩

end Ask
