/-
  Files ingested one after the other.

  A file that is recorded as it is now is left alone; any other is planned
  anew, and other documents keep what they have.  So after a list of files each
  of them is recorded, and a second pass over the same files does nothing.
-/
import Ask.DrainLaw
import Ask.SeedLaw

namespace Ask

open Lib

variable {E : Env} {view : View} {vector : EmbeddingModel → Bytes → Vector32} {m : EmbeddingModel}
  {s s' : Store} {d doc : Document} {path : String} {paths : List String} {file : Bytes} {docId : ℤ}

/-! ## One file -/

/-- A document as an ingest of its file writes it. -/
structure Snapshot (E : Env) (m : EmbeddingModel) (file : Bytes) (d : Document) : Prop where
  fileType : d.fileType = (extension d.filepath).getD ""
  docCategory : d.docCategory = .resource
  fileSize : d.fileSize = file.length
  fileHash : d.fileHash = E.hash file
  metadataJson : d.metadataJson =
    (planPendingEmbeddingsForReadPlan E.f64 (readContentPrefix file) m).metadataJson

/-- The document at the path is there, with the hash of its file. -/
def Recorded (E : Env) (view : View) (s : Store) (path : String) : Prop :=
  ∃ d ∈ s.documents.rows, d.filepath = path ∧ (view path).map E.hash = some d.fileHash

/-- The file at the path is ingested: its document is upserted with its plan. -/
def IngestsFile (E : Env) (view : View) (m : EmbeddingModel) (s : Store) (path : String) (s' : Store) : Prop :=
  ∃ file doc now v, view path = some file ∧ doc.filepath = path ∧ Snapshot E m file doc ∧
    doc.updatedAt = now ∧
    (upsertDocumentAndReplacePendingEmbeddings doc m.id (planRefs E file m) now).Ok s v s'

/-- A file that was not recorded is planned anew, under some id. -/
structure PlansFile (E : Env) (view : View) (m : EmbeddingModel) (s : Store) (path : String) (file : Bytes)
    (doc : Document) (id now : ℤ) (s₁ s' : Store) : Prop where
  read : view path = some file
  filepath : doc.filepath = path
  snapshot : Snapshot E m file doc
  updatedAt : doc.updatedAt = now
  upserted : (upsertDocumentAndReplacePendingEmbeddings doc m.id (planRefs E file m) now).Ok s (id, true) s'
  ingested : Ingested s doc id m.id (planRefs E file m) now s₁ s'

theorem IngestsFile.cases (hs : WellFormed s) (h : IngestsFile E view m s path s') :
    Recorded E view s path ∧ s' = s ∨
      ¬Recorded E view s path ∧ ∃ file doc id now s₁, PlansFile E view m s path file doc id now s₁ s' := by
  obtain ⟨file, doc, now, ⟨id, changed⟩, hfile, rfl, hsnap, hnow, hok⟩ := h
  obtain ⟨rfl, rfl, d, hd, -, hpath, hhash⟩ | ⟨rfl, s₁, hi⟩ := ok_upsertDocumentAndReplacePendingEmbeddings hok
  · refine .inl ⟨⟨d, hd, hpath, ?_⟩, rfl⟩
    rw [hfile, hhash, hsnap.fileHash]
    rfl
  · refine .inr ⟨?_, file, doc, id, now, s₁, hfile, rfl, hsnap, hnow, hok, hi⟩
    rintro ⟨d, hd, hpath, hhash⟩
    rw [hfile, Option.map_some, Option.some.injEq, ← hsnap.fileHash] at hhash
    obtain ⟨-, hfree, -⟩ | ⟨⟨d₀, hd₀, -, hpath₀, hne⟩, -⟩ := hi.written.case
    · exact hfree d hd hpath
    · rw [hs.paths d hd d₀ hd₀ (hpath.trans hpath₀.symm)] at hhash
      exact hne hhash.symm

/-- The file at the path is planned as it is now, and nothing of it is embedded. -/
structure PlannedFile (E : Env) (view : View) (m : EmbeddingModel) (s : Store) (d : Document) (file : Bytes) :
    Prop where
  document : d ∈ s.documents.rows
  read : view d.filepath = some file
  snapshot : Snapshot E m file d
  rows : ((s.embeddings.rows.filter fun r => r.pair = (d.id, m.id)).map (·.ref)).Perm (planRefs E file m)
  pending : ∀ r ∈ s.embeddings.rows, r.pair = (d.id, m.id) → r.state = .pending ∧ r.embedding = none
  unembedded : ∀ r ∈ s.embeddings.rows, r.documentId = d.id → r.state ≠ .embedded
  unindexed : ∀ r ∈ s.embeddings.rows, r.documentId = d.id → ∀ bytes, (r.id, bytes) ∉ s.vecRows
  queued : embedJobKey (d.id, m.id) ∈ asked s.jobs

theorem PlannedFile.recoverable (h : PlannedFile E view m s d file) : (d.id, m.id) ∈ s.recoverablePairs := by
  have hfilename := h.rows.mem_iff.2 (filename_mem_planned (F := E.f64))
  obtain ⟨r, hr, -⟩ := List.mem_map.1 hfilename
  obtain ⟨hr, hp⟩ := List.mem_filter.1 hr
  have hp := of_decide_eq_true hp
  refine Store.mem_recoverablePairs.2 ⟨r, hr, hp, recoverable_iff.2 ?_⟩
  rw [(h.pending r hr hp).1]
  exact EmbedState.noConfusion

/-- The rows of a document that nothing happened to. -/
theorem SameFor.filter_pair (h : SameFor docId s s') (modelId : ℤ) :
    (s'.embeddings.rows.filter fun r => r.pair = (docId, modelId)) =
      s.embeddings.rows.filter fun r => r.pair = (docId, modelId) := by
  have hnodup : ∀ t : Store, (t.embeddings.rows.filter fun r => decide (r.pair = (docId, modelId))).Nodup := by
    intro t
    refine List.Pairwise.imp ?_ (t.embeddings.sorted.filter _)
    rintro r r' hlt rfl
    exact lt_irrefl _ hlt
  refine List.Perm.eq_of_pairwise (fun r r' _ _ hlt hlt' => absurd (hlt.trans hlt') (lt_irrefl _))
    (s'.embeddings.sorted.filter _) (s.embeddings.sorted.filter _) ?_
  refine (List.perm_ext_iff_of_nodup (hnodup s') (hnodup s)).2 fun r => ?_
  rw [List.mem_filter, List.mem_filter]
  refine and_congr_left fun hp => h.rows r ?_
  exact congrArg Prod.fst (of_decide_eq_true hp)

theorem PlannedFile.of_sameFor (h : PlannedFile E view m s d file) (hsame : SameFor d.id s s')
    (hasked : ∀ k ∈ asked s.jobs, k ∈ asked s'.jobs) : PlannedFile E view m s' d file where
  document := (hsame.documents d rfl).2 h.document
  read := h.read
  snapshot := h.snapshot
  rows := by
    rw [hsame.filter_pair]
    exact h.rows
  pending r hr hp := h.pending r ((hsame.rows r (congrArg Prod.fst hp)).1 hr) hp
  unembedded r hr hid := h.unembedded r ((hsame.rows r hid).1 hr) hid
  unindexed r hr hid bytes hvec := by
    have hr₀ := (hsame.rows r hid).1 hr
    exact h.unindexed r hr₀ hid bytes ((hsame.vectors r hr₀ hid bytes).1 hvec)
  queued := hasked _ h.queued

namespace PlansFile

variable {id now : ℤ} {s₁ : Store} (h : PlansFile E view m s path file doc id now s₁ s')
include h

theorem wellFormed (hs : WellFormed s) : WellFormed s' := wellFormed_upsert h.upserted hs

theorem effect (hs : WellFormed s) : IngestEffect s doc id m.id (planRefs E file m) s' :=
  h.ingested.effect hs (h.wellFormed hs) nodup_planned

theorem plannedFile (hs : WellFormed s) : PlannedFile E view m s' { doc with id := id } file where
  document := (((h.effect hs).document _).2 rfl).1
  read := by
    have hpath := h.filepath
    subst hpath
    exact h.read
  snapshot := ⟨h.snapshot.fileType, h.snapshot.docCategory, h.snapshot.fileSize, h.snapshot.fileHash,
    h.snapshot.metadataJson⟩
  rows := (h.effect hs).rows
  pending := (h.effect hs).pending
  unembedded := (h.effect hs).unembedded
  unindexed r hr hid bytes hvec := (h.effect hs).unindexed (r.id, bytes) hvec r hr rfl hid
  queued := by
    have hrec := new_pair_recoverable (List.ne_nil_of_mem filename_mem_planned) h.upserted
    exact mem_asked.2 (h.ingested.queued _ hrec)

theorem asked_mono {k : JobType × String} (hk : k ∈ asked s.jobs) : k ∈ asked s'.jobs := by
  obtain ⟨e, he, rfl⟩ := mem_asked.1 hk
  obtain ⟨e', he', -, hkey⟩ := h.ingested.seeded.kept e he
  exact mem_asked.2 ⟨e', he', hkey⟩

/-- Documents at other paths have other ids. -/
theorem sameFor (hs : WellFormed s) (hd : d ∈ s.documents.rows) (hne : d.filepath ≠ path) :
    SameFor d.id s s' := by
  refine (h.effect hs).sameFor fun hid => hne ?_
  rw [← h.filepath]
  exact (h.ingested.id_iff hs ⟨d, hd, rfl, rfl⟩).1 hid

end PlansFile

/-! ## Many files -/

/-- The store after some files were ingested: each of them is recorded, those that were not before are
    planned, and every other document is as it was. -/
structure FilesIngested (E : Env) (view : View) (m : EmbeddingModel) (paths : List String) (s s' : Store) :
    Prop where
  wellFormed : WellFormed s'
  models : s'.models = s.models
  searchState : s'.searchState = s.searchState
  dimensions : s'.vec.map (fun v => v.dimensions) = s.vec.map fun v => v.dimensions
  recorded : ∀ p ∈ paths, Recorded E view s' p
  kept : ∀ d ∈ s.documents.rows, (d.filepath ∈ paths → Recorded E view s d.filepath) → SameFor d.id s s'
  ids : ∀ d ∈ s.documents.rows, ∃ d' ∈ s'.documents.rows, d'.id = d.id ∧ d'.filepath = d.filepath
  documents : ∀ d ∈ s'.documents.rows, d ∈ s.documents.rows ∨
    (d.filepath ∈ paths ∧ ¬Recorded E view s d.filepath) ∧ ∃ file, PlannedFile E view m s' d file
  asked : ∀ k ∈ asked s.jobs, k ∈ asked s'.jobs
  otherJobs : ∀ e ∈ s.jobs.rows, e.jobType ≠ .embedDocument → e ∈ s'.jobs.rows

theorem FilesIngested.refl (hs : WellFormed s) (hrec : ∀ p ∈ paths, Recorded E view s p) :
    FilesIngested E view m paths s s where
  wellFormed := hs
  models := rfl
  searchState := rfl
  dimensions := rfl
  recorded := hrec
  kept d _ _ := .refl d.id s
  ids d hd := ⟨d, hd, rfl, rfl⟩
  documents _ hd := .inl hd
  asked _ hk := hk
  otherJobs _ he _ := he

theorem PlansFile.filesIngested {id now : ℤ} {s₁ : Store}
    (h : PlansFile E view m s path file doc id now s₁ s') (hs : WellFormed s)
    (hnew : ¬Recorded E view s path) : FilesIngested E view m [path] s s' where
  wellFormed := h.wellFormed hs
  models := h.ingested.models
  searchState := h.ingested.searchState
  dimensions := h.ingested.dimensions_catalog
  recorded p hp := by
    obtain rfl := List.mem_singleton.1 hp
    have hplanned := h.plannedFile hs
    refine ⟨_, hplanned.document, h.filepath, ?_⟩
    rw [h.read, hplanned.snapshot.fileHash]
    rfl
  kept d hd hout := by
    refine h.sameFor hs hd fun hpath => hnew ?_
    rw [← hpath]
    exact hout (List.mem_singleton.2 hpath)
  ids d hd := h.ingested.pathOf_mono hs ⟨d, hd, rfl, rfl⟩
  documents d hd := by
    by_cases hpath : d.filepath = path
    · right
      obtain rfl := ((h.effect hs).document d).1 ⟨hd, hpath.trans h.filepath.symm⟩
      refine ⟨⟨List.mem_singleton.2 hpath, ?_⟩, file, h.plannedFile hs⟩
      exact fun hrec => hnew (hpath ▸ hrec)
    · left
      have hid : d.id ≠ id := by
        intro hid
        have hp : s'.PathOf id d.filepath := ⟨d, hd, hid, rfl⟩
        have hp' : s'.PathOf id doc.filepath := h.ingested.pathOf.2 (.inl ⟨rfl, rfl⟩)
        exact hpath ((hp.path_unique hp').trans h.filepath)
      exact ((h.effect hs).otherDocuments d hid).1 hd
  asked _ hk := h.asked_mono hk
  otherJobs := h.ingested.seeded.other

theorem IngestsFile.filesIngested (h : IngestsFile E view m s path s') (hs : WellFormed s) :
    FilesIngested E view m [path] s s' := by
  obtain ⟨hrec, rfl⟩ | ⟨hnew, file, doc, id, now, s₁, hplans⟩ := h.cases hs
  · refine .refl hs fun p hp => ?_
    rwa [List.mem_singleton.1 hp]
  · exact hplans.filesIngested hs hnew

namespace FilesIngested

variable {s₁ : Store} {paths' : List String} (h : FilesIngested E view m paths s s₁)
include h

/-- What was recorded stays recorded. -/
theorem recorded_mono (hrec : Recorded E view s path) : Recorded E view s₁ path := by
  obtain ⟨d, hd, rfl, hhash⟩ := hrec
  have hsame := h.kept d hd fun _ => ⟨d, hd, rfl, hhash⟩
  exact ⟨d, (hsame.documents d rfl).2 hd, rfl, hhash⟩

theorem append (h' : FilesIngested E view m paths' s₁ s') : FilesIngested E view m (paths ++ paths') s s' where
  wellFormed := h'.wellFormed
  models := h'.models.trans h.models
  searchState := h'.searchState.trans h.searchState
  dimensions := h'.dimensions.trans h.dimensions
  recorded p hp := by
    obtain hp | hp := List.mem_append.1 hp
    · exact h'.recorded_mono (h.recorded p hp)
    · exact h'.recorded p hp
  kept d hd hout := by
    have hsame := h.kept d hd fun hp => hout (List.mem_append_left _ hp)
    refine hsame.trans (h'.kept d ((hsame.documents d rfl).2 hd) fun hp => ?_)
    exact h.recorded_mono (hout (List.mem_append_right _ hp))
  ids d hd := by
    obtain ⟨d₁, hd₁, hid₁, hpath₁⟩ := h.ids d hd
    obtain ⟨d', hd', hid', hpath'⟩ := h'.ids d₁ hd₁
    exact ⟨d', hd', hid'.trans hid₁, hpath'.trans hpath₁⟩
  documents d hd := by
    obtain hd₁ | ⟨⟨hp, hnew⟩, hplanned⟩ := h'.documents d hd
    · obtain hd₀ | ⟨⟨hp, hnew⟩, file, hplanned⟩ := h.documents d hd₁
      · exact .inl hd₀
      · -- the second pass leaves what the first has planned
        have hsame := h'.kept d hd₁ fun _ => h.recorded _ hp
        exact .inr ⟨⟨List.mem_append_left _ hp, hnew⟩, file, hplanned.of_sameFor hsame h'.asked⟩
    · exact .inr ⟨⟨List.mem_append_right _ hp, mt h.recorded_mono hnew⟩, hplanned⟩
  asked k hk := h'.asked k (h.asked k hk)
  otherJobs e he hty := h'.otherJobs e (h.otherJobs e he hty) hty

end FilesIngested

theorem filesIngested_run (h : Run (IngestsFile E view m) s paths s') (hs : WellFormed s) :
    FilesIngested E view m paths s s' := by
  induction h with
  | nil => exact .refl hs fun p hp => absurd hp List.not_mem_nil
  | cons hstep _ ih =>
    have hfirst := hstep.filesIngested hs
    exact hfirst.append (ih hfirst.wellFormed)

/-- Files that are recorded as they are now are all left alone. -/
theorem idle_of_recorded (h : Run (IngestsFile E view m) s paths s') (hs : WellFormed s)
    (hrec : ∀ p ∈ paths, Recorded E view s p) : s' = s := by
  induction h with
  | nil => rfl
  | cons hstep _ ih =>
    obtain ⟨-, rfl⟩ | ⟨hnew, -⟩ := hstep.cases hs
    · exact ih hs fun p hp => hrec p (List.mem_cons_of_mem _ hp)
    · exact absurd (hrec _ List.mem_cons_self) hnew

/-! ## The job of the files -/

section
variable {entry : JobQueueEntry} (hentry : entry ∈ s.jobs.rows) (hty : entry.jobType ≠ .embedDocument)
include hentry hty

omit hentry in
theorem embedJobKey_ne (p : Pair) : embedJobKey p ≠ entry.uniqueKey :=
  fun hkey => hty (congrArg Prod.fst hkey).symm

theorem FilesIngested.completed (h : FilesIngested E view m paths s s') :
    FilesIngested E view m paths { s with jobs := completeJob s.jobs entry.id }
      { s' with jobs := completeJob s'.jobs entry.id } where
  wellFormed := h.wellFormed.completed _
  models := h.models
  searchState := h.searchState
  dimensions := h.dimensions
  recorded := h.recorded
  kept d hd hout := by
    have hsame := h.kept d hd hout
    exact ⟨hsame.documents, hsame.rows, hsame.vectors⟩
  ids := h.ids
  documents d hd := by
    refine (h.documents d hd).imp_right fun ⟨hnew, file, hp⟩ => ⟨hnew, file, ?_⟩
    refine { hp with queued := ?_ }
    rw [mem_asked_completeJob (h.otherJobs entry hentry hty)]
    exact ⟨hp.queued, embedJobKey_ne hty _⟩
  asked k hk := by
    rw [mem_asked_completeJob hentry] at hk
    rw [mem_asked_completeJob (h.otherJobs entry hentry hty)]
    exact ⟨h.asked k hk.1, hk.2⟩
  otherJobs e he hne := by
    obtain ⟨he, hid⟩ := mem_completeJob.1 he
    exact mem_completeJob.2 ⟨h.otherJobs e he hne, hid⟩

omit hentry in
/-- Work left is attended to whether or not the job of the files is there. -/
theorem Attended.of_completed (hs : WellFormed s)
    (h : Attended E vector m { s with jobs := completeJob s.jobs entry.id }) (hentry : entry ∈ s.jobs.rows) :
    Attended E vector m s where
  wellFormed := hs
  fits := ⟨h.fits.mem, h.fits.dimensions, h.fits.length, h.fits.index⟩
  ofModel := h.ofModel
  jobs k hk hkind := by
    refine h.jobs k ((mem_asked_completeJob hentry).2 ⟨hk, fun heq => hty ?_⟩) hkind
    rw [heq] at hkind
    exact hkind
  queued p hp := ((mem_asked_completeJob hentry).1 (h.queued p hp)).1

theorem Attended.completed (h : Attended E vector m s) :
    Attended E vector m { s with jobs := completeJob s.jobs entry.id } where
  wellFormed := h.wellFormed.completed _
  fits := ⟨h.fits.mem, h.fits.dimensions, h.fits.length, h.fits.index⟩
  ofModel := h.ofModel
  jobs k hk := h.jobs k ((mem_asked_completeJob hentry).1 hk).1
  queued p hp := (mem_asked_completeJob hentry).2 ⟨h.queued p hp, embedJobKey_ne hty p⟩

omit hentry hty in
/-- Work left is attended to when a file was planned. -/
theorem PlansFile.attended {id now : ℤ} {s₁ : Store} (h : PlansFile E view m s path file doc id now s₁ s')
    (hdecode : DecodesMembers E.decodeEmbedPayload) (hids : ∀ d ∈ s'.documents.rows, IsI64 d.id) (hm : IsI64 m.id)
    (ha : Attended E vector m s) : Attended E vector m s' := by
  have hs := ha.wellFormed
  refine ⟨h.wellFormed hs, ?_, h.ingested.ofModel hs.foreignKeys ha.ofModel, fun k hk hkind => ?_, fun p hp => ?_⟩
  · exact ha.fits.of_same h.ingested.models h.ingested.dimensions_catalog
  · obtain hk | ⟨p, hp, rfl⟩ := asked_of_upsert hs h.upserted hk
    · exact ha.jobs k hk hkind
    · -- the pairs seeded for are of documents that are there now
      obtain ⟨docId, rfl, hdoc⟩ : ∃ docId, p = (docId, m.id) ∧ IsI64 docId := by
        obtain ⟨r, hr, rfl, -⟩ | ⟨rfl, -⟩ := hp
        · obtain ⟨path', hpath'⟩ := hs.exists_path hr
          obtain ⟨d, hd, hid, -⟩ := h.ingested.pathOf_mono hs hpath'
          refine ⟨r.documentId, ?_, hid ▸ hids d hd⟩
          rw [← ha.ofModel r hr]
          rfl
        · exact ⟨id, rfl, hids _ (h.plannedFile hs).document⟩
      exact ⟨docId, rfl, hdecode _ _ _ hdoc hm (.inl (readObject_embedPayloadJson (docId, m.id)))⟩
  · exact mem_asked.2 (h.ingested.queued p hp)

/-- What drains but for the job of the files still does when one of them was planned. -/
theorem PlansFile.drainable {id now : ℤ} {s₁ : Store} (h : PlansFile E view m s path file doc id now s₁ s')
    (hs : WellFormed s) (hdecode : DecodesMembers E.decodeEmbedPayload)
    (hids : ∀ d ∈ s'.documents.rows, IsI64 d.id) (hm : IsI64 m.id)
    (hdrains : Drainable E view vector m { s with jobs := completeJob s.jobs entry.id }) :
    Drainable E view vector m { s' with jobs := completeJob s'.jobs entry.id } := by
  have hentry' : entry ∈ s'.jobs.rows := h.ingested.seeded.other entry hentry hty
  have hattended : Attended E vector m s := hdrains.attended.of_completed hty hs hentry
  have ha := (h.attended hdecode hids hm hattended).completed hentry' hty
  refine ⟨ha.wellFormed, ha.fits, ha.ofModel, ?_, fun k hk => ?_, ha.queued⟩
  · intro d hd file' hfile' hhash'
    by_cases hid : d.id = id
    · have hnew : { doc with id := id } ∈ s'.documents.rows := (h.plannedFile hs).document
      obtain rfl := AutoTable.eq_of_key hd hnew hid
      obtain rfl := Option.some.inj ((h.plannedFile hs).read.symm.trans hfile')
      exact .inr (h.ingested.refsOf_self nodup_planned)
    · have hold := ((h.effect hs).otherDocuments d hid).1 hd
      refine (hdrains.planned d hold file' hfile' hhash').congr ?_
      exact h.ingested.refsOf_of_ne hs.foreignKeys fun hp => hid (congrArg Prod.fst hp)
  · refine ha.jobs k hk ?_
    obtain ⟨hk, hne⟩ := (mem_asked_completeJob hentry').1 hk
    obtain hk | ⟨p, -, rfl⟩ := asked_of_upsert hs h.upserted hk
    · obtain ⟨docId, rfl, -⟩ := hdrains.jobs k ((mem_asked_completeJob hentry).2 ⟨hk, hne⟩)
      rfl
    · rfl

omit hentry hty in
/-- Work left is attended to after any files. -/
theorem Attended.ingested (h : Run (IngestsFile E view m) s paths s') (ha : Attended E vector m s)
    (hdecode : DecodesMembers E.decodeEmbedPayload) (hids : ∀ d ∈ s'.documents.rows, IsI64 d.id)
    (hm : IsI64 m.id) : Attended E vector m s' := by
  induction h with
  | nil => exact ha
  | cons hstep hrun ih =>
    refine ih ?_ hids
    obtain ⟨-, rfl⟩ | ⟨-, file, doc, id, now, s₂, hplans⟩ := hstep.cases ha.wellFormed
    · exact ha
    · refine hplans.attended hdecode (fun d hd => ?_) hm ha
      obtain ⟨d', hd', hid, -⟩ := (filesIngested_run hrun (hplans.wellFormed ha.wellFormed)).ids d hd
      exact hid ▸ hids d' hd'

/-- What drains but for the job of the files still does after them. -/
theorem drainable_run (h : Run (IngestsFile E view m) s paths s') (hs : WellFormed s)
    (hdecode : DecodesMembers E.decodeEmbedPayload) (hids : ∀ d ∈ s'.documents.rows, IsI64 d.id)
    (hm : IsI64 m.id) (hdrains : Drainable E view vector m { s with jobs := completeJob s.jobs entry.id }) :
    Drainable E view vector m { s' with jobs := completeJob s'.jobs entry.id } := by
  induction h with
  | nil => exact hdrains
  | @cons s s₁ _ path _ hstep hrun ih =>
    have hfirst := hstep.filesIngested hs
    refine ih (hfirst.otherJobs entry hentry hty) hfirst.wellFormed hids ?_
    obtain ⟨-, rfl⟩ | ⟨hnew, file, doc, id, now, s₂, hplans⟩ := hstep.cases hs
    · exact hdrains
    · refine hplans.drainable hentry hty hs hdecode (fun d hd => ?_) hm hdrains
      obtain ⟨d', hd', hid, -⟩ := (filesIngested_run hrun hfirst.wellFormed).ids d hd
      exact hid ▸ hids d' hd'

end

end Ask
