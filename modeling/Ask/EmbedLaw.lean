/-
  What the dispatch of one embed job does when it works, with nobody else
  around: it plans the document again, or embeds the pair.
-/
import Ask.FrameLaw
import Ask.FreshLaw

namespace Ask

open Lib Act

variable {E : Env} {view : View} {mayFail : Prop} {entry : JobQueueEntry} {α : Type} {w w' : World}
  {s s' : Store} {d : Document} {m : EmbeddingModel} {file : Bytes} {modelId : ℤ}
  {step : World → (r : Req) → r.Ans → World → Prop}

/-- The provider answers a list of inputs with the list of their vectors. -/
def EmbedsEach (vector : EmbeddingModel → Bytes → Vector32) : (r : Req) → r.Ans → Prop
  | .embed model inputs, a => ∀ vectors, a = .ok vectors → vectors = inputs.map (vector model)
  | _, _ => True

/-! ## Runs that end well -/

@[simp] theorem done_context {p : Act α} {text : String} {a : α} :
    Task.Done step (context text p) w a w' ↔ Task.Done step p w a w' := Task.done_mapError

@[simp] theorem done_someOr {text : String} {x : Option α} {a : α} :
    Task.Done step (someOr text x) w a w' ↔ x = some a ∧ w = w' := by
  cases x with
  | none => simp [someOr]
  | some b => simp [someOr]

/-- The rest of the handler, when it has loaded the document and the model. -/
def embedLoaded (E : Env) (entry : JobQueueEntry) (document : Document) (model : EmbeddingModel) :
    Act Unit := do
  match ← tryMetadata document.filepath with
  | .ok _ => embedFile E entry document model
  | .error err =>
    if err.notFound then do
      context s!"failed to acquire connection to delete missing document {document.id}" connect
      context s!"failed to delete missing document {document.id}" (db (.deleteDocument document.id))
    else
      context s!"failed to read document metadata from {document.filepath}" (Task.fail err.toAny)

variable (hstep : ∀ {w r a w'}, step w r a w' → Answers view mayFail w r a w')
include hstep

theorem done_connect {u : Unit} (h : Task.Done step connect w u w') : w' = w := by
  obtain ⟨a, w₁, hask, hres⟩ := Task.done_bind.1 h
  obtain ⟨-, rfl⟩ := Task.done_ofExcept.1 hres
  exact (hstep (Task.done_ask.1 hask)).1

theorem done_db {op : DbReq} {v : op.Val} (h : Task.Done step (db op) w v w') :
    op.run.Ok w.store v w'.store := by
  obtain ⟨a, w₁, hask, hres⟩ := Task.done_bind.1 h
  obtain ⟨rfl, rfl⟩ := Task.done_ofExcept.1 hres
  obtain ⟨v', store, hv, hok, rfl⟩ | ⟨-, -, e, he, -⟩ := hstep (Task.done_ask.1 hask)
  · cases hv
    exact hok
  · cases he

theorem done_unixNow {t : ℤ} (h : Task.Done step unixNow w t w') : w' = w := hstep (Task.done_ask.1 h)

/-- A part without database accesses leaves the store, and its value is one the part can yield. -/
theorem done_file {p : Act α} {V : Except AnyError α → Prop} {a : α} (hp : Task.Calls FileReq p)
    (hv : ∀ entry, Yields E view mayFail Alone entry p V) (h : Task.Done step p w a w') :
    w'.store = w.store ∧ V (.ok a) := by
  have hI : Stable Alone fun w₁ => w₁.store = w.store := fun w₁ w₂ h₁₂ h₁ => h₁₂.1.trans h₁
  have hsat := (sat_file admissible_alone hI hp rfl).and (hv ⟨0, .embedDocument, "", none, 0⟩ w)
  exact (Proc.Runs.sat admissible_alone.refl hstep h hsat).2

/-! ## One dispatch -/

/-- A dispatch that works runs its handler, then removes the job. -/
theorem done_dispatchJob (hty : entry.jobType = .embedDocument)
    (h : Task.Done step (dispatchJob E entry modelId) w () w') :
    ∃ w₁, Task.Done step (embedDocumentProcess E ⟨entry, modelId⟩) w () w₁ ∧
      w'.store = { w₁.store with jobs := completeJob w₁.store.jobs entry.id } := by
  rw [dispatchJob_eq, hty, Task.done_andThen] at h
  obtain ⟨x, w₁, hrun, hfin⟩ := h
  cases x with
  | ok u =>
    refine ⟨w₁, hrun, ?_⟩
    obtain ⟨_, w₂, hconn, hdb⟩ := Task.done_bind.1 hfin
    obtain rfl := done_connect hstep (done_context.1 hconn)
    exact ok_exec_ok.1 (done_db hstep (done_context.1 hdb))
  | error err =>
    exfalso
    dsimp only [finishJob] at hfin
    split at hfin
    · simp at hfin
    · exact Task.done_fail hfin

/-- The handler finds no document and completes its job, or it goes on with the document and its model. -/
theorem done_loaded (hdecode : E.decodeEmbedPayload entry.payload = .ok ⟨docId, m.id⟩)
    (hm : m ∈ w.store.models.rows)
    (h : Task.Done step (embedDocumentProcess E ⟨entry, modelId⟩) w () w') :
    (w.store.documents.get? docId = none ∧
      w'.store = { w.store with jobs := completeJob w.store.jobs entry.id }) ∨
    ∃ d ∈ w.store.documents.rows, d.id = docId ∧ ∃ w₁, w₁.store = w.store ∧
      Task.Done step (embedLoaded E entry d m) w₁ () w' := by
  unfold embedDocumentProcess at h
  obtain ⟨payload, w₁, hload, h1⟩ := Task.done_bind.1 h
  obtain ⟨hpayload, rfl⟩ := Task.done_ofExcept.1 (done_context.1 hload)
  obtain rfl := Except.ok.inj (hdecode.symm.trans hpayload)
  obtain ⟨_, w₂, hconn, h2⟩ := Task.done_bind.1 h1
  obtain rfl := done_connect hstep (done_context.1 hconn)
  obtain ⟨found, w₃, hfind, h3⟩ := Task.done_bind.1 h2
  obtain ⟨hget, hsame⟩ := Tx.ok_query.1 (done_db hstep hfind)
  obtain rfl := Except.ok.inj hget
  cases hfound : w₂.store.documents.get? docId with
  | none =>
    rw [hfound] at h3
    refine .inl ⟨rfl, ?_⟩
    rw [ok_exec_ok.1 (done_db hstep (done_context.1 h3)), ← hsame]
  | some d =>
    rw [hfound] at h3
    obtain ⟨hd, hid⟩ := AutoTable.get?_eq_some.1 hfound
    obtain ⟨found, w₄, hfind', h4⟩ := Task.done_bind.1 h3
    obtain ⟨hget', hsame'⟩ := Tx.ok_query.1 (done_db hstep hfind')
    obtain rfl := Except.ok.inj hget'
    rw [← hsame, AutoTable.get?_eq_some.2 ⟨hm, rfl⟩] at h4
    obtain ⟨model, w₅, hsome, h5⟩ := Task.done_bind.1 h4
    obtain ⟨hmodel, rfl⟩ := done_someOr.1 hsome
    obtain rfl := Option.some.inj hmodel
    exact .inr ⟨d, hd, hid, w₄, hsame'.symm.trans hsame.symm, h5⟩

/-- With the pair and the file there, the handler goes on to the file. -/
theorem done_embedDocumentProcess (hdecode : E.decodeEmbedPayload entry.payload = .ok ⟨d.id, m.id⟩)
    (hd : d ∈ w.store.documents.rows) (hm : m ∈ w.store.models.rows)
    (hfile : view d.filepath = some file)
    (h : Task.Done step (embedDocumentProcess E ⟨entry, modelId⟩) w () w') :
    ∃ w₁, w₁.store = w.store ∧ Task.Done step (embedFile E entry d m) w₁ () w' := by
  obtain ⟨hnone, -⟩ | ⟨d', hd', hid, w₁, hs₁, h1⟩ := done_loaded hstep hdecode hm h
  · rw [AutoTable.get?_eq_some.2 ⟨hd, rfl⟩] at hnone
    cases hnone
  obtain rfl := AutoTable.eq_of_key hd' hd hid
  obtain ⟨answer, w₂, hmeta, h2⟩ := Task.done_bind.1 h1
  obtain ⟨rfl, hcase⟩ := hstep (Task.done_ask.1 hmeta)
  refine ⟨w₂, hs₁, ?_⟩
  obtain ⟨_, _, -, rfl, -⟩ | ⟨hnone, -⟩ | ⟨-, e, rfl, hnot⟩ := hcase
  · exact h2
  · rw [hfile] at hnone
    cases hnone
  · dsimp only at h2
    rw [hnot] at h2
    simp at h2

theorem done_hashFile {path x : String} (h : Task.Done step (hashFile E path) w x w') :
    w'.store = w.store ∧ ∃ file, view path = some file ∧ x = E.hash file :=
  done_file hstep (calls_hashFile E path) (fun _ => yields_hashFile path) h

/-! ## Planned again -/

theorem done_replanDocumentFromPath {now : ℤ} {u : Unit} (hfile : view d.filepath = some file)
    (h : Task.Done step (replanDocumentFromPath E d m now) w u w') :
    ∃ fileModifiedAt fileSize metadataJson v,
      (upsertDocumentAndReplacePendingEmbeddings
        { d with
          fileModifiedAt := fileModifiedAt, fileSize := fileSize, fileHash := E.hash file,
          metadataJson := metadataJson, updatedAt := now }
        m.id (planRefs E file m) now).Ok w.store v w'.store := by
  unfold replanDocumentFromPath at h
  obtain ⟨metadata, w₁, hmeta, h1⟩ := Task.done_bind.1 h
  obtain ⟨hs₁, -⟩ := done_file (E := E) hstep (calls_context (calls_metadata _))
    (fun _ => yields_any (calls_context (calls_metadata _))) hmeta
  obtain ⟨fileHash, w₂, hhash, h2⟩ := Task.done_bind.1 h1
  obtain ⟨hs₂, file', hfile', rfl⟩ := done_hashFile hstep (done_context.1 hhash)
  obtain rfl := Option.some.inj (hfile.symm.trans hfile')
  obtain ⟨contentPlan, w₃, hread, h3⟩ := Task.done_bind.1 h2
  obtain ⟨hs₃, file', hfile', rfl⟩ := done_file (E := E) hstep
    (calls_readPrefixWithBudget _ _) (fun _ => yields_readPrefixWithBudget _ _) (done_context.1 hread)
  obtain rfl := Option.some.inj (hfile.symm.trans hfile')
  obtain ⟨v, w₄, hdb, h4⟩ := Task.done_bind.1 h3
  obtain ⟨-, rfl⟩ := Task.done_pure.1 h4
  have hok := done_db hstep hdb
  rw [hs₃, hs₂, hs₁] at hok
  exact ⟨_, _, _, v, hok⟩

/-- With another hash the handler removes its job and plans the document again. -/
theorem done_embedFile_replan (hfile : view d.filepath = some file) (hhash : E.hash file ≠ d.fileHash)
    (h : Task.Done step (embedFile E entry d m) w () w') :
    ∃ now fileModifiedAt fileSize metadataJson v,
      (upsertDocumentAndReplacePendingEmbeddings
        { d with
          fileModifiedAt := fileModifiedAt, fileSize := fileSize, fileHash := E.hash file,
          metadataJson := metadataJson, updatedAt := now }
        m.id (planRefs E file m) now).Ok
        { w.store with jobs := completeJob w.store.jobs entry.id } v w'.store := by
  unfold embedFile at h
  obtain ⟨currentHash, w₁, hcurrent, h1⟩ := Task.done_bind.1 h
  obtain ⟨hs₁, file', hfile', rfl⟩ := done_hashFile hstep (done_context.1 hcurrent)
  obtain rfl := Option.some.inj (hfile.symm.trans hfile')
  rw [if_pos hhash] at h1
  obtain ⟨_, w₂, hconn, h2⟩ := Task.done_bind.1 h1
  obtain rfl := done_connect hstep (done_context.1 hconn)
  obtain ⟨_, w₃, hdone, h3⟩ := Task.done_bind.1 h2
  have hs₃ := ok_exec_ok.1 (done_db hstep (done_context.1 hdone))
  obtain ⟨now, w₄, hnow, h4⟩ := Task.done_bind.1 h3
  obtain rfl := done_unixNow hstep hnow
  have hreplan := done_replanDocumentFromPath hstep hfile (done_context.1 h4)
  rw [hs₃, hs₁] at hreplan
  exact ⟨now, hreplan⟩

omit hstep

/-- The store after a document was planned again for a model: its hash is that of the file, its rows
    are the plan's, all of them pending, and one new job waits for them. -/
structure Replanned (E : Env) (file : Bytes) (d : Document) (m : EmbeddingModel) (entry : JobQueueEntry)
    (s' : Store) : Prop where
  gone : ∀ e ∈ s'.jobs.rows, e.id ≠ entry.id
  queued : ∃ e, e.id ≠ entry.id ∧ e.claimedAt = none ∧ ∀ e', e' ∈ s'.jobs.rows ∧
    e'.jobType = .embedDocument ∧ e'.payload = embedPayloadJson (d.id, m.id) ↔ e' = e
  document : ∃ d' ∈ s'.documents.rows, d'.id = d.id ∧ d'.filepath = d.filepath ∧
    d'.fileHash = E.hash file
  rows : ((s'.embeddings.rows.filter fun r => r.pair = (d.id, m.id)).map (·.ref)).Perm
    (planRefs E file m)
  pending : ∀ r ∈ s'.embeddings.rows, r.pair = (d.id, m.id) → r.state = .pending ∧ r.embedding = none

/-- A document with a new hash is written under the id it has. -/
theorem DocumentWritten.id_eq {doc : Document} {id : ℤ} (h : DocumentWritten s doc id s')
    (hpaths : ∀ d ∈ s.documents.rows, ∀ d' ∈ s.documents.rows, d.filepath = d'.filepath → d = d')
    (hd : d ∈ s.documents.rows) (hpath : doc.filepath = d.filepath) : id = d.id := by
  obtain ⟨-, hfree, -⟩ | ⟨⟨d', hd', hid, hpath', -⟩, -⟩ := h.case
  · exact absurd hpath.symm (hfree d hd)
  · rw [← hid, hpaths d' hd' d hd (hpath'.trans hpath)]

theorem replanned_of_ok {doc : Document} {now : ℤ} {v : ℤ × Bool} (hs : WellFormed s)
    (hmem : entry ∈ s.jobs.rows) (hkey : entry.uniqueKey = embedJobKey (d.id, m.id))
    (hd : d ∈ s.documents.rows) (hpath : doc.filepath = d.filepath) (hhash : doc.fileHash = E.hash file)
    (hne : E.hash file ≠ d.fileHash)
    (h : (upsertDocumentAndReplacePendingEmbeddings doc m.id (planRefs E file m) now).Ok
      { s with jobs := completeJob s.jobs entry.id } v s') :
    Replanned E file d m entry { s' with jobs := completeJob s'.jobs entry.id } := by
  have hcomplete : (DbReq.completeJob entry.id).run.Ok s ()
      { s with jobs := completeJob s.jobs entry.id } := ok_exec_ok.2 rfl
  have hremoved := wellFormed_of_ok hcomplete hs
  have hfree : ∀ e ∈ (completeJob s.jobs entry.id).rows, e.uniqueKey ≠ embedJobKey (d.id, m.id) := by
    intro e he hk
    obtain ⟨he, hid⟩ := mem_completeJob.1 he
    exact hid (by rw [AutoTable.eq_of_index he hmem (hk.trans hkey.symm)])
  obtain ⟨id, changed⟩ := v
  cases changed with
  | false =>
    obtain ⟨-, d', hd', -, hpath', hhash'⟩ := ok_upsert_unchanged h
    rw [hs.paths d' hd' d hd (hpath'.trans hpath)] at hhash'
    exact absurd (hhash'.trans hhash).symm hne
  | true =>
    obtain ⟨s₁, hi, hq, hq₁⟩ := seededWith_upsert h
    obtain rfl := hi.written.id_eq hs.paths hd hpath
    have heffect := hi.effect hremoved (wellFormed_upsert h hremoved) nodup_planned
    -- what seeding added has new ids
    have hgone : ∀ e ∈ s'.jobs.rows, e.id ≠ entry.id := by
      intro e he hid
      obtain ⟨e₀, he₀, hid₀, -⟩ := hi.seeded.old e he (hid ▸ s.jobs.le_seq entry hmem)
      exact (mem_completeJob.1 he₀).2 (hid₀.trans hid)
    have hjobs : ∀ e, e ∈ (completeJob s'.jobs entry.id).rows ↔ e ∈ s'.jobs.rows := by
      intro e
      rw [mem_completeJob]
      exact ⟨And.left, fun he => ⟨he, hgone e he⟩⟩
    have hrow : (d.id, m.id) ∈ s'.recoverablePairs := by
      obtain ⟨r, hr, -⟩ := List.mem_map.1 (heffect.rows.mem_iff.2 filename_mem_planned)
      obtain ⟨hr, hp⟩ := List.mem_filter.1 hr
      refine Store.mem_recoverablePairs.2 ⟨r, hr, of_decide_eq_true hp, ?_⟩
      rw [recoverable_iff, (heffect.pending r hr (of_decide_eq_true hp)).1]
      exact EmbedState.noConfusion
    have hunclaimed : ∀ e ∈ s'.jobs.rows, e.uniqueKey = embedJobKey (d.id, m.id) → e.claimedAt = none := by
      have hstart : ∀ e ∈ (completeJob s.jobs entry.id).rows, e.uniqueKey = embedJobKey (d.id, m.id) →
          e.claimedAt = none := fun e he hk => absurd hk (hfree e he)
      refine hq.unclaimed ?_
      obtain ⟨hsame, -⟩ | hq₁ := hq₁
      · rwa [hsame]
      · exact hq₁.unclaimed hstart
    refine ⟨?_, ?_, ?_, heffect.rows, heffect.pending⟩
    · intro e he
      exact hgone e ((hjobs e).1 he)
    · obtain ⟨e, ⟨he, hty, hpayload⟩, huniq⟩ := heffect.queued _ hrow
      refine ⟨e, hgone e he, hunclaimed e he (Prod.ext hty hpayload), ?_⟩
      intro e'
      constructor
      · rintro ⟨he', hrest⟩
        exact huniq e' ⟨(hjobs e').1 he', hrest⟩
      · rintro rfl
        exact ⟨(hjobs e').2 he, hty, hpayload⟩
    · exact ⟨_, ((heffect.document _).2 rfl).1, rfl, hpath, hhash⟩

/-- **A changed file is planned again**: when the dispatch of a claimed job works and the file has
    another hash than the one recorded, the job is gone, one new job waits for the pair, and the
    pair's rows are the plan of the file as it is. -/
theorem hash_mismatch_replans {calls : List EmbedCall} {planned : List Pair} (hs : WellFormed s)
    (hmem : entry ∈ s.jobs.rows) (hty : entry.jobType = .embedDocument)
    (hpayload : entry.payload = embedPayloadJson (d.id, m.id))
    (hdecode : E.decodeEmbedPayload (embedPayloadJson (d.id, m.id)) = .ok ⟨d.id, m.id⟩)
    (hd : d ∈ s.documents.rows) (hm : m ∈ s.models.rows) (hfile : view d.filepath = some file)
    (hhash : E.hash file ≠ d.fileHash)
    (h : Proc.Runs (Answers view mayFail) (dispatchJob E entry modelId) ⟨s, calls, planned⟩ (.ok ()) w) :
    Replanned E file d m entry w.store := by
  obtain ⟨w₁, hprocess, hend⟩ := done_dispatchJob (fun h => h) hty h
  rw [← hpayload] at hdecode
  obtain ⟨w₂, hs₂, hembed⟩ := done_embedDocumentProcess (fun h => h) hdecode hd hm hfile hprocess
  obtain ⟨now, _, _, _, v, hok⟩ := done_embedFile_replan (fun h => h) hfile hhash hembed
  rw [hend]
  rw [hs₂] at hok
  refine replanned_of_ok hs hmem (Prod.ext hty hpayload) hd ?_ ?_ hhash hok
  · rfl
  · rfl

/-- The first model, and `/r/f` when it held `a`, its job claimed. -/
def claimedCalls : List StoreOp :=
  [.reconcile (fun _ => none) sampleModel 0, .activate ⟨1, "m", 1, 4, 0, 0⟩ 0,
    .db (.upsertDocument sampleDocument 1 [(.filename, 0, 0), (.content, 0, 1)] 0), .claim 10]

/-- What the dispatch of that job needs to find. -/
def claimedStore (s : Store) : Bool :=
  decide (sampleEntry ∈ s.jobs.rows ∧ { sampleDocument with id := 1 } ∈ s.documents.rows ∧
    ⟨1, "m", 1, 4, 0, 0⟩ ∈ s.models.rows ∧ s.vec.isSome = true ∧
    ∀ r ∈ s.embeddings.rows, r.state = .pending)

/-- The world after the dispatch of that job, if it works. -/
def playDispatch (o : Outside) (s : Store) : Option World :=
  match (dispatchJob sampleEnv sampleEntry 1).play (fun _ w r => o.reply w r) 0 ⟨s, [], []⟩ with
  | some (.ok (), w) => some w
  | _ => none

theorem runs_of_playDispatch {o : Outside} (vector : EmbeddingModel → Bytes → Vector32)
    (hvector : ∀ model inputs, o.embed model inputs = inputs.map (vector model))
    (h : playDispatch o s = some w) :
    Proc.Runs (fun w r a w' => Answers o.view False w r a w' ∧ EmbedsEach vector r a)
      (dispatchJob sampleEnv sampleEntry 1) ⟨s, [], []⟩ (.ok ()) w := by
  unfold playDispatch at h
  split at h
  · rename_i w' hplay
    cases h
    refine Proc.runs_play ?_ hplay
    intro _ w r out hr
    refine ⟨o.answers_of_reply hr, ?_⟩
    cases r with
    | embed model inputs =>
      cases hr
      rintro vectors ⟨⟩
      exact hvector model inputs
    | _ => trivial
  · cases h

theorem decode_sampleEntry : sampleEnv.decodeEmbedPayload (embedPayloadJson (1, 1)) = .ok ⟨1, 1⟩ := by
  have hfind : (samplePairs.find? fun p => embedPayloadJson p = embedPayloadJson (1, 1)) = some (1, 1) :=
    List.find?_cons_of_pos (by simp)
  dsimp only [sampleEnv]
  rw [hfind]

/-- The file holds `b` when the job is dispatched. -/
theorem sample_file_replanned : ∃ s w, Run (StoreStep sampleEnv) .empty claimedCalls s ∧
    Proc.Runs (Answers (sampleOutside (some [0x62]) 20).view False) (dispatchJob sampleEnv sampleEntry 1)
      ⟨s, [], []⟩ (.ok ()) w ∧
    Replanned sampleEnv [0x62] { sampleDocument with id := 1 } ⟨1, "m", 1, 4, 0, 0⟩ sampleEntry w.store := by
  have hplay : ((callStores sampleEnv claimedCalls .empty).any fun s =>
      claimedStore s && (playDispatch (sampleOutside (some [0x62]) 20) s).isSome) = true := by
    decide +kernel
  obtain ⟨s, hs, hplay⟩ := (Option.any_eq_true _ _).1 hplay
  obtain ⟨hfound, hsome⟩ := Bool.and_eq_true_iff.1 hplay
  obtain ⟨hmem, hd, hm, -, -⟩ := of_decide_eq_true hfound
  obtain ⟨w, hw⟩ := Option.isSome_iff_exists.1 hsome
  have hrun := run_of_callStores hs
  have hdispatch := (runs_of_playDispatch (fun _ => sampleVector) (fun _ _ => rfl) hw).mono
    fun _ _ _ _ h => h.1
  refine ⟨s, w, hrun, hdispatch, ?_⟩
  refine hash_mismatch_replans (wellFormed_run hrun) hmem rfl rfl decode_sampleEntry hd hm ?_ ?_ hdispatch
  · rfl
  · decide

/-! ## Embedded -/

variable {vector : EmbeddingModel → Bytes → Vector32}

section
include hstep

/-- The end of the handler replaces the pair's rows by the vectors of their inputs. -/
theorem done_embedRows (E : Env) (heach : ∀ {w r a w'}, step w r a w' → EmbedsEach vector r a)
    {rows : List DocumentEmbedding} (hfile : view d.filepath = some file)
    (h : Task.Done step (embedRows d m rows) w () w') :
    ∃ prepared now,
      prepareEmbeddedChunks d.filepath d.id rows (fun budget =>
        (.ok (readContentPrefixWithBudget file budget) : Except AnyError _)) = .ok prepared ∧
      (replaceEmbeddingsForDocumentModel d.id m.id
        (embeddedChunks prepared (prepared.map fun c => vector m c.input)) now).Ok w.store () w'.store := by
  unfold embedRows at h
  obtain ⟨prepared, w₁, hprepare, h1⟩ := Task.done_bind.1 h
  obtain ⟨hs₁, hprepared⟩ := done_file (E := E) hstep (calls_prepareEmbeddedChunks _ _ _)
    (fun _ => yields_prepareEmbeddedChunks hfile d.id rows) (done_context.1 hprepare)
  obtain ⟨answer, w₂, hembed, h2⟩ := Task.done_bind.1 h1
  have hask := Task.done_ask.1 hembed
  obtain ⟨vectors, w₃, hresult, h3⟩ := Task.done_bind.1 h2
  obtain ⟨hvectors, rfl⟩ := Task.done_ofExcept.1 (done_context.1 hresult)
  have hs₂ : w₂.store = w₁.store := by
    obtain ⟨_, -, rfl⟩ | ⟨rfl, -⟩ := hstep hask
    · rfl
    · rfl
  have hanswer : answer = .ok vectors := by
    cases answer with
    | ok vs => exact congrArg Except.ok (Except.ok.inj hvectors)
    | error e => cases hvectors
  obtain rfl := heach hask vectors hanswer
  split_ifs at h3 with hlen
  · exact absurd h3 Task.done_fail
  · obtain ⟨_, w₄, hconn, h4⟩ := Task.done_bind.1 h3
    obtain rfl := done_connect hstep (done_context.1 hconn)
    obtain ⟨now, w₅, hnow, h5⟩ := Task.done_bind.1 h4
    obtain rfl := done_unixNow hstep hnow
    have hok := done_db hstep (done_context.1 h5)
    rw [hs₂, hs₁] at hok
    refine ⟨prepared, now, hprepared prepared rfl, ?_⟩
    rwa [List.map_map] at hok

/-- With the recorded hash the handler embeds the rows it lists. -/
theorem done_embedFile_embed (heach : ∀ {w r a w'}, step w r a w' → EmbedsEach vector r a)
    (hfile : view d.filepath = some file) (hhash : E.hash file = d.fileHash)
    (h : Task.Done step (embedFile E entry d m) w () w') :
    ∃ rows, (∀ r, r ∈ rows ↔ r ∈ w.store.embeddings.rows ∧ r.pair = (d.id, m.id) ∧
        r.state ≠ .embedded) ∧
      (rows = [] ∧ w'.store = w.store ∨ ∃ prepared now,
        prepareEmbeddedChunks d.filepath d.id rows (fun budget =>
          (.ok (readContentPrefixWithBudget file budget) : Except AnyError _)) = .ok prepared ∧
        (replaceEmbeddingsForDocumentModel d.id m.id
          (embeddedChunks prepared (prepared.map fun c => vector m c.input)) now).Ok
            w.store () w'.store) := by
  unfold embedFile at h
  obtain ⟨currentHash, w₁, hcurrent, h1⟩ := Task.done_bind.1 h
  obtain ⟨hs₁, file', hfile', rfl⟩ := done_hashFile hstep (done_context.1 hcurrent)
  obtain rfl := Option.some.inj (hfile.symm.trans hfile')
  rw [if_neg (not_not.2 hhash)] at h1
  obtain ⟨_, w₂, hconn, h2⟩ := Task.done_bind.1 h1
  obtain rfl := done_connect hstep (done_context.1 hconn)
  obtain ⟨rows, w₃, hlist, h3⟩ := Task.done_bind.1 h2
  obtain ⟨hs₃, hmem⟩ := ok_listRecoverableEmbeddingsForModel (done_db hstep hlist)
  rw [hs₁] at hs₃ hmem
  refine ⟨rows, hmem, ?_⟩
  split_ifs at h3 with hnil
  · obtain ⟨-, rfl⟩ := Task.done_pure.1 h3
    exact .inl ⟨hnil, hs₃⟩
  · obtain ⟨prepared, now, hprepared, hok⟩ := done_embedRows hstep E heach hfile h3
    rw [hs₃] at hok
    exact .inr ⟨prepared, now, hprepared, hok⟩

end

/-- The store after a pair was embedded: its rows stand for the same chunks and hold the vectors of
    their inputs, and these are in the index; everything else but the job is as it was. -/
structure PairEmbedded (s : Store) (file : Bytes) (d : Document) (m : EmbeddingModel)
    (vector : Bytes → Vector32) (entry : JobQueueEntry) (s' : Store) : Prop where
  documents : s'.documents = s.documents
  models : s'.models = s.models
  searchState : s'.searchState = s.searchState
  keys : ((s'.embeddings.rows.filter fun r => r.pair = (d.id, m.id)).map (·.ref)).Perm
    ((s.embeddings.rows.filter fun r => r.pair = (d.id, m.id)).map (·.ref))
  embedded : ∀ r ∈ s'.embeddings.rows, r.pair = (d.id, m.id) → r.state = .embedded ∧
    r.embedding = some (serializeEmbedding (vector (chunkInput d.filepath file r.ref)))
  index : ∀ x, x ∈ s'.vecRows ↔ x ∈ s.vecRows ∨
    ∃ r ∈ s'.embeddings.rows, r.pair = (d.id, m.id) ∧ r.id = x.1 ∧ r.embedding = some x.2
  gained : ∀ r ∈ s'.embeddings.rows, r.pair = (d.id, m.id) → ∀ x ∈ s.vecRows, x.1 ≠ r.id
  jobs : ∀ e, e ∈ s'.jobs.rows ↔ e ∈ s.jobs.rows ∧ e.id ≠ entry.id
  otherRows : ∀ r, r.pair ≠ (d.id, m.id) → (r ∈ s'.embeddings.rows ↔ r ∈ s.embeddings.rows)

/-- A pair without rows has nothing to embed. -/
theorem pairEmbedded_of_nil (hnone : ∀ r ∈ s.embeddings.rows, r.pair ≠ (d.id, m.id))
    {vector : Bytes → Vector32} :
    PairEmbedded s file d m vector entry { s with jobs := completeJob s.jobs entry.id } where
  documents := rfl
  models := rfl
  searchState := rfl
  keys := .refl _
  embedded r hr hp := absurd hp (hnone r hr)
  index x := by
    refine ⟨.inl, ?_⟩
    rintro (hx | ⟨r, hr, hp, -⟩)
    · exact hx
    · exact absurd hp (hnone r hr)
  gained r hr hp := absurd hp (hnone r hr)
  jobs e := mem_completeJob
  otherRows r _ := Iff.rfl

namespace Replaced

variable {ec : List EmbeddedChunk} {now : ℤ} (h : Replaced s d.id m.id ec now s')
include h

/-- A pair without embedded rows has no vectors to lose, and its new rows have new ids. -/
theorem index (hs : WellFormed s) (hvec : s.vec.isSome = true)
    (hrows : ∀ r ∈ s.embeddings.rows, r.pair = (d.id, m.id) → r.state ≠ .embedded) (x : ℤ × Bytes) :
    x ∈ s'.vecRows ↔ x ∈ s.vecRows ∨
      ∃ r ∈ s'.embeddings.rows, r.pair = (d.id, m.id) ∧ r.id = x.1 ∧ r.embedding = some x.2 := by
  obtain ⟨hnone, -⟩ | ⟨v, v', hv, hv', hput⟩ := h.vec
  · rw [hnone] at hvec
    cases hvec
  have hnew : x ∈ embeddedVectors s' (fun r => decide (r.pair = (d.id, m.id))) ↔
      ∃ r ∈ s'.embeddings.rows, r.pair = (d.id, m.id) ∧ r.id = x.1 ∧ r.embedding = some x.2 := by
    rw [mem_embeddedVectors]
    refine exists_congr fun r => and_congr_right fun hr => ?_
    constructor
    · rintro ⟨hid, hp, -, hbytes⟩
      exact ⟨of_decide_eq_true hp, hid, hbytes⟩
    · rintro ⟨hp, hid, hbytes⟩
      obtain ⟨-, hne⟩ | ⟨-, c, -, he⟩ := h.mem_embeddings hr
      · exact absurd hp hne
      · exact ⟨hid, decide_eq_true hp, by rw [he]; rfl, hbytes⟩
  have hold : x ∈ v.rows ↔ x ∈ s.vecRows ∧
      ∀ r ∈ s.embeddings.rows, r.id = x.1 → decide (r.pair = (d.id, m.id)) = false :=
    (mem_vecRows_of_some (s := { s with vec := some v }) rfl).symm.trans (mem_vecRows_without hv.symm)
  rw [mem_vecRows_of_some hv', mem_putAll hput (nodup_embeddedVectors ..), hnew, or_comm, hold]
  refine or_congr_left ?_
  constructor
  · exact fun h => h.1.1
  · intro hx
    obtain ⟨r₀, hr₀, hid₀, hst₀, -⟩ := hs.of_mem_vecRows hx
    refine ⟨⟨hx, ?_⟩, ?_⟩
    · intro r hr hid
      obtain rfl := AutoTable.eq_of_key hr hr₀ (hid.trans hid₀.symm)
      exact decide_eq_false fun hp => hrows r hr hp hst₀
    · intro y hy hid
      obtain ⟨r, hr, hid', hp, -⟩ := mem_embeddedVectors.1 hy
      obtain ⟨-, hne⟩ | ⟨hlt, -⟩ := h.mem_embeddings hr
      · exact hne (of_decide_eq_true hp)
      · have := s.embeddings.le_seq r₀ hr₀
        omega

theorem pairEmbedded (hs : WellFormed s) (hvec : s.vec.isSome = true)
    (hrows : ∀ r ∈ s.embeddings.rows, r.pair = (d.id, m.id) → r.state ≠ .embedded)
    (hrefs : ∀ c, c ∈ ec.map (·.ref) ↔ c ∈ refsOf s.embeddings (d.id, m.id)) {vector : Bytes → Vector32}
    (hvector : ∀ c ∈ ec, c.embedding = serializeEmbedding (vector (chunkInput d.filepath file c.ref))) :
    PairEmbedded s file d m vector entry { s' with jobs := completeJob s'.jobs entry.id } where
  documents := h.documents
  models := h.models
  searchState := h.searchState
  keys := by
    refine (List.perm_ext_iff_of_nodup (nodup_refs ..) (nodup_refs ..)).2 ?_
    intro c
    rw [mem_refs, mem_refs, h.refsOf_self, ← hrefs]
    rfl
  embedded r hr hp := by
    obtain ⟨-, hne⟩ | ⟨-, c, hc, he⟩ := h.mem_embeddings hr
    · exact absurd hp hne
    · rw [he]
      exact ⟨rfl, congrArg some (hvector c hc)⟩
  index := h.index hs hvec hrows
  gained r hr hp x hx hid := by
    obtain ⟨-, hne⟩ | ⟨hlt, -⟩ := h.mem_embeddings hr
    · exact hne hp
    · obtain ⟨r₀, hr₀, hid₀, -⟩ := hs.of_mem_vecRows hx
      have := s.embeddings.le_seq r₀ hr₀
      omega
  jobs e := by
    rw [mem_completeJob, h.jobs]
  otherRows r hne := by
    constructor
    · intro hr
      obtain ⟨hr₀, -⟩ | ⟨-, c, -, he⟩ := h.mem_embeddings hr
      · exact hr₀
      · rw [he] at hne
        exact absurd rfl hne
    · exact fun hr => h.frame hr hne

end Replaced

/-- Each chunk of an embed pass holds the vector of its own input. -/
theorem vector_of_mem_embeddedChunks {prepared : List PreparedChunk} {vector : Bytes → Vector32}
    {c : EmbeddedChunk}
    (hinput : ∀ pc ∈ prepared, pc.input = chunkInput d.filepath file pc.ref)
    (hc : c ∈ embeddedChunks prepared (prepared.map fun pc => vector pc.input)) :
    c.embedding = serializeEmbedding (vector (chunkInput d.filepath file c.ref)) := by
  rw [embeddedChunks, List.zipWith_map_right, List.zipWith_self] at hc
  obtain ⟨pc, hpc, rfl⟩ := List.mem_map.1 hc
  show serializeEmbedding (vector pc.input) = _
  rw [hinput pc hpc]
  rfl

/-- **A pair is embedded**: when the dispatch of a claimed job works and the file has the recorded
    hash, each row of the pair holds the vector of its own input, the index gained exactly these,
    and nothing else has changed but that the job is gone. -/
theorem hash_match_embeds {calls : List EmbedCall} {planned : List Pair} (hs : WellFormed s)
    (hvec : s.vec.isSome = true) (hty : entry.jobType = .embedDocument)
    (hpayload : entry.payload = embedPayloadJson (d.id, m.id))
    (hdecode : E.decodeEmbedPayload (embedPayloadJson (d.id, m.id)) = .ok ⟨d.id, m.id⟩)
    (hd : d ∈ s.documents.rows) (hm : m ∈ s.models.rows) (hfile : view d.filepath = some file)
    (hhash : E.hash file = d.fileHash)
    (hrows : ∀ r ∈ s.embeddings.rows, r.pair = (d.id, m.id) → r.state ≠ .embedded)
    (h : Proc.Runs (fun w r a w' => Answers view mayFail w r a w' ∧ EmbedsEach vector r a)
      (dispatchJob E entry modelId) ⟨s, calls, planned⟩ (.ok ()) w) :
    PairEmbedded s file d m (vector m) entry w.store := by
  obtain ⟨w₁, hprocess, hend⟩ := done_dispatchJob And.left hty h
  rw [← hpayload] at hdecode
  obtain ⟨w₂, hs₂, hembed⟩ := done_embedDocumentProcess And.left hdecode hd hm hfile hprocess
  obtain ⟨rows, hmem, hcase⟩ := done_embedFile_embed And.left And.right hfile hhash hembed
  rw [hend]
  rw [hs₂] at hmem hcase
  have hlisted : ∀ r ∈ s.embeddings.rows, r.pair = (d.id, m.id) → r ∈ rows :=
    fun r hr hp => (hmem r).2 ⟨hr, hp, hrows r hr hp⟩
  obtain ⟨rfl, hsame⟩ | ⟨prepared, now, hprepared, hok⟩ := hcase
  · rw [hsame]
    exact pairEmbedded_of_nil fun r hr hp => absurd (hlisted r hr hp) List.not_mem_nil
  · refine (ok_replaceEmbeddingsForDocumentModel hok).pairEmbedded hs hvec hrows ?_ ?_
    · intro c
      rw [refs_embeddedChunks (List.length_map _), refs_prepareEmbeddedChunks hprepared]
      constructor
      · intro hc
        obtain ⟨r, hr, rfl⟩ := List.mem_map.1 hc
        exact ⟨r, ((hmem r).1 hr).1, ((hmem r).1 hr).2.1, rfl⟩
      · rintro ⟨r, hr, hp, rfl⟩
        exact List.mem_map.2 ⟨r, hlisted r hr hp, rfl⟩
    · exact fun c hc => vector_of_mem_embeddedChunks (input_of_prepared hprepared) hc

/-- The file still holds `a` when the job is dispatched. -/
theorem sample_pair_embedded : ∃ (s : Store) (w : World), Run (StoreStep sampleEnv) .empty claimedCalls s ∧
    (∃ r ∈ w.store.embeddings.rows, r.pair = (1, 1) ∧ r.chunkType = .content) ∧
    PairEmbedded s [0x61] { sampleDocument with id := 1 } ⟨1, "m", 1, 4, 0, 0⟩ sampleVector sampleEntry
      w.store := by
  have hplay : ((callStores sampleEnv claimedCalls .empty).any fun s =>
      claimedStore s && (playDispatch (sampleOutside (some [0x61]) 20) s).any fun w : World =>
        w.store.embeddings.rows.any fun r => decide (r.pair = (1, 1) ∧ r.chunkType = .content)) = true := by
    decide +kernel
  obtain ⟨s, hs, hplay⟩ := (Option.any_eq_true _ _).1 hplay
  obtain ⟨hfound, hplay⟩ := Bool.and_eq_true_iff.1 hplay
  obtain ⟨hmem, hd, hm, hvec, hrows⟩ := of_decide_eq_true hfound
  obtain ⟨w, hw, hany⟩ := (Option.any_eq_true _ _).1 hplay
  obtain ⟨r, hr, hcontent⟩ := List.any_eq_true.1 hany
  have hrun := run_of_callStores hs
  have hdispatch := runs_of_playDispatch (fun _ => sampleVector) (fun _ _ => rfl) hw
  refine ⟨s, w, hrun, ⟨r, hr, of_decide_eq_true hcontent⟩, ?_⟩
  have hfile : (sampleOutside (some [0x61]) 20).view { sampleDocument with id := 1 }.filepath =
      some [0x61] := rfl
  have hhash : sampleEnv.hash [0x61] = { sampleDocument with id := 1 }.fileHash := rfl
  have hpending : ∀ r ∈ s.embeddings.rows, r.pair = (1, 1) → r.state ≠ .embedded := by
    intro r hr _
    rw [hrows r hr]
    exact EmbedState.noConfusion
  have hpayload : sampleEntry.payload = embedPayloadJson (1, 1) := rfl
  have hembedded := hash_match_embeds (d := { sampleDocument with id := 1 }) (m := ⟨1, "m", 1, 4, 0, 0⟩)
    (wellFormed_run hrun) hvec rfl hpayload decode_sampleEntry hd hm hfile hhash hpending hdispatch
  exact hembedded

end Ask
