/-
  What a startup leaves behind for the configured model, after any earlier
  startups, some of them stopped on the way.
-/
import Ask.Refs
import Ask.Seeding

namespace Ask

open Lib

/-! ## Histories with interruptions -/

/-- The store, and the pairs that a registration or an ingest has planned so far. -/
structure Tracked where
  store : Store
  planned : Set Pair

/-- The pairs a startup plans when its model is new. -/
def backfilled (s : Store) (identity : EmbeddingIdentity) (model : EmbeddingModel) : Set Pair :=
  {p | (∀ m ∈ s.models.rows, m.identity ≠ identity) ∧ p.2 = model.id ∧
    ∃ doc ∈ s.documents.rows, doc.id = p.1}

/-- What may happen between and during starts. -/
inductive RestartOp where
  | startup (view : View) (identity : EmbeddingIdentity) (now : ℤ)
  | stopped (view : View) (identity : EmbeddingIdentity) (now : ℤ)
  | stoppedSeeding (view : View) (identity : EmbeddingIdentity) (now : ℤ)
  | activate (model : EmbeddingModel) (now : ℤ)
  | stoppedActivating (model : EmbeddingModel) (now : ℤ)
  | enqueue (jobType : JobType) (payload : String) (now : ℤ)
  | claim (now : ℤ)
  | dispatch (view : View) (entry : JobQueueEntry) (modelId : ℤ)
  | markStale (docIds : List ℤ) (now : ℤ)
  | deleteDocument (docId : ℤ)

/-- An operation of the server, where a startup may be stopped after any statement and a dispatch
    may fail at any access. -/
inductive RestartStep (E : Env) : Tracked → RestartOp → Tracked → Prop
  | startup {t : Tracked} {s' : Store} {view : View} {identity : EmbeddingIdentity} {now : ℤ}
      {state : StartupEmbeddingState} :
      (reconcileEmbeddingStartup E view identity now).Ok t.store state s' →
      RestartStep E t (.startup view identity now)
        ⟨s', t.planned ∪ backfilled t.store identity state.model⟩
  -- stopped anywhere; what the registration has planned by then is not recorded
  | stopped {t : Tracked} {s' : Store} {view : View} {identity : EmbeddingIdentity} {now : ℤ} :
      (reconcileEmbeddingStartup E view identity now).Commits t.store s' →
      RestartStep E t (.stopped view identity now) ⟨s', t.planned⟩
  -- stopped after the model was resolved
  | stoppedSeeding {t : Tracked} {s₁ s' : Store} {view : View} {identity : EmbeddingIdentity} {now : ℤ}
      {model : EmbeddingModel} {n : ℕ} :
      (resolveModel E view identity now).Ok t.store (model, n) s₁ →
      (s' = s₁ ∨ (seedEmbedJobs now).Commits s₁ s') →
      RestartStep E t (.stoppedSeeding view identity now)
        ⟨s', t.planned ∪ backfilled t.store identity model⟩
  | activate {t : Tracked} {s' : Store} {model : EmbeddingModel} {now : ℤ} {n : ℕ} :
      (ensureActiveSearchModel model now).Ok t.store n s' →
      RestartStep E t (.activate model now) ⟨s', t.planned⟩
  | stoppedActivating {t : Tracked} {s' : Store} {model : EmbeddingModel} {now : ℤ} :
      (ensureActiveSearchModel model now).Commits t.store s' →
      RestartStep E t (.stoppedActivating model now) ⟨s', t.planned⟩
  | enqueue {t : Tracked} {s' : Store} {jobType : JobType} {payload : String} {now : ℤ} :
      (enqueueJobDb jobType payload now).Ok t.store () s' →
      RestartStep E t (.enqueue jobType payload now) ⟨s', t.planned⟩
  | claim {t : Tracked} {now : ℤ} :
      RestartStep E t (.claim now)
        ⟨{ t.store with jobs := (claimJob t.store.jobs now).2 }, t.planned⟩
  | dispatch {t : Tracked} {w : World} {view : View} {entry : JobQueueEntry} {modelId : ℤ}
      {x : Except AnyError Unit} :
      Proc.Runs (Answers view True) (dispatchJob E entry modelId) ⟨t.store, [], []⟩ x w →
      RestartStep E t (.dispatch view entry modelId) ⟨w.store, t.planned ∪ {p | p ∈ w.planned}⟩
  | markStale {t : Tracked} {s' : Store} {docIds : List ℤ} {now : ℤ} :
      (markDocumentsStale docIds now).Ok t.store () s' →
      RestartStep E t (.markStale docIds now) ⟨s', t.planned⟩
  | deleteDocument {t : Tracked} {s' : Store} {docId : ℤ} :
      (deleteDocument docId).Ok t.store () s' →
      RestartStep E t (.deleteDocument docId) ⟨s', t.planned⟩

/-! ## Filename rows -/

/-- The pair has a filename row. -/
def HasFilename (e : Embeddings) (p : Pair) : Prop := ∃ c ∈ refsOf e p, c.1 = ChunkType.filename

/-- Every planned pair whose document is still there has its filename row. -/
def Filenames (P : Set Pair) (s : Store) : Prop :=
  ∀ p ∈ P, p.1 ≤ s.documents.seq ∧ ((∃ doc ∈ s.documents.rows, doc.id = p.1) → HasFilename s.embeddings p)

variable {E : Env} {view : View} {s s' s₁ : Store} {e e' : Embeddings} {p : Pair} {P : Set Pair}
  {docId modelId id now : ℤ} {doc : Document} {chunks : List ChunkRef} {model : EmbeddingModel}
  {identity : EmbeddingIdentity}

theorem Filenames.congr (h : Filenames P s) (hseq : s.documents.seq ≤ s'.documents.seq)
    (hd : ∀ doc ∈ s'.documents.rows, doc ∈ s.documents.rows)
    (he : ∀ doc ∈ s'.documents.rows, ∀ m, HasFilename s.embeddings (doc.id, m) →
      HasFilename s'.embeddings (doc.id, m)) : Filenames P s' := by
  intro p hp
  refine ⟨(h p hp).1.trans hseq, ?_⟩
  rintro ⟨doc, hdoc, hid⟩
  have := (h p hp).2 ⟨doc, hd doc hdoc, hid⟩
  obtain ⟨d, m⟩ := p
  obtain rfl : doc.id = d := hid
  exact he doc hdoc m this

/-- What leaves the documents and the rows alone. -/
theorem Filenames.same (h : Filenames P s) (hd : s'.documents = s.documents)
    (he : s'.embeddings = s.embeddings) : Filenames P s' := by
  refine h.congr (by rw [hd]) (by rw [hd]; exact fun _ h => h) ?_
  intro _ _ _ h
  rwa [he]

theorem Filenames.union {Q : Set Pair} (h : Filenames P s)
    (hQ : ∀ p ∈ Q, (∃ doc ∈ s.documents.rows, doc.id = p.1) ∧ HasFilename s.embeddings p) :
    Filenames (P ∪ Q) s := by
  rintro p (hp | hp)
  · exact h p hp
  · obtain ⟨⟨doc, hdoc, hid⟩, hname⟩ := hQ p hp
    exact ⟨hid ▸ s.documents.le_seq doc hdoc, fun _ => hname⟩

theorem PendingInserted.hasFilename (h : PendingInserted docId modelId now chunks e e')
    (hnd : (chunks.map fun c => (c.1, c.2.1)).Nodup) (hp : HasFilename e p) : HasFilename e' p := by
  obtain ⟨-, ⟨r, hr, rfl, rfl⟩, hty⟩ := hp
  by_cases hkey : ∀ c ∈ chunks, r.uniqueKey ≠ ((docId, modelId), c.1, c.2.1)
  · exact ⟨r.ref, ⟨r, h.frame r hr hkey, rfl, rfl⟩, hty⟩
  · -- the row was planned again, in place
    push Not at hkey
    obtain ⟨c, hc, hkey⟩ := hkey
    obtain ⟨id, hid⟩ := h.complete hnd c hc
    simp only [DocumentEmbedding.uniqueKey, Prod.mk.injEq] at hkey
    exact ⟨c, ⟨_, hid, hkey.1.symm, rfl⟩, hkey.2.1.symm.trans hty⟩

theorem filenames_ingested (h : Ingested s doc id modelId chunks now s₁ s') (hs : Intact s)
    (hnd : (chunks.map fun c => (c.1, c.2.1)).Nodup) (hname : (ChunkType.filename, 0, 0) ∈ chunks)
    (hf : Filenames P s) : Filenames (P ∪ {(id, modelId)}) s' := by
  have hself : HasFilename s'.embeddings (id, modelId) :=
    ⟨_, by rw [h.refsOf_self hnd]; exact hname, rfl⟩
  have hmem : { doc with id := id } ∈ s'.documents.rows := by
    rw [h.documents]
    exact (h.written.mem _).2 (.inl rfl)
  refine Filenames.union ?_ (by rintro p rfl; exact ⟨⟨_, hmem, rfl⟩, hself⟩)
  intro p hp
  refine ⟨(hf p hp).1.trans (h.documents ▸ h.written.seq_le), ?_⟩
  rintro ⟨d, hd, hid⟩
  by_cases hpair : p = (id, modelId)
  · rw [hpair]; exact hself
  · rw [HasFilename, h.refsOf_of_ne hs.foreignKeys hpair]
    refine (hf p hp).2 ?_
    rw [h.documents, h.written.mem] at hd
    rcases hd with rfl | ⟨hd, -⟩
    · -- a new id is greater than every planned one
      obtain ⟨hnew, -⟩ | ⟨⟨d, hd, hdid, -⟩, -⟩ := h.written.case
      · have := (hf p hp).1
        have : id = p.1 := hid
        omega
      · exact ⟨d, hd, hdid.trans hid⟩
    · exact ⟨d, hd, hid⟩

theorem filenames_replaced {ec : List EmbeddedChunk} (h : Replaced s docId modelId ec now s')
    (hrefs : {c | c ∈ ec.map (·.ref)} = refsOf s.embeddings (docId, modelId)) (hf : Filenames P s) :
    Filenames P s' := by
  refine hf.congr (by rw [h.documents]) (by rw [h.documents]; exact fun _ h => h) ?_
  intro doc _ m hm
  rw [HasFilename] at hm ⊢
  by_cases hpair : (doc.id, m) = (docId, modelId)
  · rwa [hpair, h.refsOf_self, hrefs, ← hpair]
  · rwa [h.refsOf_of_ne hpair]

theorem filenames_deleteDocument {u : Unit} (h : (deleteDocument docId).Ok s u s')
    (hf : Filenames P s) : Filenames P s' := by
  obtain rfl := ok_deleteDocument h
  refine hf.congr le_rfl (fun doc hdoc => (AutoTable.mem_delete.1 hdoc).1) ?_
  intro doc hdoc m hm
  have hne : doc.id ≠ docId := by simpa using (AutoTable.mem_delete.1 hdoc).2
  rw [HasFilename, refsOf_delete fun r hr => decide_eq_false fun hd => hne ?_]
  · exact hm
  · exact (congrArg Prod.fst hr).symm.trans hd

theorem filenames_markDocumentsStale {docIds : List ℤ} {u : Unit}
    (h : (markDocumentsStale docIds now).Ok s u s') (hs : Intact s) (hf : Filenames P s) :
    Filenames P s' := by
  obtain ⟨-, rfl⟩ | ⟨hne, h⟩ := ok_markDocumentsStale h
  · exact hf
  · obtain ⟨q, -, -, rfl⟩ := ok_markDocumentsStaleInQueueTime hne h
    refine hf.congr le_rfl (fun _ h => h) ?_
    intro doc _ m hm
    rwa [HasFilename, refsOf_markStale hs.foreignKeys]

/-! ## What a startup keeps where it is stopped -/

/-- What its statements keep, a backfill keeps. -/
theorem keeps_backfill {I : Store → Prop}
    (hinsert : ∀ docId c, Tx.Keeps I (insertPendingEmbedding docId model.id c now))
    (hvec : ∀ s p, I s → I { s with vec := s.vecWithout p }) (hseed : Tx.Keeps I (seedEmbedJobs now)) :
    Tx.Keeps I (backfillPendingForModel E view model now) := by
  refine Tx.keeps_bind Tx.keeps_query fun docs => Tx.keeps_bind (Tx.keeps_each fun doc _ => ?_) fun _ =>
    Tx.keeps_bind hseed fun _ => Tx.keeps_pure
  refine Tx.keeps_mapError (Tx.keeps_mapError (Tx.keeps_bind ?_ fun _ => ?_))
  · exact Tx.keeps_each fun c _ => Tx.keeps_mapError (hinsert doc.id c)
  · refine Tx.keeps_exec ?_
    intro s u s' hok h
    rw [ok_exec_ok.1 hok]
    exact hvec s _ h

/-- A registration goes from `I` to what a backfill keeps, and back. -/
theorem keeps_registerModel {I : Store → Prop} {J : ℤ → Store → Prop}
    (hmodel : ∀ s id s', (insertModel identity now).Ok s id s' → I s → J id s')
    (hbackfill : ∀ model : EmbeddingModel, Tx.Keeps (J model.id) (backfillPendingForModel E view model now))
    (hI : ∀ id s, J id s → I s) : Tx.Keeps I (registerModel E view identity now) := by
  intro s s' hs h
  obtain h | ⟨id, s₁, h1, h2⟩ := Tx.reaches_bind h
  · obtain ⟨id, h⟩ := Tx.commits_exec.1 h
    exact hI id s' (hmodel s id s' (Db.ok_context.2 h) hs)
  · refine hI id s' (Tx.keeps_bind (hbackfill ⟨id, identity.name, identity.dimensions, identity.chunkSize,
      identity.chunkOverlap, now⟩) (fun _ => Tx.keeps_pure) s₁ s' ?_ h2)
    exact hmodel s id s₁ h1 hs

theorem keeps_reconcile {I : Store → Prop} (hregister : Tx.Keeps I (registerModel E view identity now))
    (hseed : Tx.Keeps I (seedEmbedJobs now)) : Tx.Keeps I (reconcileEmbeddingStartup E view identity now) := by
  refine Tx.keeps_bind (Tx.keeps_bind Tx.keeps_query ?_) fun _ => Tx.keeps_bind hseed fun _ =>
    Tx.keeps_bind Tx.keeps_query fun _ => Tx.keeps_bind Tx.keeps_query fun _ => Tx.keeps_pure
  intro found
  cases found with
  | some m => exact Tx.keeps_pure
  | none => exact hregister

/-! ## Registration, statement by statement -/

/-- What the statements of a registration keep; nothing of the new model is embedded. -/
def Registering (P : Set Pair) (modelId : ℤ) (s : Store) : Prop :=
  (Intact s ∧ Unembedded modelId s) ∧ Filenames P s

theorem Registering.same (h : Registering P modelId s) (hd : s'.documents = s.documents)
    (hm : s'.models = s.models) (he : s'.embeddings = s.embeddings) : Registering P modelId s' := by
  refine ⟨⟨h.1.1.congr hd hm he, ?_⟩, h.2.same hd he⟩
  rw [Unembedded, he]
  exact h.1.2

theorem keeps_insertPendingEmbedding {c : ChunkRef} :
    Tx.Keeps (Registering P modelId) (insertPendingEmbedding docId modelId c now) := by
  refine Tx.keeps_exec ?_
  intro s u s' hok h
  obtain ⟨hpair, e, rfl, hp⟩ := ok_insertPendingEmbedding hok
  refine ⟨intact_pendingInserted hp (fun _ => hpair) h.1.1 h.1.2, ?_⟩
  exact h.2.congr le_rfl (fun _ h => h) fun _ _ _ hname => hp.hasFilename (by simp) hname

theorem keeps_backfill_registering (hid : model.id = modelId) :
    Tx.Keeps (Registering P modelId) (backfillPendingForModel E view model now) := by
  subst hid
  refine keeps_backfill (fun _ _ => keeps_insertPendingEmbedding) ?_ (keeps_seedEmbedJobs ?_)
  · exact fun s p h => h.same rfl rfl rfl
  · exact fun s p q _ h _ => h.same rfl rfl rfl

theorem registering_insertModel (hid : (insertModel identity now).Ok s id s₁) (hs : Intact s)
    (hf : Filenames P s) : Registering P id s₁ := by
  obtain ⟨models, rfl, hid, hrows⟩ := ok_insertModel hid
  exact ⟨⟨intact_models hs hrows, unembedded_new hs hid⟩, hf.same rfl rfl⟩

/-- After a registration every document has its filename row for the model. -/
theorem hasFilename_registerModel {m : EmbeddingModel} {n : ℕ}
    (h : (registerModel E view identity now).Ok s (m, n) s') :
    s'.documents = s.documents ∧ ∀ doc ∈ s.documents.rows, HasFilename s'.embeddings (doc.id, m.id) := by
  obtain ⟨models, s₁, q, -, -, -, heach, rfl, -⟩ := ok_registerModel h
  have hdocs : s₁.documents = s.documents :=
    Tx.ok_each_invariant (I := fun s₁ => s₁.documents = s.documents) heach (fun doc _ s₂ s₃ hok h => by
      obtain ⟨-, e, -, rfl⟩ := ok_queuePendingEmbeddingsForDocument (Db.ok_context.1 hok)
      exact h) rfl
  refine ⟨hdocs, fun doc hdoc => ?_⟩
  refine Tx.ok_each_all (Q := fun doc s => HasFilename s.embeddings (doc.id, m.id)) heach
    (fun doc _ s₂ s₃ hok => ?_) doc ((List.mem_insertionSort _).2 hdoc)
  obtain ⟨-, e, hp, rfl⟩ := ok_queuePendingEmbeddingsForDocument (Db.ok_context.1 hok)
  refine ⟨?_, fun doc' h' => hp.hasFilename nodup_planned h'⟩
  obtain ⟨id, hid⟩ := hp.complete nodup_planned _ filename_mem_planned
  exact ⟨_, ⟨_, hid, rfl, rfl⟩, rfl⟩

theorem keeps_registerModel_filenames :
    Tx.Keeps (fun s => Intact s ∧ Filenames P s) (registerModel E view identity now) :=
  keeps_registerModel (fun _ _ _ h hs => registering_insertModel h hs.1 hs.2)
    (fun _ => keeps_backfill_registering rfl) fun _ _ h => ⟨h.1.1, h.2⟩

/-! ## Startups -/

/-- Resolving the model keeps the filename rows, also where it is stopped, and completes the
    documents' under a new model. -/
theorem resolveModel_keeps {m : EmbeddingModel} {n : ℕ}
    (h : (resolveModel E view identity now).Ok s (m, n) s') (hs : Intact s) (hf : Filenames P s) :
    Intact s' ∧ Filenames (P ∪ backfilled s identity m) s' := by
  obtain ⟨hmem, hid, rfl⟩ | ⟨-, hreg⟩ := ok_resolveModel h
  · refine ⟨hs, hf.union ?_⟩
    rintro p ⟨hnew, -⟩
    exact absurd hid (hnew m hmem)
  · obtain ⟨hi, hf'⟩ := keeps_registerModel_filenames s s' ⟨hs, hf⟩ (.inr ⟨_, hreg⟩)
    obtain ⟨hdocs, hname⟩ := hasFilename_registerModel hreg
    refine ⟨hi, hf'.union ?_⟩
    rintro ⟨d, k⟩ ⟨-, hm, doc, hdoc, hd⟩
    obtain rfl : k = m.id := hm
    obtain rfl : doc.id = d := hd
    exact ⟨⟨doc, by rwa [hdocs], rfl⟩, hname doc hdoc⟩

/-- The queue does not matter. -/
theorem keeps_seedEmbedJobs_filenames : Tx.Keeps (fun s => Intact s ∧ Filenames P s) (seedEmbedJobs now) :=
  keeps_seedEmbedJobs fun _ _ _ _ h _ => ⟨h.1.congr rfl rfl rfl, h.2.same rfl rfl⟩

theorem reconcile_stopped (h : (reconcileEmbeddingStartup E view identity now).Commits s s')
    (hs : Intact s) (hf : Filenames P s) : Intact s' ∧ Filenames P s' :=
  keeps_reconcile keeps_registerModel_filenames keeps_seedEmbedJobs_filenames s s' ⟨hs, hf⟩ (.inl h)

theorem ensureActiveSearchModel_stopped (h : (ensureActiveSearchModel model now).Commits s s')
    (hs : Intact s) (hf : Filenames P s) : Intact s' ∧ Filenames P s' := by
  refine keeps_ensureActiveSearchModel (I := fun s => Intact s ∧ Filenames P s) ?_ s s' ⟨hs, hf⟩ (.inl h)
  exact fun s state vec _ h => ⟨h.1.congr rfl rfl rfl, h.2.same rfl rfl⟩

/-! ## Histories -/

theorem filenames_answers {entry : JobQueueEntry} {w w' : World} {r : Req} {a : r.Ans}
    (h : Answers view True w r a w') (hg : Grounds E view True Alone entry w r)
    (hs : Intact w.store) (hf : Filenames (P ∪ {p | p ∈ w.planned}) w.store) :
    Filenames (P ∪ {p | p ∈ w'.planned}) w'.store := by
  cases h.changes with
  | @committed op v store hok =>
    cases op with
    | findDocument | findModel | listRecoverable => exact hok.2 ▸ hf
    | completeJob | deferJob => rw [ok_exec_ok.1 hok]; exact hf.same rfl rfl
    | deleteDocument => exact filenames_deleteDocument hok hf
    | replaceEmbeddings =>
      obtain ⟨document, model, file, rows, prepared, vectors, hfacts⟩ := hg
      exact filenames_replaced (ok_replaceEmbeddingsForDocumentModel hok) (hfacts.refs hs) hf
    | upsertDocument doc modelId chunks now =>
      obtain ⟨model, file, contentPlan, hfacts⟩ := hg
      obtain ⟨id, changed⟩ := v
      obtain ⟨rfl, rfl, -⟩ | ⟨rfl, s₁, hi⟩ := ok_upsertDocumentAndReplacePendingEmbeddings hok
      · exact hf
      · have hnd : (chunks.map fun c => (c.1, c.2.1)).Nodup := by
          rw [hfacts.chunks_eq]; exact nodup_planned
        have hname : (ChunkType.filename, 0, 0) ∈ chunks := by
          rw [hfacts.chunks_eq]; exact filename_mem_planned
        have hf' := filenames_ingested hi hs hnd hname hf
        intro p hp
        refine hf' p ?_
        rcases hp with hp | hp
        · exact .inl (.inl hp)
        · rcases List.mem_cons.1 hp with rfl | hp
          · exact .inr rfl
          · exact .inl (.inr hp)
  | called => exact hf
  | same => exact hf

theorem filenames_restartStep {t t' : Tracked} {op : RestartOp} (h : RestartStep E t op t')
    (hs : Intact t.store) (hf : Filenames t.planned t.store) :
    Intact t'.store ∧ Filenames t'.planned t'.store := by
  cases h with
  | startup h =>
    obtain ⟨n, s₁, q, hres, rfl, -⟩ := ok_reconcile h
    obtain ⟨hs₁, hf₁⟩ := resolveModel_keeps hres hs hf
    exact ⟨hs₁.congr rfl rfl rfl, hf₁.same rfl rfl⟩
  | stopped h => exact reconcile_stopped h hs hf
  | stoppedSeeding h h' =>
    obtain ⟨hs₁, hf₁⟩ := resolveModel_keeps h hs hf
    obtain rfl | h' := h'
    · exact ⟨hs₁, hf₁⟩
    · exact keeps_seedEmbedJobs_filenames _ _ ⟨hs₁, hf₁⟩ (.inl h')
  | activate h =>
    obtain ⟨rfl, -⟩ | ⟨v, -, rfl⟩ := ok_ensureActiveSearchModel h
    · exact ⟨hs, hf⟩
    · exact ⟨hs.congr rfl rfl rfl, hf.same rfl rfl⟩
  | stoppedActivating h => exact ensureActiveSearchModel_stopped h hs hf
  | enqueue h => rw [ok_enqueueJobDb h]; exact ⟨hs.congr rfl rfl rfl, hf.same rfl rfl⟩
  | claim => exact ⟨hs.congr rfl rfl rfl, hf.same rfl rfl⟩
  | dispatch h =>
    refine dispatch_invariant (fun h => h) h
      (I := fun w => Intact w.store ∧ Filenames (t.planned ∪ {p | p ∈ w.planned}) w.store)
      (fun w r a w' hstep hg hw => ⟨intact_of_answers hstep hw.1, filenames_answers hstep hg hw.1 hw.2⟩)
      ⟨hs, ?_⟩
    simpa using hf
  | markStale h => exact ⟨intact_markDocumentsStale h hs, filenames_markDocumentsStale h hs hf⟩
  | deleteDocument h => exact ⟨intact_deleteDocument h hs, filenames_deleteDocument h hf⟩

/-- **A startup leaves no planned document outside its model**: a document that was there when
    the model was registered, or that an ingest has written under it since, has its filename row
    for the model, and is embedded for it or has its job in the queue. -/
theorem startup_covers_planned {tr : List RestartOp} {t : Tracked} {state : StartupEmbeddingState}
    (h : Run (RestartStep E) ⟨.empty, ∅⟩ tr t)
    (hok : (reconcileEmbeddingStartup E view identity now).Ok t.store state s') :
    ∀ doc ∈ s'.documents.rows,
      ((∀ m ∈ t.store.models.rows, m.identity ≠ identity) ∨ (doc.id, state.model.id) ∈ t.planned) →
      (∃ r ∈ s'.embeddings.rows, r.pair = (doc.id, state.model.id) ∧ r.chunkType = .filename) ∧
      ((∀ r ∈ s'.embeddings.rows, r.pair = (doc.id, state.model.id) → r.state = .embedded) ∨
        (doc.id, state.model.id) ∈ s'.recoverablePairs ∧
          ∃ e ∈ s'.jobs.rows, e.uniqueKey = embedJobKey (doc.id, state.model.id)) := by
  have hinv : Intact t.store ∧ Filenames t.planned t.store :=
    h.invariant (I := fun t => Intact t.store ∧ Filenames t.planned t.store)
      (fun t op t' _ hstep ht => filenames_restartStep hstep ht.1 ht.2) ⟨intact_empty, fun p hp => hp.elim⟩
  obtain ⟨n, s₁, q, hres, rfl, -, hqueued⟩ := ok_reconcile hok
  obtain ⟨hs₁, hf₁⟩ := resolveModel_keeps hres hinv.1 hinv.2
  intro doc hdoc hplanned
  have hname : HasFilename s₁.embeddings (doc.id, state.model.id) := by
    refine (hf₁ _ ?_).2 ⟨doc, hdoc, rfl⟩
    rcases hplanned with hnew | hp
    · obtain ⟨hmem, hid, -⟩ | ⟨-, hreg⟩ := ok_resolveModel hres
      · exact absurd hid (hnew _ hmem)
      · refine .inr ⟨hnew, rfl, doc, ?_, rfl⟩
        rwa [← (hasFilename_registerModel hreg).1]
    · exact .inl hp
  obtain ⟨-, ⟨r, hr, hp, rfl⟩, hty⟩ := hname
  refine ⟨⟨r, hr, hp, hty⟩, ?_⟩
  by_cases hall : ∀ r ∈ s₁.embeddings.rows, r.pair = (doc.id, state.model.id) → r.state = .embedded
  · exact .inl hall
  · push Not at hall
    obtain ⟨r', hr', hp', hst'⟩ := hall
    have hrec : (doc.id, state.model.id) ∈ s₁.recoverablePairs :=
      Store.mem_recoverablePairs.2 ⟨r', hr', hp', recoverable_iff.2 hst'⟩
    exact .inr ⟨hrec, hqueued _ hrec⟩

/-! ## Two histories -/

/-- A history without interruptions is one of these histories. -/
theorem restart_of_history {C : View → Store → Req → Prop} {tr : List HistoryOp}
    (h : Run (HistoryStep E C) s tr s') :
    ∀ P, ∃ tr' P', Run (RestartStep E) ⟨s, P⟩ tr' ⟨s', P'⟩ := by
  induction h with
  | nil s => exact fun P => ⟨[], P, .nil _⟩
  | cons h _ ih =>
    intro P
    cases h with
    | startup h1 h2 =>
      obtain ⟨tr', P', hrun⟩ := ih _
      exact ⟨_, P', .cons (.startup h1) (.cons (.activate h2) hrun)⟩
    | enqueue h =>
      obtain ⟨tr', P', hrun⟩ := ih _
      exact ⟨_, P', .cons (.enqueue h) hrun⟩
    | claim =>
      obtain ⟨tr', P', hrun⟩ := ih _
      exact ⟨_, P', .cons .claim hrun⟩
    | dispatch h =>
      obtain ⟨tr', P', hrun⟩ := ih _
      exact ⟨_, P', .cons (.dispatch (h.mono fun _ _ _ _ h => h.1.mayFail)) hrun⟩
    | markStale h =>
      obtain ⟨tr', P', hrun⟩ := ih _
      exact ⟨_, P', .cons (.markStale h) hrun⟩
    | deleteDocument h =>
      obtain ⟨tr', P', hrun⟩ := ih _
      exact ⟨_, P', .cons (.deleteDocument h) hrun⟩

/-- A new model after an ingest: the document gets its filename row. -/
theorem startup_covers_planned_new : ∃ t tr state s', Run (RestartStep sampleEnv) ⟨.empty, ∅⟩ tr t ∧
    (reconcileEmbeddingStartup sampleEnv (sampleView [0x61]) otherModel 20).Ok t.store state s' ∧
      ∃ doc ∈ s'.documents.rows, ∃ r ∈ s'.embeddings.rows,
        r.pair = (doc.id, state.model.id) ∧ r.chunkType = .filename := by
  have hplay : ((playHistory sampleEnv AnyAccess (sampleOutside none 5) (ingestHistory [0x61]) .empty).any
      fun s => s.models.rows.all (fun m => decide (m.identity ≠ otherModel)) &&
        (finish (reconcileEmbeddingStartup sampleEnv (sampleView [0x61]) otherModel 20) s).any fun out =>
          !out.2.documents.rows.isEmpty) = true := by
    decide +kernel
  obtain ⟨s, hs, hcheck⟩ := (Option.any_eq_true _ _).1 hplay
  obtain ⟨hnew, hcheck⟩ := Bool.and_eq_true_iff.1 hcheck
  obtain ⟨⟨state, s'⟩, hout, hdocs⟩ := (Option.any_eq_true _ _).1 hcheck
  obtain ⟨tr, P, hrun⟩ := restart_of_history (run_of_playHistory hs) ∅
  have hne : s'.documents.rows ≠ [] := by simpa using hdocs
  obtain ⟨doc, hdoc⟩ := List.exists_mem_of_ne_nil _ hne
  have h := startup_covers_planned hrun (ok_of_finish hout) doc hdoc (.inl (by simpa using hnew))
  exact ⟨_, tr, state, s', hrun, ok_of_finish hout, doc, hdoc, h.1⟩

/-- Back under the first model a file is ingested; the next startup with the second model, which
    is registered already, leaves the document without any row for it. -/
theorem document_outside_model : ∃ t tr state s', Run (RestartStep sampleEnv) ⟨.empty, ∅⟩ tr t ∧
    (reconcileEmbeddingStartup sampleEnv (sampleView [0x61]) otherModel 20).Ok t.store state s' ∧
      ∃ doc ∈ s'.documents.rows, ∀ r ∈ s'.embeddings.rows, r.pair ≠ (doc.id, state.model.id) := by
  have hplay : ((playHistory sampleEnv AnyAccess (sampleOutside none 5)
      ([.startup (sampleView [0x61]) sampleModel 0, .startup (sampleView [0x61]) otherModel 0] ++
        ingestHistory [0x61]) .empty).any fun s =>
        (finish (reconcileEmbeddingStartup sampleEnv (sampleView [0x61]) otherModel 20) s).any fun out =>
          out.2.documents.rows.any fun doc => out.2.embeddings.rows.all fun r =>
            decide (r.pair ≠ (doc.id, out.1.model.id))) = true := by
    decide +kernel
  obtain ⟨s, hs, hcheck⟩ := (Option.any_eq_true _ _).1 hplay
  obtain ⟨⟨state, s'⟩, hout, hcheck⟩ := (Option.any_eq_true _ _).1 hcheck
  obtain ⟨doc, hdoc, hcheck⟩ := List.any_eq_true.1 hcheck
  obtain ⟨tr, P, hrun⟩ := restart_of_history (run_of_playHistory hs) ∅
  exact ⟨_, tr, state, s', hrun, ok_of_finish hout, doc, hdoc, by simpa using hcheck⟩

end Ask
