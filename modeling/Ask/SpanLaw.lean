/-
  Every model's chunks follow the current content, as long as a change of a
  document replans the rows of every model that has some.
-/
import Ask.Refs

namespace Ask

open Lib

variable {E : Env} {view : View} {s s' s₁ : Store} {e e' : Embeddings} {p : Pair}
  {docId modelId id now : ℤ} {doc : Document} {model : EmbeddingModel} {file : Bytes}
  {chunks : List ChunkRef}

/-- The pair has no rows, or those of the model's plan of the file. -/
def Agrees (E : Env) (e : Embeddings) (docId : ℤ) (model : EmbeddingModel) (file : Bytes) : Prop :=
  refsOf e (docId, model.id) = ∅ ∨ refsOf e (docId, model.id) = {c | c ∈ planRefs E file model}

theorem Agrees.congr (h : Agrees E e docId model file)
    (he : refsOf e' (docId, model.id) = refsOf e (docId, model.id)) : Agrees E e' docId model file := by
  rwa [Agrees, he]

/-- Every document's rows are those planned for one version of its file with the recorded hash. -/
def Planned (E : Env) (s : Store) : Prop :=
  ∀ doc ∈ s.documents.rows, ∃ file, E.hash file = doc.fileHash ∧
    ∀ model ∈ s.models.rows, Agrees E s.embeddings doc.id model file

theorem Planned.congr (h : Planned E s) (hd : ∀ doc ∈ s'.documents.rows, doc ∈ s.documents.rows)
    (hm : s'.models = s.models)
    (he : ∀ doc ∈ s'.documents.rows, ∀ model ∈ s.models.rows,
      refsOf s'.embeddings (doc.id, model.id) = refsOf s.embeddings (doc.id, model.id)) :
    Planned E s' := by
  intro doc hdoc
  obtain ⟨file, hhash, hagree⟩ := h doc (hd doc hdoc)
  rw [hm]
  exact ⟨file, hhash, fun model hmodel => (hagree model hmodel).congr (he doc hdoc model hmodel)⟩

/-! ## What may go wrong -/

/-- A document that changes has no rows of the other models, unless these are what the new
    content asks for. -/
def ReplansAll (E : Env) (view : View) (s : Store) : Req → Prop
  | .db (.upsertDocument doc modelId _ _) =>
    ∀ d ∈ s.documents.rows, d.filepath = doc.filepath → d.fileHash ≠ doc.fileHash →
      ∀ file, SeenAs view doc.filepath file → doc.fileHash = E.hash file →
        ∀ model ∈ s.models.rows, model.id ≠ modelId → Agrees E s.embeddings d.id model file
  | _ => True

/-- A startup that registers its model sees the version of each file that was ingested, or one
    with the same plan. -/
def StartupSees (E : Env) (s : Store) : HistoryOp → Prop
  | .startup view identity _ => (∀ m ∈ s.models.rows, m.identity ≠ identity) →
    ∀ doc ∈ s.documents.rows, ∀ file, E.hash file = doc.fileHash →
      ∀ model, model.identity = identity →
        plannedChunks E view doc.filepath model = planRefs E file model
  | _ => True

/-! ## The operations -/

theorem planned_ingested {w : World} {contentPlan : ContentReadPlan}
    (h : Ingested s doc id modelId chunks now s₁ s') (hs : Intact s)
    (hf : UpsertFacts E view False w doc modelId chunks model file contentPlan) (hw : w.store = s)
    (hc : ReplansAll E view s (.db (.upsertDocument doc modelId chunks now))) (hp : Planned E s) :
    Planned E s' := by
  subst hw
  have hchunks : chunks = planRefs E file model := by
    obtain hread | ⟨hfail, -⟩ := hf.read
    · rw [hf.chunks_eq, hread]; rfl
    · exact hfail.elim
  intro d hd
  rw [h.documents, h.written.mem] at hd
  rw [h.models]
  rcases hd with rfl | ⟨hd, hne⟩
  · refine ⟨file, hf.hash_eq.symm, fun model' hmodel' => ?_⟩
    by_cases hm : model'.id = modelId
    · obtain rfl := AutoTable.eq_of_key hmodel' hf.model_mem (hm.trans hf.model_id.symm)
      right
      show refsOf s'.embeddings (id, model'.id) = _
      rw [hm, h.refsOf_self (by rw [hchunks]; exact nodup_planned), hchunks]
    · have hsame := h.refsOf_of_ne hs.foreignKeys (p := (id, model'.id)) fun hp =>
        hm (congrArg Prod.snd hp)
      obtain ⟨hid, -⟩ | ⟨⟨d, hd, rfl, hpath, hhash⟩, -⟩ := h.written.case
      · -- a new document has no rows yet
        left
        refine hsame.trans (refsOf_eq_empty.2 fun r hr hpair => ?_)
        obtain ⟨⟨d, hd, hdid⟩, -⟩ := hasPair_iff.1 (hs.foreignKeys r hr)
        have := w.store.documents.le_seq d hd
        have : r.documentId = id := congrArg Prod.fst hpair
        omega
      · exact (hc d hd hpath hhash file hf.seen hf.hash_eq model' hmodel' hm).congr hsame
  · obtain ⟨file', hhash, hagree⟩ := hp d hd
    exact ⟨file', hhash, fun model' hmodel' => (hagree model' hmodel').congr
      (h.refsOf_of_ne hs.foreignKeys fun hp => hne (congrArg Prod.fst hp))⟩

theorem planned_replaced {ec : List EmbeddedChunk} (h : Replaced s docId modelId ec now s')
    (hrefs : {c | c ∈ ec.map (·.ref)} = refsOf s.embeddings (docId, modelId)) (hp : Planned E s) :
    Planned E s' := by
  refine hp.congr (by rw [h.documents]; exact fun _ h => h) h.models ?_
  intro doc _ model _
  by_cases hpair : (doc.id, model.id) = (docId, modelId)
  · rw [hpair, h.refsOf_self, hrefs]
  · exact h.refsOf_of_ne hpair

theorem planned_deleteDocument {u : Unit} (h : (deleteDocument docId).Ok s u s') (hp : Planned E s) :
    Planned E s' := by
  obtain rfl := ok_deleteDocument h
  refine hp.congr (fun doc hdoc => (AutoTable.mem_delete.1 hdoc).1) rfl ?_
  intro doc hdoc model _
  have hne : doc.id ≠ docId := by simpa using (AutoTable.mem_delete.1 hdoc).2
  refine refsOf_delete fun r hr => decide_eq_false fun hd => hne ?_
  exact (congrArg Prod.fst hr).symm.trans hd

theorem planned_markDocumentsStale {docIds : List ℤ} {u : Unit}
    (h : (markDocumentsStale docIds now).Ok s u s') (hs : Intact s) (hp : Planned E s) :
    Planned E s' := by
  obtain ⟨-, rfl⟩ | ⟨hne, h⟩ := ok_markDocumentsStale h
  · exact hp
  · obtain ⟨q, -, -, rfl⟩ := ok_markDocumentsStaleInQueueTime hne h
    exact hp.congr (fun _ h => h) rfl fun _ _ _ _ => refsOf_markStale hs.foreignKeys _

/-- The registration of a model that sees the recorded versions. -/
theorem planned_registerModel {identity : EmbeddingIdentity} {m : EmbeddingModel} {n : ℕ}
    (h : (registerModel E view identity now).Ok s (m, n) s') (hs : Intact s)
    (hsees : ∀ doc ∈ s.documents.rows, ∀ file, E.hash file = doc.fileHash →
      plannedChunks E view doc.filepath m = planRefs E file m) (hp : Planned E s) : Planned E s' := by
  obtain ⟨_, _, _, hid, -⟩ := ok_registerModel h
  refine (registerModel_invariant h hs (I := fun s₁ => s₁.documents = s.documents ∧
    s₁.models.rows = s.models.rows ++ [m] ∧ Planned E s₁) ?_ ?_ fun _ _ h => h).2.2.2
  · refine fun models hrows => ⟨rfl, hrows, fun doc hdoc => ?_⟩
    obtain ⟨file, hhash, hagree⟩ := hp doc hdoc
    refine ⟨file, hhash, fun model hmodel => ?_⟩
    rw [hrows] at hmodel
    rcases List.mem_append.1 hmodel with hmodel | hmodel
    · exact hagree model hmodel
    · obtain rfl := List.mem_singleton.1 hmodel
      left
      refine refsOf_eq_empty.2 ?_
      intro r hr hpair
      obtain ⟨-, m', hm', hid'⟩ := hasPair_iff.1 (hs.foreignKeys r hr)
      have := s.models.le_seq m' hm'
      have : r.modelId = model.id := congrArg Prod.snd hpair
      omega
  · rintro s₁ doc e hdoc - - hpend ⟨hd₁, hm₁, hp₁⟩
    refine ⟨hd₁, hm₁, fun d hd => ?_⟩
    obtain ⟨file, hhash, hagree⟩ := hp₁ d hd
    refine ⟨file, hhash, fun model hmodel => ?_⟩
    by_cases hpair : (d.id, model.id) = (doc.id, m.id)
    · obtain rfl : d = doc := AutoTable.eq_of_key (hd₁ ▸ hd) hdoc (congrArg Prod.fst hpair)
      have hmem : m ∈ s₁.models.rows := by rw [hm₁]; simp
      obtain rfl : model = m := AutoTable.eq_of_key hmodel hmem (congrArg Prod.snd hpair)
      have hplan := hsees d hdoc file hhash
      rw [hplan] at hpend
      refine .inr (hpend.refsOf_self nodup_planned fun c hc => ?_)
      obtain hnone | hsome := hagree model hmodel
      · rw [hnone] at hc; exact hc.elim
      · rw [hsome] at hc; exact hc
    · exact (hagree model hmodel).congr (hpend.refsOf_of_ne hpair)

/-! ## Histories -/

theorem planned_answers {entry : JobQueueEntry} {w w' : World} {r : Req} {a : r.Ans}
    (h : Answers view False w r a w') (hg : Grounds E view False Alone entry w r)
    (hc : ReplansAll E view w.store r) (hs : Intact w.store) (hp : Planned E w.store) :
    Planned E w'.store := by
  cases h.changes with
  | @committed op v store hok =>
    cases op with
    | findDocument | findModel | listRecoverable => exact hok.2 ▸ hp
    | completeJob | deferJob => rw [ok_exec_ok.1 hok]; exact hp
    | deleteDocument => exact planned_deleteDocument hok hp
    | replaceEmbeddings =>
      obtain ⟨document, model, file, rows, prepared, vectors, hf⟩ := hg
      exact planned_replaced (ok_replaceEmbeddingsForDocumentModel hok) (hf.refs hs) hp
    | upsertDocument =>
      obtain ⟨model, file, contentPlan, hf⟩ := hg
      obtain ⟨-, rfl, -⟩ | ⟨-, s₁, hi⟩ := ok_upsertDocumentAndReplacePendingEmbeddings hok
      · exact hp
      · exact planned_ingested hi hs hf rfl hc hp
  | called => exact hp
  | same => exact hp

theorem planned_historyStep {op : HistoryOp}
    (h : When (StartupSees E) (HistoryStep E (ReplansAll E)) s op s') (hs : Intact s)
    (hp : Planned E s) : Planned E s' := by
  obtain ⟨h, hsees⟩ := h
  cases h with
  | startup h1 h2 =>
    obtain ⟨n, s₁, q, hres, rfl, -⟩ := ok_reconcile h1
    have hp₁ : Planned E s₁ := by
      obtain ⟨-, -, rfl⟩ | ⟨hnew, hreg⟩ := ok_resolveModel hres
      · exact hp
      · obtain ⟨_, _, _, -, hid, -⟩ := ok_registerModel hreg
        exact planned_registerModel hreg hs
          (fun doc hdoc file hhash => hsees hnew doc hdoc file hhash _ hid) hp
    obtain ⟨rfl, -⟩ | ⟨v, -, rfl⟩ := ok_ensureActiveSearchModel h2
    · exact hp₁
    · exact hp₁
  | enqueue h => rw [ok_enqueueJobDb h]; exact hp
  | claim => exact hp
  | dispatch h =>
    refine (dispatch_invariant (fun h => h.1) h (I := fun w => Intact w.store ∧ Planned E w.store)
      (fun w r a w' hstep hg hw => ?_) ⟨hs, hp⟩).2
    exact ⟨intact_of_answers hstep.1 hw.1, planned_answers hstep.1 hg hstep.2 hw.1 hw.2⟩
  | markStale h => exact planned_markDocumentsStale h hs hp
  | deleteDocument h => exact planned_deleteDocument h hp

/-! ## The embedded rows -/

/-- The content spans of a pair's embedded rows are the ones the plan of the file asks for, and
    they cover its text if the model's chunks have a size. -/
structure SpansFollow (E : Env) (s : Store) (docId : ℤ) (model : EmbeddingModel) (file : Bytes) :
    Prop where
  spans : ∀ a b : ℤ, (∃ r ∈ s.embeddings.rows, r.pair = (docId, model.id) ∧ r.state = .embedded ∧
      r.chunkType = .content ∧ r.chunkStart = a ∧ r.chunkEnd = b) ↔
    ∃ content, (readContentPrefix file).content = some content ∧
      ∃ span ∈ (planChunks E.f64 content (asUsize model.chunkSize) (asUsize model.chunkOverlap)).spans,
        a = span.start ∧ b = span.end_
  cover : asUsize model.chunkSize ≠ 0 → ∀ content, (readContentPrefix file).content = some content →
    ∀ i < content.len, ∃ r ∈ s.embeddings.rows, r.pair = (docId, model.id) ∧ r.state = .embedded ∧
      r.chunkType = .content ∧ r.chunkStart ≤ i ∧ i < r.chunkEnd

/-- Spans that go on to the end of the content leave out none of its bytes. -/
theorem Tiled.cover {content : Lib.Utf8.Str} {overlap start : ℕ} {spans : List ChunkSpan}
    (h : Tiled content overlap start spans) {i : ℕ} (hi : start ≤ i) (hlt : i < content.len) :
    ∃ span ∈ spans, span.start ≤ i ∧ i < span.end_ := by
  induction h with
  | last => exact ⟨_, List.mem_singleton.2 rfl, hi, hlt⟩
  | @step start end_ next rest _ _ _ hfol _ ih =>
    by_cases hend : i < end_
    · exact ⟨_, List.mem_cons_self, hi, hend⟩
    · obtain ⟨span, hspan, h⟩ := ih (hfol.le_end.trans (not_lt.1 hend))
      exact ⟨span, List.mem_cons_of_mem _ hspan, h⟩

theorem content_ne_nil {content : Lib.Utf8.Str} (h : (readContentPrefix file).content = some content) :
    content.bytes ≠ [] := by
  unfold readContentPrefix readContentPrefixWithBudget at h
  dsimp only at h
  split_ifs at h with hzero
  split at h
  · cases h
  · dsimp only at h
    split_ifs at h with hnil
    cases h
    simpa using hnil

theorem content_mem_planRefs {a b : ℤ} : (ChunkType.content, a, b) ∈ planRefs E file model ↔
    ∃ content, (readContentPrefix file).content = some content ∧
      ∃ span ∈ (planChunks E.f64 content (asUsize model.chunkSize) (asUsize model.chunkOverlap)).spans,
        a = span.start ∧ b = span.end_ := by
  unfold planRefs planPendingEmbeddingsForReadPlan planPendingEmbeddingsForContent
  cases hc : (readContentPrefix file).content with
  | none => simp
  | some content =>
    have hne : content.bytes.isEmpty = false := by simpa using content_ne_nil hc
    simp only [Option.filter_some, hne, Bool.not_false, if_true,
      List.mem_cons, Prod.mk.injEq, reduceCtorEq, false_and, false_or, List.mem_map,
      Option.some.injEq, exists_eq_left', true_and]
    exact exists_congr fun span => and_congr_right fun _ => and_congr eq_comm eq_comm

theorem spansFollow_of_planned {r : DocumentEmbedding} (hs : Intact s) (hr : r ∈ s.embeddings.rows)
    (hst : r.state = .embedded) (hp : r.pair = (docId, model.id))
    (h : Agrees E s.embeddings docId model file) : SpansFollow E s docId model file := by
  have hrefs : refsOf s.embeddings (docId, model.id) = {c | c ∈ planRefs E file model} :=
    h.resolve_left fun hnone => refsOf_eq_empty.1 hnone r hr hp
  have hspans : ∀ a b : ℤ, (∃ r ∈ s.embeddings.rows, r.pair = (docId, model.id) ∧
      r.state = .embedded ∧ r.chunkType = .content ∧ r.chunkStart = a ∧ r.chunkEnd = b) ↔
        (ChunkType.content, a, b) ∈ planRefs E file model := by
    intro a b
    have hmem := Set.ext_iff.1 hrefs (.content, a, b)
    refine Iff.trans ⟨?_, ?_⟩ hmem
    · rintro ⟨r', hr', hp', -, hty, rfl, rfl⟩
      exact ⟨r', hr', hp', by rw [DocumentEmbedding.ref, hty]⟩
    · rintro ⟨r', hr', hp', hc⟩
      simp only [DocumentEmbedding.ref, Prod.mk.injEq] at hc
      exact ⟨r', hr', hp', hs.uniform r hr r' hr' (hp.trans hp'.symm) hst, hc⟩
  refine ⟨fun a b => (hspans a b).trans content_mem_planRefs, fun hsize content hc i hi => ?_⟩
  obtain ⟨span, hspan, hle, hlt⟩ := (tiled_structureChunks E.f64 content (content_ne_nil hc)
    (asUsize model.chunkSize) (asUsize model.chunkOverlap) _ (Nat.one_le_iff_ne_zero.2 hsize)).cover
      (Nat.zero_le i) hi
  obtain ⟨r', hr', hp', hst', hty', ha, hb⟩ :=
    (hspans span.start span.end_).2 (content_mem_planRefs.2 ⟨content, hc, span, hspan, rfl, rfl⟩)
  exact ⟨r', hr', hp', hst', hty', by omega, by omega⟩

/-- **The chunks of every model follow the current content**: in every history whose changes
    replan all models, and whose startups see the recorded versions, the embedded rows of a pair
    are cut where the model's plan of the recorded version of the file cuts. -/
theorem spans_follow_content {tr : List HistoryOp}
    (h : Run (When (StartupSees E) (HistoryStep E (ReplansAll E))) .empty tr s)
    {r : DocumentEmbedding} (hr : r ∈ s.embeddings.rows) (hst : r.state = .embedded) :
    ∃ doc ∈ s.documents.rows, ∃ model ∈ s.models.rows, r.pair = (doc.id, model.id) ∧
      ∃ file, E.hash file = doc.fileHash ∧ SpansFollow E s doc.id model file := by
  have hinv : Intact s ∧ Planned E s := h.invariant (I := fun s => Intact s ∧ Planned E s)
    (fun s op s' _ hstep hs =>
      ⟨intact_historyStep hstep.1 hs.1, planned_historyStep hstep hs.1 hs.2⟩)
    ⟨intact_empty, fun doc h => absurd h List.not_mem_nil⟩
  obtain ⟨⟨doc, hdoc, hdid⟩, model, hmodel, hmid⟩ := hasPair_iff.1 (hinv.1.foreignKeys r hr)
  obtain ⟨file, hhash, hagree⟩ := hinv.2 doc hdoc
  have hp : r.pair = (doc.id, model.id) := by rw [DocumentEmbedding.pair, hdid, hmid]
  exact ⟨doc, hdoc, model, hmodel, hp, file, hhash,
    spansFollow_of_planned hinv.1 hr hst hp (hagree model hmodel)⟩

/-! ## Two histories -/

instance (docId : ℤ) (model : EmbeddingModel) (file : Bytes) :
    Decidable (Agrees E e docId model file) :=
  decidable_of_iff
    ((∀ r ∈ e.rows, r.pair ≠ (docId, model.id)) ∨
      (∀ r ∈ e.rows, r.pair = (docId, model.id) → r.ref ∈ planRefs E file model) ∧
        ∀ c ∈ planRefs E file model, ∃ r ∈ e.rows, r.pair = (docId, model.id) ∧ r.ref = c)
    (or_congr refsOf_eq_empty.symm ⟨fun h => Set.Subset.antisymm
        (fun _ ⟨r, hr, hp, hc⟩ => hc ▸ h.1 r hr hp) h.2,
      fun h => ⟨fun r hr hp => (Set.ext_iff.1 h r.ref).1 ⟨r, hr, hp, rfl⟩,
        fun c hc => (Set.ext_iff.1 h c).2 hc⟩⟩)

/-- What `ReplansAll` asks for where the only file is `/r/f`. -/
def ReplansSample (E : Env) (view : View) (s : Store) : Req → Prop
  | .db (.upsertDocument doc modelId _ _) =>
    ∀ d ∈ s.documents.rows, d.filepath = doc.filepath → d.fileHash ≠ doc.fileHash →
      ∀ file ∈ (view "/r/f").toList, ∀ model ∈ s.models.rows, model.id ≠ modelId →
        Agrees E s.embeddings d.id model file
  | _ => True

instance (view : View) (s : Store) (r : Req) : Decidable (ReplansSample E view s r) :=
  match r with
  | .db (.upsertDocument doc modelId _ _) =>
    inferInstanceAs (Decidable (∀ d ∈ s.documents.rows, d.filepath = doc.filepath →
      d.fileHash ≠ doc.fileHash → ∀ file ∈ (view "/r/f").toList, ∀ model ∈ s.models.rows,
        model.id ≠ modelId → Agrees E s.embeddings d.id model file))
  | .connect | .metadata _ | .openFile _ | .readFile _ | .isDir _ | .canonicalize _ | .walk _
  | .gitPlan _ | .trackedFiles _ | .embed _ _ | .now | .db (.findDocument _) | .db (.findModel _)
  | .db (.listRecoverable _ _) | .db (.completeJob _) | .db (.deferJob _ _ _)
  | .db (.deleteDocument _) | .db (.replaceEmbeddings _ _ _ _) => isTrue trivial

theorem replansAll_of_sample {r : Req} (h : ReplansSample E (sampleView file) s r) :
    ReplansAll E (sampleView file) s r := by
  cases r with
  | db op =>
    cases op with
    | upsertDocument doc modelId chunks now =>
      rintro d hd hpath hhash file' ⟨path, -, hview⟩ -
      unfold sampleView at hview
      split_ifs at hview
      refine h d hd hpath hhash file' (Option.mem_toList.2 ?_)
      rw [sampleView, if_pos rfl, hview]
    | _ => trivial
  | _ => trivial

/-- If it is a dispatch, the only file is `/r/f`. -/
def OnSample (op : HistoryOp) : Prop :=
  ∀ view entry modelId, op = .dispatch view entry modelId → ∃ file, view = sampleView file

theorem run_of_sample {o : Outside} {ops : List HistoryOp} (hops : ∀ op ∈ ops, OnSample op)
    (h : playHistory E (ReplansSample E) o ops s = some s') : Run (HistoryStep E (ReplansAll E)) s ops s' := by
  refine (run_of_playHistory h).mono_of_mem fun s₁ op s₂ hop hstep => hstep.imp ?_
  rintro view entry modelId heq t r hr
  obtain ⟨file, rfl⟩ := hops op hop view entry modelId heq
  exact replansAll_of_sample hr

/-- A startup that finds the file as it was ingested. -/
theorem startupSees_sample {identity : EmbeddingIdentity} (hfile : file ∈ sampleHashes.map Prod.fst)
    (h : ∀ doc ∈ s.documents.rows, doc.filepath = "/r/f" ∧ doc.fileHash = sampleEnv.hash file) :
    StartupSees sampleEnv s (.startup (sampleView file) identity now) := by
  intro _ doc hdoc file' hhash model _
  obtain ⟨hpath, hrecorded⟩ := h doc hdoc
  obtain rfl := eq_of_sampleHash hfile (hhash.trans hrecorded)
  rw [plannedChunks, planRefs, hpath, sampleView, if_pos rfl]

/-- The file is embedded under the first model, and again after a change. -/
def changedHistory (old new : Bytes) : List HistoryOp :=
  ingestHistory old ++ embedHistory old ++
    [.enqueue .ingestFolder sampleIngest 30, .claim 40,
      .dispatch (sampleView new) ⟨3, .ingestFolder, sampleIngest, some 40, 30⟩ 1, .claim 50,
      .dispatch (sampleView new) ⟨4, .embedDocument, embedPayloadJson (1, 1), some 50, 5⟩ 1]

/-- Under the second model the file is embedded too; it changes, and is embedded under both. -/
def bothModelsHistory (new newer : Bytes) : List HistoryOp :=
  [.claim 70,
    .dispatch (sampleView new) ⟨5, .embedDocument, embedPayloadJson (1, 2), some 70, 60⟩ 2,
    .enqueue .ingestFolder sampleIngest 80, .claim 90,
    .dispatch (sampleView newer) ⟨6, .ingestFolder, sampleIngest, some 90, 80⟩ 2, .claim 100,
    .dispatch (sampleView newer) ⟨7, .embedDocument, embedPayloadJson (1, 1), some 100, 5⟩ 2, .claim 110,
    .dispatch (sampleView newer) ⟨8, .embedDocument, embedPayloadJson (1, 2), some 110, 5⟩ 2]

/-- Four bytes become one before a second model is registered, and another one after. -/
theorem spans_follow_content_changes : ∃ s,
    Run (When (StartupSees sampleEnv) (HistoryStep sampleEnv (ReplansAll sampleEnv))) .empty
      (changedHistory fourBytes [0x61] ++
        .startup (sampleView [0x61]) otherModel 60 :: bothModelsHistory [0x61] [0x62]) s ∧
      s.embeddings.rows.map (fun r => (r.pair, r.state)) =
        [((1, 1), .embedded), ((1, 1), .embedded), ((1, 2), .embedded), ((1, 2), .embedded)] ∧
      ∀ r ∈ s.embeddings.rows, r.state = .embedded →
        ∃ doc ∈ s.documents.rows, ∃ model ∈ s.models.rows, r.pair = (doc.id, model.id) ∧
          ∃ file, sampleEnv.hash file = doc.fileHash ∧ SpansFollow sampleEnv s doc.id model file := by
  have hplay : ((playHistory sampleEnv (ReplansSample sampleEnv) (sampleOutside none 5)
      (changedHistory fourBytes [0x61]) .empty).any fun s₁ =>
        decide (∀ doc ∈ s₁.documents.rows,
          doc.filepath = "/r/f" ∧ doc.fileHash = sampleEnv.hash [0x61]) &&
        (playHistory sampleEnv (ReplansSample sampleEnv) (sampleOutside none 5)
          (.startup (sampleView [0x61]) otherModel 60 :: bothModelsHistory [0x61] [0x62]) s₁).any fun s =>
            decide (s.embeddings.rows.map (fun r => (r.pair, r.state)) =
              [((1, 1), .embedded), ((1, 1), .embedded), ((1, 2), .embedded), ((1, 2), .embedded)])) =
      true := by
    decide +kernel
  obtain ⟨s₁, hs₁, hcheck⟩ := (Option.any_eq_true _ _).1 hplay
  obtain ⟨hrecorded, hcheck⟩ := Bool.and_eq_true_iff.1 hcheck
  obtain ⟨s, hs, hrows⟩ := (Option.any_eq_true _ _).1 hcheck
  have hfirst : Run (When (StartupSees sampleEnv) (HistoryStep sampleEnv (ReplansAll sampleEnv))) .empty
      (changedHistory fourBytes [0x61]) s₁ := by
    have honly : ∀ op ∈ changedHistory fourBytes [0x61], OnSample op := by
      simp [changedHistory, ingestHistory, embedHistory, OnSample]
    cases run_of_sample honly hs₁ with
    | cons h hrest =>
      refine .cons ⟨h, fun _ doc hdoc => absurd hdoc List.not_mem_nil⟩ (hrest.when ?_)
      simp [embedHistory, StartupSees]
  have hsecond : Run (When (StartupSees sampleEnv) (HistoryStep sampleEnv (ReplansAll sampleEnv))) s₁
      (.startup (sampleView [0x61]) otherModel 60 :: bothModelsHistory [0x61] [0x62]) s := by
    have honly : ∀ op ∈ .startup (sampleView [0x61]) otherModel 60 :: bothModelsHistory [0x61] [0x62],
        OnSample op := by
      simp [bothModelsHistory, OnSample]
    cases run_of_sample honly hs with
    | cons h hrest =>
      refine .cons ⟨h, startupSees_sample (by decide) (of_decide_eq_true hrecorded)⟩ (hrest.when ?_)
      simp [bothModelsHistory, StartupSees]
  have hrun := hfirst.append hsecond
  exact ⟨s, hrun, of_decide_eq_true hrows, fun r hr hst => spans_follow_content hrun hr hst⟩

/-- The file changes after a second model was registered, and is ingested under that model; then
    the first model's job is dispatched. -/
def secondModelHistory (old new : Bytes) : List HistoryOp :=
  ingestHistory old ++ embedHistory old ++
    [.startup (sampleView old) otherModel 30, .claim 40,
      .dispatch (sampleView old) ⟨3, .embedDocument, embedPayloadJson (1, 2), some 40, 30⟩ 2,
      .enqueue .ingestFolder sampleIngest 50, .claim 60,
      .dispatch (sampleView new) ⟨4, .ingestFolder, sampleIngest, some 60, 50⟩ 2, .claim 70,
      .dispatch (sampleView new) ⟨5, .embedDocument, embedPayloadJson (1, 1), some 70, 5⟩ 2]

/-- Its rows still have the spans of the four bytes, on a document with the hash of the eight. -/
theorem old_spans_embedded : ∃ s, Run (HistoryStep sampleEnv AnyAccess) .empty
    (secondModelHistory fourBytes eightBytes) s ∧
      ∃ r ∈ s.embeddings.rows, r.pair = (1, 1) ∧ r.state = .embedded ∧
        ∀ doc ∈ s.documents.rows, ∀ model ∈ s.models.rows, r.pair = (doc.id, model.id) →
          ∀ file, sampleEnv.hash file = doc.fileHash → ¬SpansFollow sampleEnv s doc.id model file := by
  have hplay : ((playHistory sampleEnv AnyAccess (sampleOutside none 5)
      (secondModelHistory fourBytes eightBytes) .empty).any fun s =>
        (s.embeddings.rows.any fun r => decide (r.pair = (1, 1) ∧ r.state = .embedded)) &&
        s.embeddings.rows.all (fun r => decide (r.state = .embedded → r.chunkEnd ≤ 4)) &&
        s.documents.rows.all (fun doc => decide (doc.fileHash = sampleEnv.hash eightBytes)) &&
        s.models.rows.all fun model => decide (model.chunkSize = 4)) = true := by
    decide +kernel
  obtain ⟨s, hs, hcheck⟩ := (Option.any_eq_true _ _).1 hplay
  simp only [Bool.and_eq_true, List.any_eq_true, List.all_eq_true, decide_eq_true_eq] at hcheck
  obtain ⟨⟨⟨⟨r, hr, hp, hst⟩, hends⟩, hdocs⟩, hmodels⟩ := hcheck
  refine ⟨s, run_of_playHistory hs, r, hr, hp, hst, fun doc hdoc model hmodel _ file hhash h => ?_⟩
  obtain rfl := eq_of_sampleHash (by decide) (hhash.trans (hdocs doc hdoc))
  have hcontent : ((readContentPrefix eightBytes).content.any fun content =>
      decide (4 < content.len)) = true := by
    decide +kernel
  obtain ⟨content, hc, hlen⟩ := (Option.any_eq_true _ _).1 hcontent
  -- the fifth byte is in no chunk
  obtain ⟨r', hr', -, hst', -, -, hend⟩ :=
    h.cover (by rw [hmodels model hmodel]; decide) content hc 4 (of_decide_eq_true hlen)
  have := hends r' hr' hst'
  omega

end Ask
