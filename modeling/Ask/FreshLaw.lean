/-
  Embedded rows never lag behind the recorded hash, as long as no other version
  is ingested between a dispatch's hash check and its replace transaction.
-/
import Ask.Refs
import Ask.System

namespace Ask

open Lib

/-! ## Vectors and files -/

/-- The input for a chunk of a file: the path, or the bytes between the chunk's offsets. -/
def chunkInput (path : String) (file : Bytes) (c : ChunkRef) : Bytes :=
  match c.1 with
  | .filename => utf8Bytes path
  | .content => (file.drop c.2.1.toNat).take (c.2.2.toNat - c.2.1.toNat)

/-- The row's vector is what a call of the row's model returned for the row's chunk of the file, and
    the file is the version that the calling dispatch saw. -/
def ComputedFrom (calls : List EmbedCall) (path : String) (file : Bytes) (r : DocumentEmbedding) :
    Prop :=
  ∃ call ∈ calls, call.model.id = r.modelId ∧ call.view path = some file ∧ ∃ vector,
    (chunkInput path file r.ref, vector) ∈ call.inputs.zip call.vectors ∧
      r.embedding = some (serializeEmbedding vector)

/-- Every embedded row was computed from a version of the file with the recorded hash: the very
    version its dispatch saw. -/
def Fresh (E : Env) (w : World) : Prop :=
  ∀ r ∈ w.store.embeddings.rows, r.state = .embedded →
    ∃ doc ∈ w.store.documents.rows, doc.id = r.documentId ∧
      ∃ file, E.hash file = doc.fileHash ∧ ComputedFrom w.calls doc.filepath file r

variable {E : Env} {mayFail : Prop} {view : View} {w w' : World} {s s' s₁ : Store} {file : Bytes}
  {docId modelId id now : ℤ} {doc : Document} {chunks : List ChunkRef} {entry : JobQueueEntry}

theorem ComputedFrom.mono {calls calls' : List EmbedCall} {path : String} {r : DocumentEmbedding}
    (h : ComputedFrom calls path file r) (hc : ∀ c ∈ calls, c ∈ calls') :
    ComputedFrom calls' path file r := by
  obtain ⟨call, hcall, hrest⟩ := h
  exact ⟨call, hc call hcall, hrest⟩

theorem Fresh.congr (h : Fresh E w)
    (he : ∀ r ∈ w'.store.embeddings.rows, r.state = .embedded → r ∈ w.store.embeddings.rows)
    (hd : ∀ r ∈ w'.store.embeddings.rows, ∀ doc ∈ w.store.documents.rows, doc.id = r.documentId →
      doc ∈ w'.store.documents.rows)
    (hc : ∀ c ∈ w.calls, c ∈ w'.calls) : Fresh E w' := by
  intro r hr hst
  obtain ⟨doc, hdoc, hid, file, hhash, hcomp⟩ := h r (he r hr hst) hst
  exact ⟨doc, hd r hr doc hdoc hid, hid, file, hhash, hcomp.mono hc⟩

/-! ## What a dispatch embeds -/

theorem of_readContentFor {rows : List DocumentEmbedding} {t : Lib.Utf8.Str}
    (h : readContentFor rows (fun budget =>
      (.ok (readContentPrefixWithBudget file budget) : Except AnyError _)) = .ok (some t)) :
    ∃ n, t.bytes = file.take n := by
  unfold readContentFor at h
  cases hm : maxContentEnd rows with
  | none => rw [hm] at h; cases h
  | some m =>
    rw [hm] at h
    cases hn : usizeTryFrom m "content chunk_end must fit into usize" with
    | error e => simp only [hn] at h; cases h
    | ok n =>
      simp only [hn] at h
      have hc : (readContentPrefixWithBudget file n).content = some t := Except.ok.inj h
      obtain ⟨-, hne, hdec⟩ := readContentPrefixWithBudget_content.1 hc
      obtain ⟨-, -, -, htake⟩ := of_decodeBoundedUtf8Prefix hdec hne
      exact ⟨min t.len (n + 3), by rw [← htake, List.take_take]⟩

theorem usizeTryFrom_eq_ok {z : ℤ} {text : String} {n : ℕ} (h : usizeTryFrom z text = .ok n) :
    z.toNat = n := by
  unfold usizeTryFrom at h
  split_ifs at h
  exact Except.ok.inj h

/-- A prepared chunk's input is its chunk of the file. -/
theorem input_of_prepareChunk {path : String} {content : Option Lib.Utf8.Str} {row : DocumentEmbedding}
    {c : PreparedChunk} (hcontent : ∀ t, content = some t → ∃ n, t.bytes = file.take n)
    (h : prepareChunk path docId content row = .ok c) : c.input = chunkInput path file c.ref := by
  rw [ref_of_prepareChunk h]
  unfold prepareChunk at h
  split at h
  · rename_i hty
    cases h
    simp [chunkInput, DocumentEmbedding.ref, hty]
  · rename_i hty
    split at h
    · cases h
    · rename_i t
      obtain ⟨n, hn⟩ := hcontent t rfl
      cases ha : usizeTryFrom row.chunkStart "chunk_start must fit into usize" with
      | error e => rw [ha] at h; cases h
      | ok a =>
        cases hb : usizeTryFrom row.chunkEnd "chunk_end must fit into usize" with
        | error e => rw [ha, hb] at h; cases h
        | ok b =>
          rw [ha, hb] at h
          change (if _ then _ else _) = _ at h
          split_ifs at h with hcond
          cases h
          have hlen : b ≤ n := hcond.2.1.trans (by rw [Lib.Utf8.Str.len, hn]; exact List.length_take_le _ _)
          simp only [chunkInput, DocumentEmbedding.ref, hty, usizeTryFrom_eq_ok ha,
            usizeTryFrom_eq_ok hb, Lib.Utf8.Str.slice, hn, List.drop_take, List.take_take]
          rw [min_eq_left (by omega)]

theorem input_of_prepared {path : String} {rows : List DocumentEmbedding} {prepared : List PreparedChunk}
    (h : prepareEmbeddedChunks path docId rows (fun budget =>
      (.ok (readContentPrefixWithBudget file budget) : Except AnyError _)) = .ok prepared) :
    ∀ c ∈ prepared, c.input = chunkInput path file c.ref := by
  obtain ⟨content, hread, hall⟩ := prepared_from h
  have hcontent : ∀ t, content = some t → ∃ n, t.bytes = file.take n := by
    rintro t rfl
    exact of_readContentFor hread
  intro c hc
  clear h hread
  induction hall with
  | nil => cases hc
  | cons hrow _ ih =>
    rcases List.mem_cons.1 hc with rfl | hc
    · exact input_of_prepareChunk hcontent hrow
    · exact ih hc

/-- The chunks of an embed pass, each with a prepared chunk and its vector. -/
theorem mem_embeddedChunks {prepared : List PreparedChunk} {vectors : List Vector32} {c : EmbeddedChunk}
    (hc : c ∈ embeddedChunks prepared vectors) : ∃ pc v, (pc, v) ∈ prepared.zip vectors ∧
      c = ⟨pc.chunkType, pc.chunkStart, pc.chunkEnd, serializeEmbedding v⟩ := by
  rw [embeddedChunks, ← List.map_uncurry_zip_eq_zipWith] at hc
  obtain ⟨⟨pc, v⟩, hmem, rfl⟩ := List.mem_map.1 hc
  exact ⟨pc, v, hmem, rfl⟩

/-- What a dispatch writes was computed from the file it saw. -/
theorem computedFrom_embedded {R : World → World → Prop} {ec : List EmbeddedChunk}
    {document : Document} {model : EmbeddingModel} {rows : List DocumentEmbedding}
    {prepared : List PreparedChunk} {vectors : List Vector32} {c : EmbeddedChunk} {rowId : ℤ}
    (h : ReplaceFacts E view R entry w docId modelId ec document model file rows prepared vectors)
    (hc : c ∈ ec) :
    ComputedFrom w.calls document.filepath file (embeddedRow docId modelId now c rowId) := by
  rw [h.chunks_eq] at hc
  obtain ⟨pc, v, hmem, rfl⟩ := mem_embeddedChunks hc
  refine ⟨_, h.call_mem, h.model_id, h.view_eq, v, ?_, rfl⟩
  have hzip : (pc.input, v) ∈ (prepared.map (·.input)).zip vectors := by
    rw [List.zip_map_left]
    exact List.mem_map.2 ⟨(pc, v), hmem, rfl⟩
  rwa [input_of_prepared h.prepares pc (List.of_mem_zip hmem).1] at hzip

/-! ## The steps -/

/-- At the replace transaction the recorded hash is still that of the file the dispatch saw. -/
def SeesRecorded (E : Env) (view : View) (s : Store) : Req → Prop
  | .db (.replaceEmbeddings docId _ _ _) => ∀ doc ∈ s.documents.rows, doc.id = docId →
    (view doc.filepath).map E.hash = some doc.fileHash
  | _ => True

/-- Every step is free, but a replace transaction must see the recorded version. -/
def ReplacesRecorded (E : Env) (sys : System) : SystemOp → Prop
  | .access i => ∀ t ∈ sys.dispatches[i]?, ∀ r ∈ t.next?, SeesRecorded E t.view sys.store r
  | _ => True

theorem fresh_replaced {ec : List EmbeddedChunk} {document : Document} {model : EmbeddingModel}
    {rows : List DocumentEmbedding} {prepared : List PreparedChunk} {vectors : List Vector32}
    {planned : List Pair} (h : Replaced w.store docId modelId ec now s')
    (hf : ReplaceFacts E view Later entry w docId modelId ec document model file rows prepared vectors)
    (hc : SeesRecorded E view w.store (.db (.replaceEmbeddings docId modelId ec now)))
    (hw : Fresh E w) : Fresh E { w with store := s', planned := planned } := by
  intro r hr hst
  change r ∈ s'.embeddings.rows at hr
  show ∃ doc ∈ s'.documents.rows, _
  rw [h.documents]
  obtain ⟨hr, -⟩ | ⟨-, c, hmem, he⟩ := h.mem_embeddings hr
  · exact hw r hr hst
  · obtain ⟨⟨doc, hdoc, hid⟩, -⟩ := hasPair_iff.1 (h.hasPair (List.ne_nil_of_mem hmem))
    -- the stored row has the path of the one that the dispatch has loaded
    have hpath : document.filepath = doc.filepath := by
      obtain ⟨w₀, hlater, hmem₀⟩ := hf.document_mem
      obtain ⟨doc₀, hdoc₀, hid₀, hp₀⟩ := hlater.path doc hdoc
        (by rw [hid, ← hf.document_id]; exact w₀.store.documents.le_seq _ hmem₀)
      rw [← hp₀, AutoTable.eq_of_key hdoc₀ hmem₀ (hid₀.trans (hid.trans hf.document_id.symm))]
    have hsees := hc doc hdoc hid
    rw [← hpath, hf.view_eq, Option.map_some, Option.some.injEq] at hsees
    refine ⟨doc, hdoc, by rw [he]; exact hid, file, hsees, ?_⟩
    rw [he, ← hpath]
    exact computedFrom_embedded (w := w) hf hmem

theorem fresh_ingested {planned : List Pair} (h : Ingested w.store doc id modelId chunks now s₁ s')
    (hs : Intact w.store) (hw : Fresh E w) :
    Fresh E { w with store := s', planned := planned } := by
  intro r hr hst
  obtain ⟨hr, hd⟩ | ⟨r₀, -, -, -, rfl⟩ | ⟨c, -, he, -⟩ := h.mem_embeddings hs.foreignKeys hr
  · obtain ⟨doc', hdoc', hid, hrest⟩ := hw r hr hst
    refine ⟨doc', ?_, hid, hrest⟩
    show doc' ∈ s'.documents.rows
    rw [h.documents, h.written.mem]
    exact .inr ⟨hdoc', hid ▸ hd⟩
  · exact absurd hst (staleOf_state r₀)
  · rw [he] at hst; cases hst

theorem fresh_answers {r : Req} {a : r.Ans} (h : Answers view mayFail w r a w')
    (hg : Grounds E view mayFail Later entry w r) (hc : SeesRecorded E view w.store r)
    (hs : Intact w.store) (hw : Fresh E w) : Fresh E w' := by
  cases h.changes with
  | @committed op v store hok =>
    cases op with
    | findDocument | findModel | listRecoverable => exact hok.2 ▸ hw
    | completeJob | deferJob => rw [ok_exec_ok.1 hok]; exact hw
    | deleteDocument docId =>
      rw [ok_deleteDocument hok]
      refine hw.congr (fun r hr _ => (AutoTable.mem_delete.1 hr).1) (fun r hr doc hdoc hid => ?_)
        fun _ h => h
      refine AutoTable.mem_delete.2 ⟨hdoc, ?_⟩
      rw [hid]
      exact (AutoTable.mem_delete.1 hr).2
    | replaceEmbeddings =>
      obtain ⟨document, model, file, rows, prepared, vectors, hf⟩ := hg
      exact fresh_replaced (ok_replaceEmbeddingsForDocumentModel hok) hf hc hw
    | upsertDocument =>
      obtain ⟨-, rfl, -⟩ | ⟨-, s₁, hi⟩ := ok_upsertDocumentAndReplacePendingEmbeddings hok
      · exact hw
      · exact fresh_ingested hi hs hw
  | called _ c => exact hw.congr (fun _ h _ => h) (fun _ _ _ h _ => h) fun _ h => List.mem_cons_of_mem c h
  | same => exact hw

theorem fresh_step {sys sys' : System} {op : SystemOp} (h : SystemStep E mayFail sys op sys')
    (hc : ReplacesRecorded E sys op) (hs : Intact sys.store)
    (ht : ∀ t ∈ sys.dispatches, Dispatching E mayFail sys.world t) (hw : Fresh E sys.world) :
    Fresh E sys'.world := by
  cases h with
  | enqueue h => rw [ok_enqueueJobDb h]; exact hw
  | claim => exact hw
  | access hi ha _ =>
    refine fresh_answers ha ((ht _ (List.mem_of_getElem? hi)).grounds ha) ?_ hs hw
    exact hc _ hi _ rfl
  | markStale h =>
    obtain ⟨-, rfl⟩ | ⟨hne, h⟩ := ok_markDocumentsStale h
    · exact hw
    · obtain ⟨q, -, -, rfl⟩ := ok_markDocumentsStaleInQueueTime hne h
      refine hw.congr (fun r hr hst => ?_) (fun _ _ _ h _ => h) fun _ h => h
      obtain ⟨r₀, hr₀, rfl⟩ := (mem_markStale hs.foreignKeys).1 hr
      split_ifs at hst ⊢
      · exact absurd hst (staleOf_state r₀)
      · exact hr₀

/-- **Embedded rows never lag behind the recorded hash**, in any interleaving of any number of
    workers where every replace transaction finds the hash of the version its dispatch saw. -/
theorem embedded_rows_fresh {tr : List SystemOp} {sys : System}
    (h : Run (When (ReplacesRecorded E) (SystemStep E True)) (.start s) tr sys)
    (hs : s.embeddings.rows = []) {r : DocumentEmbedding} (hr : r ∈ sys.store.embeddings.rows)
    (hst : r.state = .embedded) :
    ∃ doc ∈ sys.store.documents.rows, doc.id = r.documentId ∧
      ∃ file, E.hash file = doc.fileHash ∧ ComputedFrom sys.world.calls doc.filepath file r := by
  have hnone : ∀ r, r ∉ s.embeddings.rows := by simp [hs]
  refine system_invariant h (I := fun sys => Fresh E sys.world)
    ⟨fun r hr => absurd hr (hnone r), fun r hr => absurd hr (hnone r), fun r hr => absurd hr (hnone r)⟩
    (fun r hr => absurd hr (hnone r)) (fun _ _ _ => fresh_step) r hr hst

/-! ## Two interleavings -/

instance (view : View) (s : Store) (r : Req) : Decidable (SeesRecorded E view s r) :=
  match r with
  | .db (.replaceEmbeddings docId _ _ _) =>
    inferInstanceAs (Decidable (∀ doc ∈ s.documents.rows, doc.id = docId →
      (view doc.filepath).map E.hash = some doc.fileHash))
  | .connect | .metadata _ | .openFile _ | .readFile _ | .isDir _ | .canonicalize _ | .walk _
  | .gitPlan _ | .trackedFiles _ | .embed _ _ | .now | .db (.findDocument _) | .db (.findModel _)
  | .db (.listRecoverable _ _) | .db (.completeJob _) | .db (.deferJob _ _ _)
  | .db (.deleteDocument _) | .db (.upsertDocument _ _ _ _) => isTrue trivial

instance (sys : System) (op : SystemOp) : Decidable (ReplacesRecorded E sys op) :=
  match op with
  | .access i => inferInstanceAs (Decidable
      (∀ t ∈ sys.dispatches[i]?, ∀ r ∈ t.next?, SeesRecorded E t.view sys.store r))
  | .enqueue _ _ _ | .claim _ _ _ | .markStale _ _ => isTrue trivial

/-- One worker after the other: `a` is ingested and embedded, then `abcd`. -/
def twoVersionsOps : List SystemOp :=
  ingestOps [0x61] ++ accesses 1 17 ++ reingestOps fourBytes ++
    .claim (sampleView fourBytes) 1 50 :: accesses 3 17

theorem embedded_rows_fresh_twice : ∃ sys, Run (When (ReplacesRecorded sampleEnv)
    (SystemStep sampleEnv True)) (.start registeredStore) twoVersionsOps sys ∧
      ∃ r ∈ sys.store.embeddings.rows, r.ref = (.content, 0, 4) ∧ r.state = .embedded ∧
        ∃ doc ∈ sys.store.documents.rows, doc.id = r.documentId ∧
          ∃ file, sampleEnv.hash file = doc.fileHash ∧
            ComputedFrom sys.world.calls doc.filepath file r := by
  have hplay : ((playSystem sampleEnv (ReplacesRecorded sampleEnv) (sampleOutside none 5)
      twoVersionsOps (.start registeredStore)).any fun sys =>
        sys.store.embeddings.rows.any fun r =>
          decide (r.ref = (.content, 0, 4) ∧ r.state = .embedded)) = true := by
    decide +kernel
  obtain ⟨sys, hsys, hcheck⟩ := (Option.any_eq_true _ _).1 hplay
  obtain ⟨r, hr, hrow⟩ := List.any_eq_true.1 hcheck
  obtain ⟨href, hst⟩ := of_decide_eq_true hrow
  have hrun : Run (When (ReplacesRecorded sampleEnv) (SystemStep sampleEnv True)) (.start registeredStore)
    twoVersionsOps sys := run_of_playSystem hsys
  exact ⟨sys, hrun, r, hr, href, hst, embedded_rows_fresh hrun (by decide +kernel) hr hst⟩

/-- The embed dispatch has called the provider on `a` when another worker ingests `abcd`; then its
    replace transaction commits the vectors of the old version. -/
theorem old_bytes_embedded : ∃ sys, Run (SystemStep sampleEnv False) (.start registeredStore)
    (ingestOps [0x61] ++ accesses 1 14 ++ reingestOps fourBytes ++ accesses 1 1) sys ∧
      ∃ r ∈ sys.store.embeddings.rows, r.state = .embedded ∧
        ∀ doc ∈ sys.store.documents.rows, doc.id = r.documentId →
          ∀ file, sampleEnv.hash file = doc.fileHash →
            ¬ComputedFrom sys.world.calls doc.filepath file r := by
  have hplay : ((playSystem sampleEnv AnyStep (sampleOutside none 5)
      (ingestOps [0x61] ++ accesses 1 14 ++ reingestOps fourBytes ++ accesses 1 1)
      (.start registeredStore)).any fun sys =>
        (sys.store.embeddings.rows.any fun r => decide (r.state = .embedded)) &&
        sys.store.documents.rows.all (fun doc =>
          decide (doc.filepath = "/r/f" ∧ doc.fileHash = sampleEnv.hash fourBytes)) &&
        sys.world.calls.all fun call => decide (call.view "/r/f" = some [0x61])) = true := by
    decide +kernel
  obtain ⟨sys, hsys, hcheck⟩ := (Option.any_eq_true _ _).1 hplay
  simp only [Bool.and_eq_true, List.any_eq_true, List.all_eq_true, decide_eq_true_eq] at hcheck
  obtain ⟨⟨⟨r, hr, hst⟩, hdocs⟩, hcalls⟩ := hcheck
  refine ⟨sys, (run_of_playSystem hsys).mono fun _ _ _ h => h.1, r, hr, hst,
    fun doc hdoc _ file hhash h => ?_⟩
  obtain ⟨hpath, hrecorded⟩ := hdocs doc hdoc
  obtain rfl := eq_of_sampleHash (by decide) (hhash.trans hrecorded)
  -- every call was made by a dispatch that saw the old version
  obtain ⟨call, hcall, -, hview, -⟩ := h
  rw [hpath, hcalls call hcall] at hview
  cases hview

end Ask
