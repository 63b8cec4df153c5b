/-
  The store keeps the schema: whatever calls of the server do to it, its tables
  keep the constraints that the migrations declare, and its rows are read back
  as they were written.
-/
import Ask.Lifetime
import Ask.Tables
import Ask.UpgradeLaw

namespace Ask

open Lib

variable {E : Env} {view : View} {identity : EmbeddingIdentity} {s s' : Store} {model : EmbeddingModel}
  {now : ℤ}

/-! ## The recorded model -/

/-- The model that is recorded as the active one is there, and has dimensions. -/
def ActiveRecorded (s : Store) : Prop := ∀ state, s.searchState = some state →
  (∃ m ∈ s.models.rows, m.id = state.activeModelId) ∧ 0 < state.dimensions

theorem ActiveRecorded.same (h : ActiveRecorded s) (hm : s'.models = s.models)
    (hst : s'.searchState = s.searchState) : ActiveRecorded s' := by
  intro state hstate
  rw [hm]
  exact h state (hst ▸ hstate)

theorem keeps_seedEmbedJobs_active : Tx.Keeps ActiveRecorded (seedEmbedJobs now) :=
  keeps_seedEmbedJobs fun _ _ _ _ h _ => h.same rfl rfl

theorem keeps_reconcile_active : Tx.Keeps ActiveRecorded (reconcileEmbeddingStartup E view identity now) := by
  refine keeps_reconcile (keeps_registerModel (J := fun _ s => ActiveRecorded s) ?_ ?_ fun _ _ h => h)
    keeps_seedEmbedJobs_active
  · intro s id s' h hs state hstate
    obtain ⟨models, rfl, -, hrows⟩ := ok_insertModel h
    obtain ⟨⟨m, hm, hid⟩, hdim⟩ := hs state hstate
    refine ⟨⟨m, ?_, hid⟩, hdim⟩
    show m ∈ models.rows
    rw [hrows]
    exact List.mem_append_left _ hm
  · intro model
    refine keeps_backfill (fun docId c => Tx.keeps_exec ?_) (fun s p h => h.same rfl rfl)
      keeps_seedEmbedJobs_active
    intro s u s' hok h
    obtain ⟨-, e, rfl, -⟩ := ok_insertPendingEmbedding hok
    exact h.same rfl rfl

theorem keeps_backfillActiveSearchModel_active :
    Tx.Keeps ActiveRecorded (backfillActiveSearchModel model) := by
  unfold backfillActiveSearchModel
  split_ifs
  · exact Tx.keeps_fail
  refine Tx.keeps_bind Tx.keeps_query fun invalid => ?_
  split_ifs
  · exact Tx.keeps_fail
  · refine Tx.keeps_bind (Tx.keeps_mapError (Tx.keeps_exec ?_)) fun _ => Tx.keeps_query
    intro s u s' hok hs
    obtain rfl | ⟨v, v', -, -, rfl⟩ := ok_putVecRows hok
    · exact hs
    · exact hs.same rfl rfl

/-- A model is only recorded when it is there, and never one without dimensions. -/
theorem keeps_activate_active : Tx.Keeps ActiveRecorded (ensureActiveSearchModel model now) := by
  have hvec : ∀ vec : Option VecTable,
      Tx.Keeps ActiveRecorded (Tx.exec fun s => .ok ((), { s with vec := vec }) : Db Unit) := by
    intro vec
    refine Tx.keeps_exec ?_
    intro s u s' hok hs
    rw [ok_exec_ok.1 hok]
    exact hs.same rfl rfl
  refine Tx.keeps_bind Tx.keeps_query ?_
  intro b
  split_ifs with _ hneg hzero
  · exact Tx.keeps_pure
  · exact Tx.keeps_fail
  · exact Tx.keeps_fail
  · refine Tx.keeps_bind (hvec _) fun _ => Tx.keeps_bind (hvec _) fun _ =>
      Tx.keeps_bind (Tx.keeps_exec ?_) fun _ => keeps_backfillActiveSearchModel_active
    intro s u s' hok hs state hstate
    obtain ⟨hmodel, rfl⟩ := ok_recordActive hok
    obtain rfl := Option.some.inj hstate
    obtain ⟨m, hm⟩ := Option.isSome_iff_exists.1 hmodel
    obtain ⟨hm, hid⟩ := AutoTable.get?_eq_some.1 hm
    refine ⟨⟨m, hm, hid⟩, ?_⟩
    show 0 < model.dimensions
    omega

theorem activeRecorded_of_ok {op : DbReq} {v : op.Val} (h : op.run.Ok s v s') (hs : ActiveRecorded s) :
    ActiveRecorded s' := by
  cases op with
  | findDocument | findModel | listRecoverable => exact h.2 ▸ hs
  | completeJob | deferJob =>
    rw [ok_exec_ok.1 h]
    exact hs.same rfl rfl
  | deleteDocument =>
    rw [ok_deleteDocument h]
    exact hs.same rfl rfl
  | replaceEmbeddings =>
    have hrep := ok_replaceEmbeddingsForDocumentModel h
    exact hs.same hrep.models hrep.searchState
  | upsertDocument =>
    obtain ⟨id, changed⟩ := v
    cases changed with
    | false => rwa [(ok_upsert_unchanged h).1]
    | true =>
      obtain ⟨s₁, hi, -⟩ := seededWith_upsert h
      exact hs.same hi.models hi.searchState

theorem activeRecorded_step {op : StoreOp} (h : StoreStep E s op s') (hs : ActiveRecorded s) :
    ActiveRecorded s' := by
  cases h with
  | reconcile h => exact h.keeps traced_reconcile keeps_reconcile_active hs
  | activate h => exact h.keeps traced_ensureActiveSearchModel keeps_activate_active hs
  | @db _ op h =>
    obtain rfl | ⟨v, h⟩ := atomic_dbReq op s s' h
    · exact hs
    · exact activeRecorded_of_ok h hs
  | @markStale _ docIds now h =>
    obtain rfl | ⟨u, h⟩ := atomic_markDocumentsStale docIds now s s' h
    · exact hs
    obtain ⟨-, rfl⟩ | ⟨hne, h⟩ := ok_markDocumentsStale h
    · exact hs
    · obtain ⟨q, -, -, rfl⟩ := ok_markDocumentsStaleInQueueTime hne h
      exact hs.same rfl rfl
  | enqueue hty h =>
    obtain rfl | ⟨u, h⟩ := Tx.atomic_exec s s' h
    · exact hs
    · rw [ok_enqueueJobDb h]
      exact hs.same rfl rfl
  | claim => exact hs.same rfl rfl

theorem activeRecorded_run {tr : List StoreOp} (h : Run (StoreStep E) .empty tr s) : ActiveRecorded s :=
  h.invariant (I := ActiveRecorded) (fun _ _ _ _ hstep => activeRecorded_step hstep) fun _ hstate => by
    cases hstate

/-! ## Rows fit their tables -/

theorem DocCategory.tryFromStr_asStr (c : DocCategory) : tryFromStr c.asStr = some c := by
  cases c with
  | _ => rfl

theorem EmbedState.tryFromStr_asStr (st : EmbedState) : tryFromStr st.asStr = some st := by
  cases st with
  | _ => rfl

theorem ChunkType.tryFromStr_asStr (ty : ChunkType) : tryFromStr ty.asStr = some ty := by
  cases ty with
  | _ => rfl

theorem JobType.tryFromStr_asStr (ty : JobType) : tryFromStr ty.asStr = some ty := by
  cases ty with
  | _ => rfl

theorem ChunkType.asStr_injective : Function.Injective asStr := by
  have hread : tryFromStr ∘ asStr = some := funext tryFromStr_asStr
  exact .of_comp (hread ▸ Option.some_injective _)

theorem EmbedState.asStr_injective : Function.Injective asStr := by
  have hread : tryFromStr ∘ asStr = some := funext tryFromStr_asStr
  exact .of_comp (hread ▸ Option.some_injective _)

theorem JobType.asStr_injective : Function.Injective asStr := by
  have hread : tryFromStr ∘ asStr = some := funext tryFromStr_asStr
  exact .of_comp (hread ▸ Option.some_injective _)

theorem mapDocument_row (d : Document) : mapDocument d.row = some d := by
  simp [mapDocument, Document.row, getInteger, getText, getEnum, DocCategory.tryFromStr_asStr]

theorem mapEmbeddingModel_row (m : EmbeddingModel) : mapEmbeddingModel m.row = some m := rfl

theorem mapDocumentEmbedding_row (r : DocumentEmbedding) : mapDocumentEmbedding r.row = some r := by
  obtain ⟨id, documentId, modelId, chunkType, chunkStart, chunkEnd, state, embedding, createdAt⟩ := r
  cases embedding with
  | _ =>
    simp [mapDocumentEmbedding, DocumentEmbedding.row, getInteger, getText, getEnum, getNullable, getBlob,
      ChunkType.tryFromStr_asStr, EmbedState.tryFromStr_asStr]

theorem mapJob_row (e : JobQueueEntry) : mapJob e.row = some e := by
  obtain ⟨id, jobType, payload, claimedAt, createdAt⟩ := e
  cases claimedAt with
  | _ =>
    simp [mapJob, JobQueueEntry.row, getInteger, getText, getEnum, getNullable, JobType.tryFromStr_asStr]

theorem mapActiveModel_row (state : SearchState) :
    mapActiveModel state.row = some (state.activeModelId, state.dimensions) := rfl

theorem mapSearchResult_rows {D : Type} (d : Document) (de : DocumentEmbedding) (distance : D) :
    mapSearchResult d.row de.row distance = some (searchHit d de distance) := by
  simp [mapSearchResult, searchHit, Document.row, DocumentEmbedding.row, getInteger, getText, getEnum,
    DocCategory.tryFromStr_asStr, ChunkType.tryFromStr_asStr]

/-- The row of a table with that key is the stored one's. -/
theorem find?_row {ρ ι : Type} {key : ρ → ℤ} {index : ρ → ι} (a : AutoTable ρ key index)
    {row : ρ → TableRow} {col : ColumnName} (hkey : ∀ r, row r col = .integer (key r)) (i : ℤ) :
    (a.rows.map row).find? (fun r => decide (r col = .integer i)) = (a.get? i).map row := by
  rw [List.find?_map, AutoTable.get?]
  congr 2
  funext r
  simp only [Function.comp_apply, hkey, Sql.Value.integer.injEq]

theorem joinHit_contents {D : Type} (s : Store) (modelId : ℤ) (near : ℤ × D) :
    s.contents.joinHit modelId near = s.joinHit modelId near := by
  unfold Contents.joinHit Store.joinHit
  rw [show (s.contents .documentEmbeddings).rows = s.embeddings.rows.map DocumentEmbedding.row from rfl,
    find?_row s.embeddings fun _ => rfl, Option.bind_map]
  refine Option.bind_congr fun de _ => ?_
  have hdocument : de.row .documentId = .integer de.documentId := rfl
  rw [Function.comp_apply, hdocument,
    show (s.contents .documents).rows = s.documents.rows.map Document.row from rfl,
    find?_row s.documents fun _ => rfl, Option.bind_map]
  refine Option.bind_congr fun d _ => ?_
  have hwhere : (de.row .modelId = .integer modelId ∧ de.row .state = .text EmbedState.embedded.asStr) ↔
      de.modelId = modelId ∧ de.state = .embedded := by
    refine and_congr (iff_of_eq (Sql.Value.integer.injEq ..)) ?_
    exact (iff_of_eq (Sql.Value.text.injEq ..)).trans EmbedState.asStr_injective.eq_iff
  simp only [Function.comp_apply, hwhere, mapSearchResult_rows]

/-- Reading what was written gives what was there. -/
theorem read_back {α β : Type} {f : α → β} {g : β → Option α} (h : ∀ a, g (f a) = some a) (as : List α) :
    (as.map f).mapM g = some as := by
  have hread : g ∘ f = fun a => pure (id a) := funext h
  rw [List.mapM_map, hread, List.mapM_pure, List.map_id]
  rfl

section tables
variable {ρ ι : Type} {key : ρ → ℤ} {index : ρ → ι} {a : AutoTable ρ key index} {row : ρ → TableRow}
  {t : SqlTable} {c : Contents}

/-- The rows of a table with a key and an index. -/
theorem valid_fill (hrows : (c t.name).rows = a.rows.map row) (hseq : (c t.name).seq = a.seq)
    (hauto : t.schema.autoincrement = true) (hconstr : ∀ col ∈ t.schema.constrained, col ∈ t.schema.names)
    (hindexed : ∀ i ∈ t.indexes, ∀ col ∈ i.columns, col ∈ t.schema.names)
    (hkey : ∀ x, row x t.schema.key = .integer (key x))
    (hblank : ∀ x, ∀ col, col ∉ t.schema.names → row x col = .null) (hfits : ∀ x, t.schema.Fits (row x))
    (hunique : ∀ cols ∈ t.uniqueSets, cols = [t.schema.key] ∨
      ∀ x y, Sql.Agree cols (row x) (row y) → index x = index y) : (c.fill t).Valid where
  constrained := hconstr
  indexed := hindexed
  blank := by
    rw [Contents.fill, hrows]
    exact List.forall_mem_map.2 fun x _ => hblank x
  fits := by
    rw [Contents.fill, hrows]
    exact List.forall_mem_map.2 fun x _ => hfits x
  unique cols hcols := by
    rw [Contents.fill, hrows, List.pairwise_map]
    rcases hunique cols hcols with rfl | hunique
    · refine a.sorted.imp fun hlt hagree => hlt.ne ?_
      have heq := (hagree t.schema.key List.mem_cons_self).2
      rw [hkey, hkey] at heq
      exact Sql.Value.integer.inj heq
    · exact a.unique.imp fun hne hagree => hne (hunique _ _ hagree)
  seq _ := by
    rw [Contents.fill, hrows, hseq]
    refine List.forall_mem_map.2 fun x hx => ?_
    rw [hkey]
    exact a.le_seq x hx
  noSeq hno := absurd hauto (ne_true_of_eq_false hno)

end tables

theorem valid_documents (s : Store) : (s.contents.fill hashedDocumentsTable).Valid := by
  refine valid_fill (a := s.documents) rfl rfl rfl (by decide) (by decide) (fun _ => rfl) ?_ ?_ ?_
  · intro d col hcol
    cases col with
    | id | filepath | fileType | docCategory | fileModifiedAt | fileSize | fileHash | metadataJson
    | updatedAt => exact absurd (by decide) hcol
    | _ => rfl
  · intro d
    refine ⟨?_, rfl, fun _ hcheck => absurd hcheck List.not_mem_nil⟩
    simp [hashedDocumentsTable, declared, documentsSchema, primaryKey, integerNotNull, textNotNull,
      textDefault, Document.row]
  · intro cols hcols
    exact .inl (List.mem_singleton.1 hcols)

theorem valid_models (s : Store) : (s.contents.fill embeddingModelsTable).Valid := by
  refine valid_fill (a := s.models) rfl rfl rfl (by decide) (by decide) (fun _ => rfl) ?_ ?_ ?_
  · intro m col hcol
    cases col with
    | id | name | dimensions | chunkSize | chunkOverlap | createdAt => exact absurd (by decide) hcol
    | _ => rfl
  · intro m
    refine ⟨?_, rfl, fun _ hcheck => absurd hcheck List.not_mem_nil⟩
    simp [embeddingModelsTable, declared, embeddingModelsSchema, namedModelsSchema, primaryKey,
      integerNotNull, textNotNull, EmbeddingModel.row]
  · intro cols hcols
    have hcols : cols ∈ [[ColumnName.id], [.name, .dimensions, .chunkSize, .chunkOverlap]] := hcols
    simp only [List.mem_cons, List.not_mem_nil, or_false] at hcols
    refine hcols.imp id ?_
    rintro rfl x y hagree
    have hname := Sql.Value.text.inj (hagree .name (by decide)).2
    have hdimensions := Sql.Value.integer.inj (hagree .dimensions (by decide)).2
    have hsize := Sql.Value.integer.inj (hagree .chunkSize (by decide)).2
    have hoverlap := Sql.Value.integer.inj (hagree .chunkOverlap (by decide)).2
    rw [EmbeddingModel.identity, EmbeddingModel.identity, hname, hdimensions, hsize, hoverlap]

theorem valid_embeddings (s : Store) : (s.contents.fill documentEmbeddingsTable).Valid := by
  refine valid_fill (a := s.embeddings) rfl rfl rfl (by decide) (by decide) (fun _ => rfl) ?_ ?_ ?_
  · intro r col hcol
    cases col with
    | id | documentId | modelId | chunkType | chunkStart | chunkEnd | state | embedding | createdAt =>
      exact absurd (by decide) hcol
    | _ => rfl
  · intro r
    refine ⟨?_, rfl, fun _ hcheck => absurd hcheck List.not_mem_nil⟩
    simp [documentEmbeddingsTable, declared, documentEmbeddingsSchema, primaryKey, integerNotNull,
      textNotNull, DocumentEmbedding.row]
  · intro cols hcols
    have hcols : cols ∈ [[ColumnName.id], [.documentId, .modelId, .chunkType, .chunkStart]] := hcols
    simp only [List.mem_cons, List.not_mem_nil, or_false] at hcols
    refine hcols.imp id ?_
    rintro rfl x y hagree
    have hdocument := Sql.Value.integer.inj (hagree .documentId (by decide)).2
    have hmodel := Sql.Value.integer.inj (hagree .modelId (by decide)).2
    have htype := ChunkType.asStr_injective (Sql.Value.text.inj (hagree .chunkType (by decide)).2)
    have hstart := Sql.Value.integer.inj (hagree .chunkStart (by decide)).2
    exact Prod.ext (Prod.ext hdocument hmodel) (Prod.ext htype hstart)

theorem valid_jobs (s : Store) : (s.contents.fill jobQueueTable).Valid := by
  refine valid_fill (a := s.jobs) rfl rfl rfl (by decide) (by decide) (fun _ => rfl) ?_ ?_ ?_
  · intro e col hcol
    cases col with
    | id | jobType | payload | claimedAt | createdAt => exact absurd (by decide) hcol
    | _ => rfl
  · intro e
    refine ⟨?_, rfl, fun _ hcheck => absurd hcheck List.not_mem_nil⟩
    simp [jobQueueTable, declared, jobQueueSchema, primaryKey, integerNotNull, textNotNull,
      JobQueueEntry.row]
  · intro cols hcols
    have hcols : cols ∈ [[ColumnName.id], [.jobType, .payload]] := hcols
    simp only [List.mem_cons, List.not_mem_nil, or_false] at hcols
    refine hcols.imp id ?_
    rintro rfl x y hagree
    have htype := JobType.asStr_injective (Sql.Value.text.inj (hagree .jobType (by decide)).2)
    exact Prod.ext htype (Sql.Value.text.inj (hagree .payload (by decide)).2)

theorem valid_searchState (hactive : ActiveRecorded s) :
    (s.contents.fill embeddingSearchStateTable).Valid where
  constrained := (by decide : ∀ col ∈ embeddingSearchStateSchema.constrained,
    col ∈ embeddingSearchStateSchema.names)
  indexed _ hi := absurd hi List.not_mem_nil
  blank := by
    refine List.forall_mem_map.2 fun state _ col hcol => ?_
    replace hcol : col ∉ embeddingSearchStateSchema.names := hcol
    cases col with
    | singletonId | activeModelId | dimensions | updatedAt => exact absurd (by decide) hcol
    | _ => rfl
  fits := by
    refine List.forall_mem_map.2 fun state hstate => ⟨?_, rfl, ?_⟩
    · simp [Contents.fill, embeddingSearchStateTable, declared, embeddingSearchStateSchema, primaryKey,
        integerNotNull, SearchState.row]
    · have hdim := (hactive state (Option.mem_toList.1 hstate)).2
      exact List.forall_mem_cons.2 ⟨rfl, List.forall_mem_singleton.2 (decide_eq_true hdim)⟩
  unique cols _ := by
    show List.Pairwise _ (s.searchState.toList.map SearchState.row)
    cases s.searchState with
    | none => exact .nil
    | some state => exact List.pairwise_singleton _ _
  seq hauto := nomatch hauto
  noSeq _ := rfl

/-- Foreign keys and the recorded model are all that tables with such rows need. -/
theorem valid_contents (hfk : ForeignKeys s) (hactive : ActiveRecorded s) : (dbAt 7 s.contents).Valid where
  names := (by decide : ((catalogAt 7).map Sql.Table.name).Nodup)
  tables := List.forall_mem_cons.2 ⟨valid_documents s, List.forall_mem_cons.2 ⟨valid_jobs s,
    List.forall_mem_cons.2 ⟨valid_models s, List.forall_mem_cons.2 ⟨valid_embeddings s,
      List.forall_mem_singleton.2 (valid_searchState hactive)⟩⟩⟩⟩
  complete := by
    refine List.forall_mem_cons.2 ⟨fun _ _ _ href => absurd href List.not_mem_nil,
      List.forall_mem_cons.2 ⟨fun _ _ _ href => absurd href List.not_mem_nil,
        List.forall_mem_cons.2 ⟨fun _ _ _ href => absurd href List.not_mem_nil,
          List.forall_mem_cons.2 ⟨List.forall_mem_map.2 fun r hr ref href => ?_,
            List.forall_mem_singleton.2 (List.forall_mem_map.2 fun state hstate ref href => ?_)⟩⟩⟩⟩
    · obtain ⟨⟨d, hd, hdoc⟩, m, hm, hmodel⟩ := hasPair_iff.1 (hfk r hr)
      have href : ref ∈ [(ColumnName.documentId, TableName.documents), (.modelId, .embeddingModels)] := href
      simp only [List.mem_cons, List.not_mem_nil, or_false] at href
      rcases href with rfl | rfl
      · exact .inr ⟨s.contents.fill hashedDocumentsTable, List.mem_of_getElem? (i := 0) rfl, rfl, d.row,
          List.mem_map_of_mem hd, congrArg Sql.Value.integer hdoc⟩
      · exact .inr ⟨s.contents.fill embeddingModelsTable, List.mem_of_getElem? (i := 2) rfl, rfl, m.row,
          List.mem_map_of_mem hm, congrArg Sql.Value.integer hmodel⟩
    · obtain ⟨m, hm, hid⟩ := (hactive state (Option.mem_toList.1 hstate)).1
      obtain rfl := List.mem_singleton.1 href
      exact .inr ⟨s.contents.fill embeddingModelsTable, List.mem_of_getElem? (i := 2) rfl, rfl, m.row,
        List.mem_map_of_mem hm, congrArg Sql.Value.integer hid⟩

/-! ## Every store -/

section life
variable {report : Sql.Error TableName IndexName ColumnName → AnyError} {ms : Migrators Tables}
  {starts : List PoolOp} {applied : ℕ} {tr : List StoreOp}

/-- A new database that is migrated has the tables of the empty store. -/
theorem schema_migrated (h : Run (MigratorsStep (execScript report) (migrations id))
      ⟨⟨⟨none, []⟩, []⟩, []⟩ starts ms) (hret : some (.ret (.ok applied)) ∈ ms.procs) :
    ms.state.db.schema = dbAt 7 Store.empty.contents := by
  have hempty : (dbAt 0 Store.empty.contents).Valid :=
    ⟨.nil, fun _ ht => absurd ht List.not_mem_nil, fun _ ht => absurd ht List.not_mem_nil⟩
  obtain ⟨n, -, -, -, hscripts, hended⟩ := migrated_from (by decide) (Nat.zero_le _) rfl h
  obtain rfl := hended applied hret
  obtain ⟨hbetween, -⟩ := exec_between report hempty (Nat.zero_le 7) le_rfl
  exact Except.ok.inj (hscripts.symm.trans hbetween)

/-- **The store keeps the schema**: processes that migrate a new database leave the tables of the empty
    store, and from there no calls of the server, failed and interrupted ones included, lead to tables
    that break a constraint of a script; the queries read back from them the rows of the store, the model
    recorded as active, and the hits that the search joins to near rows. -/
theorem store_keeps_schema
    (hstart : Run (MigratorsStep (execScript report) (migrations id)) ⟨⟨⟨none, []⟩, []⟩, []⟩ starts ms)
    (hret : some (.ret (.ok applied)) ∈ ms.procs) (h : Run (StoreStep E) .empty tr s) :
    ms.state.db.schema = dbAt 7 Store.empty.contents ∧ (dbAt 7 s.contents).Valid ∧
    (s.contents .documents).rows.mapM mapDocument = some s.documents.rows ∧
    (s.contents .embeddingModels).rows.mapM mapEmbeddingModel = some s.models.rows ∧
    (s.contents .documentEmbeddings).rows.mapM mapDocumentEmbedding = some s.embeddings.rows ∧
    (s.contents .jobQueue).rows.mapM mapJob = some s.jobs.rows ∧
    ((s.contents .embeddingSearchState).rows.mapM mapActiveModel =
      some (s.searchState.toList.map fun state => (state.activeModelId, state.dimensions))) ∧
    ∀ (D : Type) (modelId : ℤ) (near : ℤ × D), s.contents.joinHit modelId near = s.joinHit modelId near := by
  refine ⟨schema_migrated hstart hret, ?_, ?_, ?_, ?_, ?_, ?_, fun D => joinHit_contents s⟩
  · exact valid_contents (wellFormed_run h).foreignKeys (activeRecorded_run h)
  · exact read_back mapDocument_row _
  · exact read_back mapEmbeddingModel_row _
  · exact read_back mapDocumentEmbedding_row _
  · exact read_back mapJob_row _
  · have hread : mapActiveModel ∘ SearchState.row = fun state => pure (state.activeModelId, state.dimensions) :=
      funext mapActiveModel_row
    rw [show (s.contents .embeddingSearchState).rows = s.searchState.toList.map SearchState.row from rfl,
      List.mapM_map, hread, List.mapM_pure]
    rfl

end life

/-- One process makes all the tables. -/
def soleMigrator : List PoolOp := .start :: List.replicate 9 (.request 0)

/-- Two models are configured; of two documents one is embedded, and one of the jobs is claimed. -/
def tableCalls : List StoreOp :=
  [.reconcile (fun _ => none) sampleModel 0, .activate ⟨1, "m", 1, 4, 0, 0⟩ 0,
    .db (.upsertDocument sampleDocument 1 [(.filename, 0, 0), (.content, 0, 1)] 1),
    .db (.upsertDocument { sampleDocument with filepath := "/r/g" } 1 [(.filename, 0, 0)] 2),
    .db (.replaceEmbeddings 1 1 [⟨.filename, 0, 0, serializeEmbedding [7]⟩,
      ⟨.content, 0, 1, serializeEmbedding [8]⟩] 3),
    .reconcile (fun _ => none) otherModel 4, .enqueue .ingestFolder sampleIngest 5, .claim 10]

/-- What these calls leave. -/
def tableStore (s : Store) : Bool :=
  decide (s.models.rows.length = 2 ∧ s.documents.rows.length = 2 ∧ s.embeddings.rows.length = 5 ∧
    s.jobs.rows.map (·.claimedAt) = [some 10, none, none, none, none] ∧
    s.searchState.map (·.activeModelId) = some 1 ∧
    s.embeddings.rows.map (fun r => ((s.joinHit 1 (r.id, 7)).map fun hit => (hit.filepath, hit.chunkType))) =
      [none, some ("/r/f", .filename), some ("/r/f", .content), none, none])

/-- A new database is migrated, and these calls are made. -/
theorem sample_store_keeps_schema : ∃ ms : Migrators Tables, ∃ s,
    Run (MigratorsStep (execScript fun _ => .msg "") (migrations id)) ⟨⟨⟨none, []⟩, []⟩, []⟩
      soleMigrator ms ∧
    Run (StoreStep sampleEnv) .empty tableCalls s ∧ tableStore s = true ∧
    ms.state.db.schema = dbAt 7 Store.empty.contents ∧ (dbAt 7 s.contents).Valid ∧
    (s.contents .documents).rows.mapM mapDocument = some s.documents.rows ∧
    (s.contents .documentEmbeddings).rows.mapM mapDocumentEmbedding = some s.embeddings.rows ∧
    (s.contents .jobQueue).rows.mapM mapJob = some s.jobs.rows := by
  have hmigrate : ((Pool.play (replyMigration (execScript fun _ => .msg ""))
      (applyPendingMigrations (migrations id)) soleMigrator 0
        ⟨⟨⟨none, []⟩, []⟩, []⟩).any returnedWell) = true := by
    decide +kernel
  have hplay : ((callStores sampleEnv tableCalls .empty).any tableStore) = true := by
    decide +kernel
  obtain ⟨ms, hms, hwell⟩ := (Option.any_eq_true _ _).1 hmigrate
  obtain ⟨s, hs, hleft⟩ := (Option.any_eq_true _ _).1 hplay
  have hstart := Pool.run_of_play (fun n s r out => answered_of_reply) hms
  have hrun := run_of_callStores hs
  obtain ⟨p, hp, hret⟩ := List.any_eq_true.1 hwell
  match p, hp, hret with
  | some (.ret (.ok applied)), hp, _ =>
    obtain ⟨hschema, hvalid, hdocuments, -, hembeddings, hjobs, -⟩ := store_keeps_schema hstart hp hrun
    exact ⟨ms, s, hstart, hrun, hleft, hschema, hvalid, hdocuments, hembeddings, hjobs⟩

end Ask
