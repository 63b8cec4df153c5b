/-
  A migrated database keeps its rows: from any version, every script goes
  through and makes of a valid database one of the next version.
-/
import Ask.Lib.SqlLaw
import Ask.MigrationsLaw
import Ask.Upgrade

namespace Ask

open Lib

variable {c : Contents} {r : TableRow}

/-! ## Scripts that look at no row -/

theorem run_bootstrapMigrationSystem :
    Sql.runScript bootstrapMigrationSystem (dbAt 0 c) = .ok (dbAt 1 (c.upgrade 1)) := rfl

theorem run_createDomainTables :
    Sql.runScript createDomainTables (dbAt 1 c) = .ok (dbAt 2 (c.upgrade 2)) := rfl

theorem run_createJobQueue :
    Sql.runScript createJobQueue (dbAt 2 c) = .ok (dbAt 3 (c.upgrade 3)) := rfl

theorem run_createEmbeddingSearchState :
    Sql.runScript createEmbeddingSearchState (dbAt 4 c) = .ok (dbAt 5 (c.upgrade 5)) := rfl

theorem run_addDocumentHashMetadata :
    Sql.runScript addDocumentHashMetadata (dbAt 6 c) = .ok (dbAt 7 (c.upgrade 7)) := by
  have hrow : ∀ r : TableRow,
      Function.update (Function.update r .fileHash (.text "")) .metadataJson (.text "") = addHash r := by
    intro r
    funext col
    cases col with
    | _ => rfl
  have hrows : ((c .documents).rows.map fun r => Function.update r .fileHash (.text "")).map
      (fun r => Function.update r .metadataJson (.text "")) = (c .documents).rows.map addHash := by
    rw [List.map_map]
    exact List.map_congr_left fun r _ => hrow r
  have hrun : Sql.runScript addDocumentHashMetadata (dbAt 6 c) =
      .ok ({ hashedDocumentsTable with
        rows := ((c .documents).rows.map fun r => Function.update r .fileHash (.text "")).map
          fun r => Function.update r .metadataJson (.text "")
        seq := (c .documents).seq } :: (dbAt 6 c).tail) := rfl
  rw [hrun, hrows]
  rfl

/-! ## The queue is copied -/

/-- A table under another name, without its indexes. -/
def renamedAs (name : TableName) (schema : TableSchema) (t : TableRows) : SqlTable :=
  ⟨name, schema, [], t.rows, t.seq⟩

/-- The tables while the fourth script runs; the new queue has the rows of `jobs`. -/
def simplifying (c : Contents) (jobs : TableRows) : Tables :=
  [c.fill documentsTable, c.fill namedModelsTable, c.fill documentEmbeddingsTable,
    { c.fill heartbeatQueueTable with name := .jobQueueOld }, renamedAs .jobQueue jobQueueSchema jobs]

theorem fill_simplifyClaim (hblank : ∀ col, col ∉ heartbeatQueueSchema.names → r col = .null) :
    jobQueueSchema.fill ([.id, .jobType, .payload, .claimedAt, .createdAt].zip
      ([ColumnName.id, .jobType, .payload, .heartbeat, .createdAt].map r)) = simplifyClaim r := by
  funext col
  cases col with
  | id | jobType | payload | claimedAt | createdAt | heartbeat | updatedAt => rfl
  | _ => exact (hblank _ (by decide)).symm

theorem fits_simplifyClaim (h : heartbeatQueueSchema.Fits r) : jobQueueSchema.Fits (simplifyClaim r) where
  notNull col hcol hnn := by
    simp only [jobQueueSchema, List.mem_cons, List.not_mem_nil, or_false] at hcol
    rcases hcol with rfl | rfl | rfl | rfl | rfl
    · cases hnn
    · exact h.notNull (textNotNull .jobType) (by decide) rfl
    · exact h.notNull (textNotNull .payload) (by decide) rfl
    · cases hnn
    · exact h.notNull (integerNotNull .createdAt) (by decide) rfl
  key := h.key
  checks _ hcheck := absurd hcheck List.not_mem_nil

theorem run_simplifyJobQueueClaim (h : (dbAt 3 c).Valid) :
    Sql.runScript simplifyJobQueueClaim (dbAt 3 c) = .ok (dbAt 4 (c.upgrade 4)) := by
  have hprepare : Sql.runScript (simplifyJobQueueClaim.take 2) (dbAt 3 c) = .ok (simplifying c ⟨[], 0⟩) := rfl
  have hvalid : (simplifying c ⟨[], 0⟩).Valid := Sql.runScript_valid h hprepare
  have hold := hvalid.tables _ (List.mem_of_getElem? (i := 3) rfl)
  have hnew := hvalid.tables _ (List.mem_of_getElem? (i := 4) rfl)
  have hcopy : Sql.Stmt.exec (simplifying c ⟨[], 0⟩)
      (.insertSelect .jobQueue [.id, .jobType, .payload, .claimedAt, .createdAt]
        [.id, .jobType, .payload, .heartbeat, .createdAt] .jobQueueOld) =
          .ok (simplifying c (copied ((c .jobQueue).rows.map simplifyClaim))) := by
    refine (Sql.Database.exec_insertSelect (f := simplifyClaim) rfl rfl rfl hnew hold (by decide) rfl
      (fun r hr => fill_simplifyClaim (hold.blank r hr)) (fun r _ hr => fits_simplifyClaim hr) ?_ ?_).trans ?_
    · intro cs hcs
      obtain rfl := List.mem_singleton.1 hcs
      refine (hold.unique [.id] List.mem_cons_self).imp fun hne hagree => hne ?_
      refine hagree.of_map (fun _ hc => hc) fun col hcol _ => ?_
      rw [List.mem_singleton.1 hcol]
      rfl
    · exact fun r _ ref href => absurd href List.not_mem_nil
    · rw [Sql.Table.foldl_push]
      rfl
  have hdrop : Sql.Stmt.exec (simplifying c (copied ((c .jobQueue).rows.map simplifyClaim)))
      (.dropTable .jobQueueOld) = .ok (dbAt 2 c ++
        [renamedAs .jobQueue jobQueueSchema (copied ((c .jobQueue).rows.map simplifyClaim))]) :=
    Sql.Database.exec_dropTable rfl
      (by decide : TableName.jobQueueOld ∉ [TableName.documents, .embeddingModels])
  have hindex : Sql.Stmt.exec (dbAt 2 c ++
      [renamedAs .jobQueue jobQueueSchema (copied ((c .jobQueue).rows.map simplifyClaim))])
        (.createIndex .idxJobQueueUnique false true .jobQueue [.jobType, .payload]) =
          .ok (dbAt 4 (c.upgrade 4)) := by
    refine (Sql.Database.exec_createIndex rfl
      (by decide : IndexName.idxJobQueueUnique ∉ [IndexName.idxEmbeddingsUnique, .idxEmbeddingsDocument,
        .idxEmbeddingsModelState])
      (by decide : ∀ col ∈ [ColumnName.jobType, .payload], col ∈ jobQueueSchema.names) ?_).trans rfl
    have hjobs := (h.tables _ (List.mem_of_getElem? (i := 3) rfl)).unique [.jobType, .payload]
      (by decide : [ColumnName.jobType, .payload] ∈ heartbeatQueueTable.uniqueSets)
    refine List.pairwise_map.2 (hjobs.imp fun hne hagree => hne ?_)
    refine hagree.of_map (fun _ hc => hc) fun col hcol _ => ?_
    simp only [List.mem_cons, List.not_mem_nil, or_false] at hcol
    rcases hcol with rfl | rfl
    · rfl
    · rfl
  rw [← List.take_append_drop 2 simplifyJobQueueClaim, Sql.runScript_append hprepare]
  refine (Sql.runScript_cons hcopy).trans ((Sql.runScript_cons hdrop).trans ?_)
  exact (Sql.runScript_cons hindex).trans rfl

/-! ## The models are rebuilt -/

/-- The old tables under their old names, while they have their indexes. -/
def renamedTables (c : Contents) : Tables :=
  [c.fill documentsTable, renamedAs .embeddingModelsOld namedModelsSchema (c .embeddingModels),
    { renamedAs .documentEmbeddingsOld
        { documentEmbeddingsSchema with
          references := [(.documentId, .documents), (.modelId, .embeddingModelsOld)] }
        (c .documentEmbeddings) with indexes := documentEmbeddingsTable.indexes },
    c.fill jobQueueTable,
    renamedAs .embeddingSearchStateOld
      { embeddingSearchStateSchema with references := [(.activeModelId, .embeddingModelsOld)] }
      (c .embeddingSearchState)]

/-- The tables in the middle of script 6, the old ones still there. -/
def oldTables (c : Contents) : Tables :=
  [c.fill documentsTable, renamedAs .embeddingModelsOld namedModelsSchema (c .embeddingModels),
    renamedAs .documentEmbeddingsOld
      { documentEmbeddingsSchema with
        references := [(.documentId, .documents), (.modelId, .embeddingModelsOld)] } (c .documentEmbeddings),
    c.fill jobQueueTable,
    renamedAs .embeddingSearchStateOld
      { embeddingSearchStateSchema with references := [(.activeModelId, .embeddingModelsOld)] }
      (c .embeddingSearchState)]

/-- A table with other rows. -/
def filledWith (t : SqlTable) (rows : TableRows) : SqlTable := { t with rows := rows.rows, seq := rows.seq }

/-- The tables while the sixth script runs, with what the new ones have. -/
def rebuilding (c : Contents) (models embeddings state : TableRows) : Tables :=
  oldTables c ++ [filledWith embeddingModelsTable models, filledWith documentEmbeddingsTable embeddings,
    filledWith embeddingSearchStateTable state]

/-- The statements before the first copy. -/
theorem run_rebuild_prepare : Sql.runScript (rebuildEmbeddingModelIdentity.take 14) (dbAt 5 c) =
    .ok (rebuilding c ⟨[], 0⟩ ⟨[], 0⟩ ⟨[], 0⟩) := by
  have hrename : Sql.runScript (rebuildEmbeddingModelIdentity.take 4) (dbAt 5 c) =
      .ok (renamedTables c) := rfl
  have hindexes : Sql.runScript ((rebuildEmbeddingModelIdentity.drop 4).take 3) (renamedTables c) =
      .ok (oldTables c) := rfl
  have hmodels : Sql.runScript ((rebuildEmbeddingModelIdentity.drop 7).take 2) (oldTables c) =
      .ok (oldTables c ++ [embeddingModelsTable]) := rfl
  have hembeddings : Sql.runScript ((rebuildEmbeddingModelIdentity.drop 9).take 4)
      (oldTables c ++ [embeddingModelsTable]) =
        .ok (oldTables c ++ [embeddingModelsTable, documentEmbeddingsTable]) := rfl
  have hstate : Sql.runScript ((rebuildEmbeddingModelIdentity.drop 13).take 1)
      (oldTables c ++ [embeddingModelsTable, documentEmbeddingsTable]) =
        .ok (rebuilding c ⟨[], 0⟩ ⟨[], 0⟩ ⟨[], 0⟩) := rfl
  have hparts : rebuildEmbeddingModelIdentity.take 14 = rebuildEmbeddingModelIdentity.take 4 ++
      ((rebuildEmbeddingModelIdentity.drop 4).take 3 ++ ((rebuildEmbeddingModelIdentity.drop 7).take 2 ++
        ((rebuildEmbeddingModelIdentity.drop 9).take 4 ++
          (rebuildEmbeddingModelIdentity.drop 13).take 1))) := rfl
  rw [hparts, Sql.runScript_append hrename, Sql.runScript_append hindexes, Sql.runScript_append hmodels,
    Sql.runScript_append hembeddings, hstate]

/-- A reference to the row of an old table is one to the row that was copied. -/
theorem refers_copied {db db' : Tables} {t u : SqlTable} {ref : ColumnName × TableName} (hdb : db.Valid)
    (ht : t ∈ db) (hu : u ∈ db') (hkey : u.schema.key = t.schema.key) (hrows : u.rows = t.rows)
    (h : db.Refers r (ref.1, t.name)) (hname : u.name = ref.2) : db'.Refers r ref := by
  rcases h with hnull | ⟨t₁, ht₁, hn, p, hp, hpkey⟩
  · exact .inl hnull
  · obtain rfl := hdb.eq_of_name ht₁ ht hn
    refine .inr ⟨u, hu, hname, p, ?_, ?_⟩
    · rwa [hrows]
    · rwa [hkey]

theorem copy_models (h : (rebuilding c ⟨[], 0⟩ ⟨[], 0⟩ ⟨[], 0⟩).Valid) :
    Sql.Stmt.exec (rebuilding c ⟨[], 0⟩ ⟨[], 0⟩ ⟨[], 0⟩)
      (.insertSelect .embeddingModels modelColumns modelColumns .embeddingModelsOld) =
        .ok (rebuilding c (copied (c .embeddingModels).rows) ⟨[], 0⟩ ⟨[], 0⟩) := by
  have hold := h.tables _ (List.mem_of_getElem? (i := 1) rfl)
  refine (Sql.Database.exec_insertCopy rfl rfl rfl (h.tables _ (List.mem_of_getElem? (i := 5) rfl)) hold
    rfl rfl rfl rfl ?_ ?_).trans ?_
  · intro cs hcs
    have hcs : cs ∈ [[ColumnName.id], [.name, .dimensions, .chunkSize, .chunkOverlap]] := hcs
    simp only [List.mem_cons, List.not_mem_nil, or_false] at hcs
    rcases hcs with rfl | rfl
    · exact hold.unique [.id] List.mem_cons_self
    · -- models of one identity have one name
      refine (hold.unique [.name]
        (by decide : [ColumnName.name] ∈ namedModelsTable.uniqueSets)).imp fun hne hagree => hne ?_
      exact hagree.of_map (f := id) (by decide) fun _ _ _ => rfl
  · exact fun r _ ref href => absurd href List.not_mem_nil
  · rw [Sql.Table.foldl_push]
    rfl

theorem copy_embeddings (h₅ : (dbAt 5 c).Valid)
    (h : (rebuilding c (copied (c .embeddingModels).rows) ⟨[], 0⟩ ⟨[], 0⟩).Valid) :
    Sql.Stmt.exec (rebuilding c (copied (c .embeddingModels).rows) ⟨[], 0⟩ ⟨[], 0⟩)
      (.insertSelect .documentEmbeddings embeddingColumns embeddingColumns .documentEmbeddingsOld) =
        .ok (rebuilding c (copied (c .embeddingModels).rows) (copied (c .documentEmbeddings).rows)
          ⟨[], 0⟩) := by
  refine (Sql.Database.exec_insertCopy rfl rfl rfl (h.tables _ (List.mem_of_getElem? (i := 6) rfl))
    (h.tables _ (List.mem_of_getElem? (i := 2) rfl)) rfl rfl rfl rfl ?_ ?_).trans ?_
  · -- the old index is dropped by now
    exact fun cs hcs => (h₅.tables _ (List.mem_of_getElem? (i := 2) rfl)).unique cs hcs
  · intro r hr ref href
    have hcomplete := h.complete _ (List.mem_of_getElem? (i := 2) rfl) r hr
    have href : ref ∈ [(ColumnName.documentId, TableName.documents), (.modelId, .embeddingModels)] := href
    simp only [List.mem_cons, List.not_mem_nil, or_false] at href
    rcases href with rfl | rfl
    · exact refers_copied (t := c.fill documentsTable) (u := c.fill documentsTable) h
        (List.mem_of_getElem? (i := 0) rfl) (List.mem_of_getElem? (i := 0) rfl) rfl rfl
        (hcomplete (.documentId, .documents) List.mem_cons_self) rfl
    · exact refers_copied (t := renamedAs .embeddingModelsOld namedModelsSchema (c .embeddingModels))
        (u := filledWith embeddingModelsTable (copied (c .embeddingModels).rows)) h
        (List.mem_of_getElem? (i := 1) rfl) (List.mem_of_getElem? (i := 5) rfl) rfl rfl
        (hcomplete (.modelId, .embeddingModelsOld) (List.mem_cons_of_mem _ List.mem_cons_self)) rfl
  · rw [Sql.Table.foldl_push]
    rfl

theorem copy_searchState (h : (rebuilding c (copied (c .embeddingModels).rows)
      (copied (c .documentEmbeddings).rows) ⟨[], 0⟩).Valid) :
    Sql.Stmt.exec
      (rebuilding c (copied (c .embeddingModels).rows) (copied (c .documentEmbeddings).rows) ⟨[], 0⟩)
      (.insertSelect .embeddingSearchState searchStateColumns searchStateColumns .embeddingSearchStateOld) =
        .ok (rebuilding c (copied (c .embeddingModels).rows) (copied (c .documentEmbeddings).rows)
          (c .embeddingSearchState)) := by
  have hold := h.tables _ (List.mem_of_getElem? (i := 4) rfl)
  refine (Sql.Database.exec_insertCopy rfl rfl rfl (h.tables _ (List.mem_of_getElem? (i := 7) rfl)) hold
    rfl rfl rfl rfl ?_ ?_).trans ?_
  · exact fun cs hcs => hold.unique cs hcs
  · intro r hr ref href
    obtain rfl := List.mem_singleton.1 href
    exact refers_copied (t := renamedAs .embeddingModelsOld namedModelsSchema (c .embeddingModels))
      (u := filledWith embeddingModelsTable (copied (c .embeddingModels).rows)) h
      (List.mem_of_getElem? (i := 1) rfl) (List.mem_of_getElem? (i := 5) rfl) rfl rfl
      (h.complete _ (List.mem_of_getElem? (i := 4) rfl) r hr (.activeModelId, .embeddingModelsOld)
        List.mem_cons_self) rfl
  · have hseq : (c .embeddingSearchState).seq = 0 := hold.noSeq rfl
    have hrows : c .embeddingSearchState = ⟨(c .embeddingSearchState).rows, 0⟩ := by rw [← hseq]
    rw [Sql.Table.foldl_push, hrows]
    rfl

theorem run_rebuild_drop : Sql.runScript (rebuildEmbeddingModelIdentity.drop 17)
    (rebuilding c (copied (c .embeddingModels).rows) (copied (c .documentEmbeddings).rows)
      (c .embeddingSearchState)) = .ok (dbAt 6 (c.upgrade 6)) := by
  refine (Sql.runScript_cons (Sql.Database.exec_dropTable rfl
    (by decide : TableName.embeddingSearchStateOld ∉ [TableName.documents, .embeddingModelsOld,
      .embeddingModelsOld, .documents, .embeddingModels, .embeddingModels]))).trans ?_
  refine (Sql.runScript_cons (Sql.Database.exec_dropTable rfl
    (by decide : TableName.documentEmbeddingsOld ∉ [TableName.documents, .embeddingModelsOld, .documents,
      .embeddingModels, .embeddingModels]))).trans ?_
  -- nothing refers to the old models any more
  refine (Sql.runScript_cons (Sql.Database.exec_dropTable rfl
    (by decide : TableName.embeddingModelsOld ∉ [TableName.documents, .embeddingModels,
      .embeddingModels]))).trans ?_
  rfl

theorem run_rebuildEmbeddingModelIdentity (h : (dbAt 5 c).Valid) :
    Sql.runScript rebuildEmbeddingModelIdentity (dbAt 5 c) = .ok (dbAt 6 (c.upgrade 6)) := by
  have hmodels := copy_models (Sql.runScript_valid h run_rebuild_prepare)
  have hvalid := Sql.exec_valid (Sql.runScript_valid h run_rebuild_prepare) hmodels
  have hembeddings := copy_embeddings h hvalid
  have hstate := copy_searchState (Sql.exec_valid hvalid hembeddings)
  rw [← List.take_append_drop 14 rebuildEmbeddingModelIdentity, Sql.runScript_append run_rebuild_prepare]
  refine (Sql.runScript_cons hmodels).trans ((Sql.runScript_cons hembeddings).trans ?_)
  exact (Sql.runScript_cons hstate).trans run_rebuild_drop

/-! ## Every script -/

section scripts
variable {report : Sql.Error TableName IndexName ColumnName → AnyError} {k n : ℕ} {m : Migration}

/-- The script of the next version goes through. -/
theorem run_next (hm : (migrations id)[n]? = some m) (h : (dbAt n c).Valid) :
    ∃ script, scripts.lookup m.sql = some script ∧
      Sql.runScript script (dbAt n c) = .ok (dbAt (n + 1) (c.upgrade (n + 1))) := by
  match n, hm with
  | 0, rfl => exact ⟨_, by simp [scripts], run_bootstrapMigrationSystem⟩
  | 1, rfl => exact ⟨_, by simp [scripts, List.lookup_cons], run_createDomainTables⟩
  | 2, rfl => exact ⟨_, by simp [scripts, List.lookup_cons], run_createJobQueue⟩
  | 3, rfl => exact ⟨_, by simp [scripts, List.lookup_cons], run_simplifyJobQueueClaim h⟩
  | 4, rfl => exact ⟨_, by simp [scripts, List.lookup_cons], run_createEmbeddingSearchState⟩
  | 5, rfl => exact ⟨_, by simp [scripts, List.lookup_cons], run_rebuildEmbeddingModelIdentity h⟩
  | 6, rfl => exact ⟨_, by simp [scripts, List.lookup_cons], run_addDocumentHashMetadata⟩

theorem exec_next (hm : (migrations id)[n]? = some m) (h : (dbAt n c).Valid) :
    execScript report m.sql (dbAt n c) = .ok (dbAt (n + 1) (c.upgrade (n + 1))) := by
  obtain ⟨script, hlookup, hrun⟩ := run_next hm h
  rw [execScript, hlookup]
  dsimp only
  rw [hrun]
  rfl

theorem valid_next (hm : (migrations id)[n]? = some m) (h : (dbAt n c).Valid) :
    (dbAt (n + 1) (c.upgrade (n + 1))).Valid := by
  obtain ⟨script, -, hrun⟩ := run_next hm h
  exact Sql.runScript_valid h hrun

theorem upgraded_self : c.upgraded k k = c := by
  cases k with
  | zero => rfl
  | succ k => exact if_neg (by omega)

theorem upgraded_succ (h : k ≤ n) : c.upgraded k (n + 1) = (c.upgraded k n).upgrade (n + 1) := if_pos h

variable (report) in
/-- The scripts after version `k`, one after the other. -/
theorem exec_between (hc : (dbAt k c).Valid) (hkn : k ≤ n) (hn : n ≤ 7) :
    (((migrations id).take n).drop k).foldlM (fun db m => execScript report m.sql db) (dbAt k c) =
      .ok (dbAt n (c.upgraded k n)) ∧ (dbAt n (c.upgraded k n)).Valid := by
  induction n, hkn using Nat.le_induction with
  | base =>
    rw [upgraded_self, List.drop_eq_nil_of_le (List.length_take_le _ _)]
    exact ⟨rfl, hc⟩
  | succ n hkn ih =>
    obtain ⟨hrun, hvalid⟩ := ih (by omega)
    have hlt : n < (migrations id).length := hn
    have hm : (migrations id)[n]? = some ((migrations id).get ⟨n, hlt⟩) := List.getElem?_eq_getElem hlt
    have htake : ((migrations id).take (n + 1)).drop k =
        ((migrations id).take n).drop k ++ [(migrations id).get ⟨n, hlt⟩] := by
      rw [List.take_add_one, hm, Option.toList_some, List.drop_append_of_le_length]
      rw [List.length_take]
      omega
    rw [htake, List.foldlM_append, hrun, upgraded_succ hkn]
    refine ⟨?_, valid_next hm hvalid⟩
    simp only [bind, Except.bind, List.foldlM_cons, List.foldlM_nil, exec_next hm hvalid]
    rfl

/-! ## The rows -/

/-- The version that a table comes with. -/
def createdIn : TableName → ℕ
  | .documents | .embeddingModels | .documentEmbeddings => 2
  | .jobQueue => 3
  | .embeddingSearchState => 5
  | _ => 0

theorem createdIn_le {t : SqlTable} (hk : k ≤ 7) (ht : t ∈ catalogAt k) : createdIn t.name ≤ k := by
  have hall : ∀ k ≤ 7, ∀ t ∈ catalogAt k, createdIn t.name ≤ k := by decide
  exact hall k hk t ht

theorem rows_upgradeTable {name : TableName} {t : TableRows} (hname : createdIn name ≤ n) :
    (upgradeTable (n + 1) name t).rows = t.rows.map (carried n (n + 1) name) := by
  unfold upgradeTable
  split
  case h_1 h | h_2 h | h_3 h | h_4 h | h_6 h =>
    -- the table would be new
    simp only [createdIn] at hname
    omega
  case h_5 h =>
    obtain rfl : n = 3 := by omega
    rfl
  case h_7 h | h_8 h => exact (List.map_id _).symm
  case h_9 h =>
    obtain rfl : n = 6 := by omega
    rfl
  case h_10 name _ _ _ _ _ _ _ _ h₄ _ _ _ h₇ =>
    have hid : carried n (n + 1) name = id := by
      cases name with
      | jobQueue => exact if_neg fun h => h₄ (by omega) rfl
      | documents => exact if_neg fun h => h₇ (by omega) rfl
      | _ => rfl
    rw [hid, List.map_id]

theorem carried_comp {name : TableName} {r : TableRow} (hkn : k ≤ n) :
    carried n (n + 1) name (carried k n name r) = carried k (n + 1) name r := by
  cases name with
  | jobQueue =>
    unfold carried
    split_ifs with h₁ h₂ h₃ h₂ h₃
    all_goals first | rfl | omega
  | documents =>
    unfold carried
    split_ifs with h₁ h₂ h₃ h₂ h₃
    all_goals first | rfl | omega
  | _ => rfl

theorem rows_upgraded {t : SqlTable} (hk : k ≤ 7) (ht : t ∈ catalogAt k) (hkn : k ≤ n) :
    (c.upgraded k n t.name).rows = (c t.name).rows.map (carried k n t.name) := by
  induction n, hkn using Nat.le_induction with
  | base =>
    have hid : carried k k t.name = id := by
      cases t.name with
      | jobQueue => exact if_neg (by omega)
      | documents => exact if_neg (by omega)
      | _ => rfl
    rw [upgraded_self, hid, List.map_id]
  | succ n hkn ih =>
    rw [upgraded_succ hkn, Contents.upgrade, rows_upgradeTable ((createdIn_le hk ht).trans hkn), ih,
      List.map_map]
    exact List.map_congr_left fun r _ => carried_comp hkn

end scripts

/-! ## A database that already has a version -/

section replay
variable {σ : Type} {exec : String → σ → Except AnyError σ} {k : ℕ} {db db' : Database σ} {w w' : Migrated σ}
  {list done : List Migration}

/-- The first `k` scripts have run before: they count, and change nothing. -/
def replaying (k : ℕ) (exec : String → σ → Except AnyError σ) (sql : String) (x : ℕ × σ) :
    Except AnyError (ℕ × σ) :=
  if x.1 < k then .ok (x.1 + 1, x.2) else (exec sql x.2).map fun schema => (x.1, schema)

/-- The database with the number of scripts that still have to be skipped. -/
def replayed (k : ℕ) (db : Database σ) : Database (ℕ × σ) := ⟨db.migrations, (k, db.schema)⟩

theorem replayed_applyMigration {m : Migration} {u : Unit} (h : (applyMigration exec m).Ok db u db') :
    (applyMigration (replaying k exec) m).Ok (replayed k db) u (replayed k db') := by
  simp only [applyMigration, Tx.ok_transaction, Tx.ok_bind, Tx.ok_mapError] at h ⊢
  obtain ⟨_, db₁, hscript, hrow⟩ := h
  refine ⟨(), replayed k db₁, ?_, ?_⟩
  · have h := Tx.ok_exec.1 hscript
    refine Tx.ok_exec.2 ?_
    dsimp only [replayed]
    rw [replaying, if_neg (lt_irrefl k)]
    cases hexec : exec m.sql db.schema with
    | error err =>
      rw [hexec] at h
      cases h
    | ok schema =>
      rw [hexec] at h
      cases h
      rfl
  · have h := Tx.ok_exec.1 hrow
    refine Tx.ok_exec.2 ?_
    dsimp only [replayed] at h ⊢
    cases hdb : db₁.migrations with
    | none =>
      rw [hdb] at h
      cases h
    | some t =>
      rw [hdb] at h
      dsimp only at h ⊢
      cases ht : t.insert ⟨m.version, m.requiredActions⟩ with
      | none =>
        rw [ht] at h
        cases h
      | some t' =>
        rw [ht] at h
        cases h
        rfl

/-- A request that commits does so on a database that counts the scripts. -/
theorem replayed_run {r : MigrationReq} {v : r.Val} (h : (r.run exec).Ok db v db') :
    (r.run (replaying k exec)).Ok (replayed k db) v (replayed k db') := by
  cases r with
  | createMigrationsTable =>
    obtain ⟨-, rfl⟩ := Prod.mk.inj (Except.ok.inj (Tx.ok_exec.1 (Tx.ok_mapError.1 h)))
    exact Tx.ok_mapError.2 (Tx.ok_exec.2 rfl)
  | loadAppliedVersions =>
    obtain ⟨hload, rfl⟩ := Tx.ok_query.1 h
    exact Tx.ok_query.2 ⟨hload, rfl⟩
  | applyMigration m => exact replayed_applyMigration h

/-- The migrations of `done` come first in the log. -/
def Migrated.after (done : List Migration) (w : Migrated σ) : Migrated (ℕ × σ) :=
  ⟨replayed done.length w.db, done ++ w.log⟩

theorem answered_after {r : MigrationReq} {a : r.Ans} (h : Answered exec w r a w') :
    Answered (replaying done.length exec) (w.after done) r a (w'.after done) := by
  cases h with
  | done hok =>
    rw [Migrated.after, Migrated.after, ← List.append_assoc]
    exact .done (replayed_run hok)
  | unheard hok =>
    rw [Migrated.after, Migrated.after, ← List.append_assoc]
    exact .unheard (replayed_run hok)
  | failed => exact .failed

theorem foldlM_replaying : ∀ {done : List Migration} {i : ℕ} {schema : σ}, i + done.length = k →
    done.foldlM (fun x m => replaying k exec m.sql x) (i, schema) = .ok (k, schema)
  | [], i, schema, h => by
    rw [List.length_nil, Nat.add_zero] at h
    rw [h]
    rfl
  | m :: done, i, schema, h => by
    rw [List.length_cons] at h
    rw [List.foldlM_cons, replaying, if_pos (by omega : i < k)]
    exact foldlM_replaying (by omega)

/-- After the first `k`, the scripts do what they do. -/
theorem foldlM_replayed : ∀ {list : List Migration} {schema schema' : σ},
    list.foldlM (fun x m => replaying k exec m.sql x) (k, schema) = .ok (k, schema') →
      list.foldlM (fun schema m => exec m.sql schema) schema = .ok schema'
  | [], schema, schema', h => by
    cases h
    rfl
  | m :: list, schema, schema', h => by
    rw [List.foldlM_cons, replaying, if_neg (lt_irrefl k)] at h
    rw [List.foldlM_cons]
    cases hexec : exec m.sql schema with
    | error err =>
      rw [hexec] at h
      cases h
    | ok schema₁ =>
      rw [hexec] at h
      exact foldlM_replayed h

/-- Whatever processes do to a database with the first versions of the list, it has the first versions of
    the list, and is what the scripts in between have made of it. -/
theorem migrated_from {ms : Migrators σ} {tr : List PoolOp} (hlist : list.Nodup) (hk : k ≤ list.length)
    (hdb : db.recorded = (list.take k).map Migration.version)
    (h : Run (MigratorsStep exec list) ⟨⟨db, []⟩, []⟩ tr ms) :
    ∃ n, k ≤ n ∧ n ≤ list.length ∧ ms.state.db.recorded = (list.take n).map Migration.version ∧
      ((list.take n).drop k).foldlM (fun schema m => exec m.sql schema) db.schema = .ok ms.state.db.schema ∧
      ∀ applied, some (.ret (.ok applied)) ∈ ms.procs → n = list.length := by
  have hlen : (list.take k).length = k := by rw [List.length_take, min_eq_left hk]
  have hrun := Pool.run_map (f := Migrated.after (list.take k)) (fun _ _ _ _ => answered_after) h
  have hstart : InOrder (replaying (list.take k).length exec) (0, db.schema) list
      (Migrated.after (list.take k) ⟨db, []⟩) := by
    refine ⟨?_, ?_, ?_⟩
    · rw [Migrated.after, List.append_nil]
      exact List.take_prefix k list
    · rw [Migrated.after, List.append_nil]
      exact hdb
    · rw [Migrated.after, List.append_nil]
      exact foldlM_replaying (Nat.zero_add _)
  obtain ⟨hw, hprocs⟩ := Pool.sound_run parallel_migrating (fun w hw => sat_applyPendingMigrations hw)
    hrun hstart
  have hlog : list.take k ++ ms.state.log = list.take (list.take k ++ ms.state.log).length :=
    List.prefix_iff_eq_take.1 hw.initial
  have hscripts := hw.scripts
  rw [Migrated.after, List.foldlM_append, foldlM_replaying (Nat.zero_add _)] at hscripts
  refine ⟨(list.take k ++ ms.state.log).length, ?_, hw.initial.length_le, ?_, ?_, ?_⟩
  · rw [List.length_append, hlen]
    exact Nat.le_add_right _ _
  · rw [← hlog]
    exact hw.recorded
  · rw [← hlog]
    have hdrop : (list.take k ++ ms.state.log).drop k = ms.state.log := by
      rw [List.drop_append_of_le_length hlen.ge, List.drop_eq_nil_of_le hlen.le, List.nil_append]
    rw [hdrop]
    exact foldlM_replayed hscripts
  · intro applied happlied
    have hall : ∀ m ∈ list, m ∈ list.take k ++ ms.state.log := hprocs _ happlied
    exact le_antisymm hw.initial.length_le (hlist.subperm hall).length_le

end replay

/-! ## The database of the server -/

/-- **A migrated database keeps its rows**: from a valid database of any version, processes that migrate it,
    interleaved at their transactions, failing and killed anywhere, lead only to valid databases of later
    versions, with exactly the rows that were there, each with its key; the next script never fails on
    one, and a process that returns well leaves one of the last version. -/
theorem migrations_keep_rows {report : Sql.Error TableName IndexName ColumnName → AnyError} {k : ℕ}
    {c : Contents} {db : Database Tables} {ms : Migrators Tables} {tr : List PoolOp} (hk : k ≤ 7)
    (hc : (dbAt k c).Valid) (hrec : db.recorded = ((migrations id).take k).map Migration.version)
    (hschema : db.schema = dbAt k c)
    (h : Run (MigratorsStep (execScript report) (migrations id)) ⟨⟨db, []⟩, []⟩ tr ms) :
    ∃ n, k ≤ n ∧ n ≤ 7 ∧ ms.state.db.recorded = ((migrations id).take n).map Migration.version ∧
      ms.state.db.schema = dbAt n (c.upgraded k n) ∧ (dbAt n (c.upgraded k n)).Valid ∧
      (∀ t ∈ catalogAt k, (c.upgraded k n t.name).rows = (c t.name).rows.map (carried k n t.name)) ∧
      (∀ m, (migrations id)[n]? = some m →
        ∃ tables, execScript report m.sql ms.state.db.schema = .ok tables) ∧
      ∀ applied, some (.ret (.ok applied)) ∈ ms.procs → n = 7 := by
  obtain ⟨n, hkn, hn, hrec', hscripts, hended⟩ := migrated_from (by decide) hk hrec h
  obtain ⟨hbetween, hvalid⟩ := exec_between report hc hkn hn
  rw [hschema, hbetween] at hscripts
  have hschema' : ms.state.db.schema = dbAt n (c.upgraded k n) := (Except.ok.inj hscripts).symm
  refine ⟨n, hkn, hn, hrec', hschema', hvalid, ?_, ?_, hended⟩
  · exact fun t ht => rows_upgraded hk ht hkn
  · intro m hm
    rw [hschema']
    exact ⟨_, exec_next hm hvalid⟩

/-! ## A database of the third version -/

/-- A document. -/
def sampleDocumentRow : TableRow := documentsSchema.fill (documentsSchema.names.zip
  [.integer 1, .text "/data/a.txt", .text "txt", .text "resource", .integer 10, .integer 4, .integer 10])

/-- A model. -/
def sampleModelRow : TableRow := namedModelsSchema.fill (namedModelsSchema.names.zip
  [.integer 2, .text "small", .integer 1, .integer 8, .integer 0, .integer 10])

/-- An embedding of that document by that model. -/
def sampleEmbeddingRow : TableRow := documentEmbeddingsSchema.fill (documentEmbeddingsSchema.names.zip
  [.integer 3, .integer 1, .integer 2, .text "content", .integer 0, .integer 4, .text "embedded",
    .blob [0, 0, 0, 0], .integer 10])

/-- A job, with a heartbeat. -/
def sampleJobRow : TableRow := heartbeatQueueSchema.fill (heartbeatQueueSchema.names.zip
  [.integer 4, .text "ingest_folder", .text "\x7b\x7d", .integer 20, .integer 10, .integer 15])

/-- A document with an embedding, and a job that is being worked on. -/
def sampleContents : Contents
  | .documents => ⟨[sampleDocumentRow], 1⟩
  | .embeddingModels => ⟨[sampleModelRow], 5⟩
  | .documentEmbeddings => ⟨[sampleEmbeddingRow], 3⟩
  | .jobQueue => ⟨[sampleJobRow], 4⟩
  | _ => ⟨[], 0⟩

theorem valid_of_one_row {t : SqlTable} {values : List Sql.Value}
    (hrows : t.rows = [t.schema.fill (t.schema.names.zip values)])
    (hconstr : ∀ col ∈ t.schema.constrained, col ∈ t.schema.names)
    (hindexed : ∀ i ∈ t.indexes, ∀ col ∈ i.columns, col ∈ t.schema.names)
    (hfits : ∀ r ∈ t.rows, t.schema.Fits r) (hauto : t.schema.autoincrement = true)
    (hseq : ∀ r ∈ t.rows, (r t.schema.key).toInt ≤ t.seq) : t.Valid where
  constrained := hconstr
  indexed := hindexed
  blank := by
    rw [hrows]
    exact List.forall_mem_singleton.2 fun col hcol => Sql.Schema.fill_outside (fun _ hc => hc) hcol
  fits := hfits
  unique cs _ := by
    rw [hrows]
    exact List.pairwise_singleton _ _
  seq _ := hseq
  noSeq hno := by simp [hauto] at hno

theorem valid_sampleContents : (dbAt 3 sampleContents).Valid where
  names := by decide
  tables := by
    refine List.forall_mem_cons.2 ⟨?_, List.forall_mem_cons.2 ⟨?_, List.forall_mem_cons.2 ⟨?_,
      List.forall_mem_singleton.2 ?_⟩⟩⟩
    · exact valid_of_one_row rfl (by decide) (by decide) (by decide) rfl (by decide)
    · exact valid_of_one_row rfl (by decide) (by decide) (by decide) rfl (by decide)
    · exact valid_of_one_row rfl (by decide) (by decide) (by decide) rfl (by decide)
    · exact valid_of_one_row rfl (by decide) (by decide) (by decide) rfl (by decide)
  complete := by decide

/-- Three scripts have run. -/
def sampleVersions : MigrationsTable := ⟨[⟨1, none⟩, ⟨2, none⟩, ⟨3, none⟩], by decide⟩

/-- A process is killed after the fourth script, and another one goes on. -/
def killedMigrator : List PoolOp :=
  [.start, .request 0, .request 0, .request 0, .kill 0, .start, .request 1, .request 1, .request 1,
    .request 1, .request 1]

/-- Whether a process has returned well. -/
def returnedWell (ms : Migrators Tables) : Bool := ms.procs.any fun
  | some (.ret (.ok _)) => true
  | _ => false

theorem sample_migrations_keep_rows : ∃ ms : Migrators Tables,
    Run (MigratorsStep (execScript fun _ => .msg "") (migrations id))
      ⟨⟨⟨some sampleVersions, dbAt 3 sampleContents⟩, []⟩, []⟩ killedMigrator ms ∧
    ms.state.db.recorded = [1, 2, 3, 4, 5, 6, 7] ∧
    ∃ c, ms.state.db.schema = dbAt 7 c ∧ (c .jobQueue).rows = [simplifyClaim sampleJobRow] ∧
      (c .documentEmbeddings).rows = [sampleEmbeddingRow] := by
  have hplay : ((Pool.play (replyMigration (execScript fun _ => .msg ""))
      (applyPendingMigrations (migrations id)) killedMigrator 0
        ⟨⟨⟨some sampleVersions, dbAt 3 sampleContents⟩, []⟩, []⟩).any returnedWell) = true := by
    decide +kernel
  obtain ⟨ms, hms, hwell⟩ := (Option.any_eq_true _ _).1 hplay
  have hrun := Pool.run_of_play (fun n s r out => answered_of_reply) hms
  obtain ⟨n, -, -, hrec, hschema, -, hrows, -, hended⟩ :=
    migrations_keep_rows (by decide) valid_sampleContents rfl rfl hrun
  obtain ⟨p, hp, hret⟩ := List.any_eq_true.1 hwell
  match p, hp, hret with
  | some (.ret (.ok applied)), hp, _ =>
    obtain rfl := hended applied hp
    refine ⟨ms, hrun, hrec, _, hschema, ?_, ?_⟩
    · exact hrows heartbeatQueueTable (List.mem_of_getElem? (i := 3) rfl)
    · exact hrows documentEmbeddingsTable (List.mem_of_getElem? (i := 2) rfl)

end Ask
