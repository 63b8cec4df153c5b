/-
  What the migrations make of the tables: the seven scripts of
  `ask-core/migrations`, statement by statement, and the tables that each of
  them leaves.  `document_embedding_vec` is no table of the scripts: the server
  creates and drops it.
-/
import Ask.Lib.Sql
import Ask.Migrations

namespace Ask

open Lib

/-! ## Names -/

/-- The tables of the scripts, with the names they bear while one is rebuilt. -/
inductive TableName where
  | documents
  | embeddingModels
  | documentEmbeddings
  | jobQueue
  | embeddingSearchState
  | jobQueueOld
  | embeddingModelsOld
  | documentEmbeddingsOld
  | embeddingSearchStateOld
  deriving DecidableEq, Repr

/-- The indexes of the scripts. -/
inductive IndexName where
  | idxEmbeddingsUnique
  | idxEmbeddingsDocument
  | idxEmbeddingsModelState
  | idxJobQueueUnique
  | idxEmbeddingModelsIdentityUnique
  deriving DecidableEq, Repr

/-- The columns of all tables. -/
inductive ColumnName where
  | id
  | filepath
  | fileType
  | docCategory
  | fileModifiedAt
  | fileSize
  | fileHash
  | metadataJson
  | updatedAt
  | name
  | dimensions
  | chunkSize
  | chunkOverlap
  | createdAt
  | documentId
  | modelId
  | chunkType
  | chunkStart
  | chunkEnd
  | state
  | embedding
  | jobType
  | payload
  | heartbeat
  | claimedAt
  | singletonId
  | activeModelId
  deriving DecidableEq, Repr

/-- A row: a value for each column, NULL for those of other tables. -/
abbrev TableRow := Sql.Row ColumnName

/-- What a `CREATE TABLE` declares. -/
abbrev TableSchema := Sql.Schema TableName ColumnName

/-- A table with its rows and its indexes. -/
abbrev SqlTable := Sql.Table TableName IndexName ColumnName

/-- The schema and the rows of a whole database. -/
abbrev Tables := Sql.Database TableName IndexName ColumnName

/-- A statement of a script. -/
abbrev Statement := Sql.Stmt TableName IndexName ColumnName

/-! ## Columns -/

/-- `INTEGER PRIMARY KEY AUTOINCREMENT`; the counter belongs to the table. -/
def primaryKey (c : ColumnName) : Sql.Column ColumnName := ⟨c, .integer, false, .null⟩

/-- `INTEGER NOT NULL` -/
def integerNotNull (c : ColumnName) : Sql.Column ColumnName := ⟨c, .integer, true, .null⟩

/-- `TEXT NOT NULL` -/
def textNotNull (c : ColumnName) : Sql.Column ColumnName := ⟨c, .text, true, .null⟩

/-- `TEXT NOT NULL DEFAULT ''`. -/
def textDefault (c : ColumnName) : Sql.Column ColumnName := ⟨c, .text, true, .text ""⟩

/-! ## Tables -/

/-- `documents`, as script 2 creates it. -/
def documentsSchema : TableSchema where
  columns := [primaryKey .id, textNotNull .filepath, textNotNull .fileType, textNotNull .docCategory,
    integerNotNull .fileModifiedAt, integerNotNull .fileSize, integerNotNull .updatedAt]
  key := .id
  autoincrement := true
  uniques := []
  checks := []
  references := []

/-- As of `0002_create_domain_tables.sql`, where a name belongs to one model. -/
def namedModelsSchema : TableSchema where
  columns := [primaryKey .id, textNotNull .name, integerNotNull .dimensions, integerNotNull .chunkSize,
    integerNotNull .chunkOverlap, integerNotNull .createdAt]
  key := .id
  autoincrement := true
  uniques := [[.name]]
  checks := []
  references := []

/-- `embedding_models` after script 6: one name may stand for several models. -/
def embeddingModelsSchema : TableSchema := { namedModelsSchema with uniques := [] }

/-- `document_embeddings`, as scripts 2 and 6 create it. -/
def documentEmbeddingsSchema : TableSchema where
  columns := [primaryKey .id, integerNotNull .documentId, integerNotNull .modelId, textNotNull .chunkType,
    integerNotNull .chunkStart, integerNotNull .chunkEnd, textNotNull .state,
    ⟨.embedding, .blob, false, .null⟩, integerNotNull .createdAt]
  key := .id
  autoincrement := true
  uniques := []
  checks := []
  references := [(.documentId, .documents), (.modelId, .embeddingModels)]

/-- As of `0003_create_job_queue.sql`. -/
def heartbeatQueueSchema : TableSchema where
  columns := [primaryKey .id, textNotNull .jobType, textNotNull .payload,
    ⟨.heartbeat, .integer, false, .null⟩, integerNotNull .createdAt, integerNotNull .updatedAt]
  key := .id
  autoincrement := true
  uniques := []
  checks := []
  references := []

/-- `job_queue` after script 4: a claim is a time and nothing else. -/
def jobQueueSchema : TableSchema where
  columns := [primaryKey .id, textNotNull .jobType, textNotNull .payload,
    ⟨.claimedAt, .integer, false, .null⟩, integerNotNull .createdAt]
  key := .id
  autoincrement := true
  uniques := []
  checks := []
  references := []

/-- `embedding_search_state`: one row, which points to a model. -/
def embeddingSearchStateSchema : TableSchema where
  columns := [primaryKey .singletonId, integerNotNull .activeModelId, integerNotNull .dimensions,
    integerNotNull .updatedAt]
  key := .singletonId
  autoincrement := false
  uniques := []
  checks := [.eq .singletonId 1, .gt .dimensions 0]
  references := [(.activeModelId, .embeddingModels)]

/-! ## Scripts -/

/-- Script 1, `SELECT 1;`. -/
def bootstrapMigrationSystem : List Statement := [.select]

/-- Script 2: documents, models and embeddings, with their indexes. -/
def createDomainTables : List Statement :=
  [.createTable .documents true documentsSchema,
    .createTable .embeddingModels true namedModelsSchema,
    .createTable .documentEmbeddings true documentEmbeddingsSchema,
    .createIndex .idxEmbeddingsUnique true true .documentEmbeddings
      [.documentId, .modelId, .chunkType, .chunkStart],
    .createIndex .idxEmbeddingsDocument true false .documentEmbeddings [.documentId],
    .createIndex .idxEmbeddingsModelState true false .documentEmbeddings [.modelId, .state]]

/-- Script 3: the queue, still with heartbeats. -/
def createJobQueue : List Statement :=
  [.createTable .jobQueue true heartbeatQueueSchema,
    .createIndex .idxJobQueueUnique true true .jobQueue [.jobType, .payload]]

/-- Script 4: the queue without heartbeats, copied row by row. -/
def simplifyJobQueueClaim : List Statement :=
  [.renameTable .jobQueue .jobQueueOld,
    .createTable .jobQueue false jobQueueSchema,
    .insertSelect .jobQueue [.id, .jobType, .payload, .claimedAt, .createdAt]
      [.id, .jobType, .payload, .heartbeat, .createdAt] .jobQueueOld,
    .dropTable .jobQueueOld,
    .createIndex .idxJobQueueUnique false true .jobQueue [.jobType, .payload]]

/-- Script 5: the state of the vector index. -/
def createEmbeddingSearchState : List Statement :=
  [.createTable .embeddingSearchState false embeddingSearchStateSchema]

/-- The columns that script 6 copies from the old models. -/
def modelColumns : List ColumnName := [.id, .name, .dimensions, .chunkSize, .chunkOverlap, .createdAt]

/-- The columns that script 6 copies from the old embeddings. -/
def embeddingColumns : List ColumnName :=
  [.id, .documentId, .modelId, .chunkType, .chunkStart, .chunkEnd, .state, .embedding, .createdAt]

/-- The columns that script 6 copies from the old search state. -/
def searchStateColumns : List ColumnName := [.singletonId, .activeModelId, .dimensions, .updatedAt]

/-- Script 6: the three tables that know models, rebuilt without the unique name. -/
def rebuildEmbeddingModelIdentity : List Statement :=
  [.pragmaForeignKeys false,
    .renameTable .embeddingModels .embeddingModelsOld,
    .renameTable .documentEmbeddings .documentEmbeddingsOld,
    .renameTable .embeddingSearchState .embeddingSearchStateOld,
    .dropIndexIfExists .idxEmbeddingsUnique,
    .dropIndexIfExists .idxEmbeddingsDocument,
    .dropIndexIfExists .idxEmbeddingsModelState,
    .createTable .embeddingModels false embeddingModelsSchema,
    .createIndex .idxEmbeddingModelsIdentityUnique false true .embeddingModels
      [.name, .dimensions, .chunkSize, .chunkOverlap],
    .createTable .documentEmbeddings false documentEmbeddingsSchema,
    .createIndex .idxEmbeddingsUnique false true .documentEmbeddings
      [.documentId, .modelId, .chunkType, .chunkStart],
    .createIndex .idxEmbeddingsDocument false false .documentEmbeddings [.documentId],
    .createIndex .idxEmbeddingsModelState false false .documentEmbeddings [.modelId, .state],
    .createTable .embeddingSearchState false embeddingSearchStateSchema,
    .insertSelect .embeddingModels modelColumns modelColumns .embeddingModelsOld,
    .insertSelect .documentEmbeddings embeddingColumns embeddingColumns .documentEmbeddingsOld,
    .insertSelect .embeddingSearchState searchStateColumns searchStateColumns .embeddingSearchStateOld,
    .dropTable .embeddingSearchStateOld,
    .dropTable .documentEmbeddingsOld,
    .dropTable .embeddingModelsOld,
    .pragmaForeignKeys true]

/-- Script 7: two columns, empty in the rows that exist. -/
def addDocumentHashMetadata : List Statement :=
  [.addColumn .documents (textDefault .fileHash), .addColumn .documents (textDefault .metadataJson)]

/-- The scripts by their files. -/
def scripts : List (String × List Statement) :=
  [("../migrations/0001_bootstrap_migration_system.sql", bootstrapMigrationSystem),
    ("../migrations/0002_create_domain_tables.sql", createDomainTables),
    ("../migrations/0003_create_job_queue.sql", createJobQueue),
    ("../migrations/0004_simplify_job_queue_claim.sql", simplifyJobQueueClaim),
    ("../migrations/0005_create_embedding_search_state.sql", createEmbeddingSearchState),
    ("../migrations/0006_rebuild_embedding_model_identity.sql", rebuildEmbeddingModelIdentity),
    ("../migrations/0007_add_document_hash_metadata.sql", addDocumentHashMetadata)]

/-- Run the script of a file; `report` is how SQLite's errors come back. -/
def execScript (report : Sql.Error TableName IndexName ColumnName → AnyError) (path : String)
    (db : Tables) : Except AnyError Tables :=
  match scripts.lookup path with
  | none => .error (.msg s!"no script {path}")
  | some script => (Sql.runScript script db).mapError report

/-! ## Versions -/

/-- A table without rows. -/
def declared (name : TableName) (schema : TableSchema) (indexes : List (Sql.Index IndexName ColumnName)) :
    SqlTable := ⟨name, schema, indexes, [], 0⟩

/-- `documents` up to script 6, without rows. -/
def documentsTable : SqlTable := declared .documents documentsSchema []

/-- `documents` after script 7, without rows. -/
def hashedDocumentsTable : SqlTable := declared .documents
  { documentsSchema with
    columns := documentsSchema.columns ++ [textDefault .fileHash] ++ [textDefault .metadataJson] } []

/-- `embedding_models` up to script 5, without rows. -/
def namedModelsTable : SqlTable := declared .embeddingModels namedModelsSchema []

/-- `embedding_models` after script 6, without rows. -/
def embeddingModelsTable : SqlTable := declared .embeddingModels embeddingModelsSchema
  [⟨.idxEmbeddingModelsIdentityUnique, true, [.name, .dimensions, .chunkSize, .chunkOverlap]⟩]

/-- `document_embeddings`, without rows. -/
def documentEmbeddingsTable : SqlTable := declared .documentEmbeddings documentEmbeddingsSchema
  [⟨.idxEmbeddingsUnique, true, [.documentId, .modelId, .chunkType, .chunkStart]⟩,
    ⟨.idxEmbeddingsDocument, false, [.documentId]⟩, ⟨.idxEmbeddingsModelState, false, [.modelId, .state]⟩]

/-- `job_queue` after script 3, without rows. -/
def heartbeatQueueTable : SqlTable := declared .jobQueue heartbeatQueueSchema
  [⟨.idxJobQueueUnique, true, [.jobType, .payload]⟩]

/-- `job_queue` after script 4, without rows. -/
def jobQueueTable : SqlTable := declared .jobQueue jobQueueSchema
  [⟨.idxJobQueueUnique, true, [.jobType, .payload]⟩]

/-- `embedding_search_state`, without rows. -/
def embeddingSearchStateTable : SqlTable := declared .embeddingSearchState embeddingSearchStateSchema []

/-- The tables that a database of a version has. -/
def catalogAt : ℕ → Tables
  | 0 | 1 => []
  | 2 => [documentsTable, namedModelsTable, documentEmbeddingsTable]
  | 3 => [documentsTable, namedModelsTable, documentEmbeddingsTable, heartbeatQueueTable]
  | 4 => [documentsTable, namedModelsTable, documentEmbeddingsTable, jobQueueTable]
  | 5 => [documentsTable, namedModelsTable, documentEmbeddingsTable, jobQueueTable, embeddingSearchStateTable]
  | 6 => [documentsTable, jobQueueTable, embeddingModelsTable, documentEmbeddingsTable,
      embeddingSearchStateTable]
  | _ => [hashedDocumentsTable, jobQueueTable, embeddingModelsTable, documentEmbeddingsTable,
      embeddingSearchStateTable]

/-- The rows of a table with its counter. -/
structure TableRows where
  rows : List TableRow
  seq : ℤ

/-- The rows of every table. -/
abbrev Contents := TableName → TableRows

/-- The table with its rows. -/
def Contents.fill (c : Contents) (t : SqlTable) : SqlTable :=
  { t with rows := (c t.name).rows, seq := (c t.name).seq }

/-- A database of a version, `document_embedding_vec` aside. -/
def dbAt (version : ℕ) (c : Contents) : Tables := (catalogAt version).map c.fill

/-! ## Upgrades -/

/-- A job of the third version as one of the fourth. -/
def simplifyClaim (r : TableRow) : TableRow
  | .claimedAt => r .heartbeat
  | .heartbeat | .updatedAt => .null
  | c => r c

/-- A document of the sixth version as one of the seventh. -/
def addHash (r : TableRow) : TableRow
  | .fileHash | .metadataJson => .text ""
  | c => r c

/-- Rows in a new table, whose counter begins at the largest key. -/
def copied (rows : List TableRow) : TableRows :=
  ⟨rows, rows.foldl (fun seq r => max seq (r .id).toInt) 0⟩

/-- What the script of a version makes of a table. -/
def upgradeTable : ℕ → TableName → TableRows → TableRows
  | 2, .documents, _ | 2, .embeddingModels, _ | 2, .documentEmbeddings, _ => ⟨[], 0⟩
  | 3, .jobQueue, _ => ⟨[], 0⟩
  | 4, .jobQueue, t => copied (t.rows.map simplifyClaim)
  | 5, .embeddingSearchState, _ => ⟨[], 0⟩
  | 6, .embeddingModels, t | 6, .documentEmbeddings, t => copied t.rows
  | 7, .documents, t => ⟨t.rows.map addHash, t.seq⟩
  | _, _, t => t

/-- The rows of every table after a script. -/
def Contents.upgrade (c : Contents) (version : ℕ) : Contents := fun n => upgradeTable version n (c n)

/-- What the scripts after version `k` make of the contents, up to a version. -/
def Contents.upgraded (c : Contents) (k : ℕ) : ℕ → Contents
  | 0 => c
  | n + 1 => if k ≤ n then (c.upgraded k n).upgrade (n + 1) else c

/-- What a row that was there at version `k` is at version `n`. -/
def carried (k n : ℕ) : TableName → TableRow → TableRow
  | .jobQueue => if k < 4 ∧ 4 ≤ n then simplifyClaim else id
  | .documents => if k < 7 ∧ 7 ≤ n then addHash else id
  | _ => id

end Ask
