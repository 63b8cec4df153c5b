/-
  The start of the server: `main` of `ask-server.rs`, the connection pool of
  `lib.rs` and the state that `http.rs` shares among the routes.

  `main` also applies the pending migrations; here the schema is up to date
  when the server starts.
-/
import Ask.Provider
import Ask.ResponsePaths
import Ask.Startup
import Ask.VectorIndex

namespace Ask

open Lib

/-! ## The state of the routes -/

/-- What responses show of the configuration. -/
structure RuntimeConfig where
  dataDir : String
  databasePoolSize : ℤ
  resourceDir : String
  embeddingMode : String
  embeddingBaseUrl : String
  embeddingMaxBatchSize : ℤ
  embeddingWorkerCount : ℤ
  deriving DecidableEq, Repr

/-- `RuntimeConfig::from_config` -/
def RuntimeConfig.fromConfig (config : Config) : RuntimeConfig where
  dataDir := config.dataDir
  databasePoolSize := config.databasePoolSize
  resourceDir := config.resourceDir
  embeddingMode := config.embeddingProvider.modeName
  embeddingBaseUrl := config.embeddingProvider.baseUrl
  embeddingMaxBatchSize := config.embeddingMaxBatchSize
  embeddingWorkerCount := config.embeddingWorkerCount

/-- The client that handlers share. -/
inductive SharedEmbeddingClient where
  | deterministic
  | http (client : HttpEmbeddingClient)

/-- What every request handler can see. -/
structure AppState where
  resourceRoot : String
  dataRoot : String
  pathTranslator : ResponsePathTranslator
  embeddingClient : SharedEmbeddingClient
  runtimeConfig : RuntimeConfig

namespace AppState

/-- Both roots resolved, each with the name responses give it. -/
def newWithDisplayDirs (canonicalize : String → Except IoError String)
    (resourceDir dataDir resourceDisplayDir dataDisplayDir : String) : Except IoError AppState := do
  let resourceRoot ← canonicalize resourceDir
  let dataRoot ← canonicalize dataDir
  let pathTranslator := ResponsePathTranslator.new
    [⟨resourceRoot, displayPathRoot resourceDisplayDir⟩, ⟨dataRoot, displayPathRoot dataDisplayDir⟩]
  pure
    { resourceRoot, dataRoot, pathTranslator
      embeddingClient := .deterministic
      runtimeConfig :=
        { dataDir := defaultDataDir
          databasePoolSize := defaultDatabasePoolSize
          resourceDir := resourceRoot
          embeddingMode := "tei"
          embeddingBaseUrl := defaultTeiBaseUrl
          embeddingMaxBatchSize := defaultEmbeddingMaxBatchSize
          embeddingWorkerCount := defaultWorkerCount } }

/-- `AppState::with_embedding_client` -/
def withEmbeddingClient (state : AppState) (embeddingClient : SharedEmbeddingClient) : AppState :=
  { state with embeddingClient }

/-- `AppState::with_runtime_config` -/
def withRuntimeConfig (state : AppState) (runtimeConfig : RuntimeConfig) : AppState :=
  { state with runtimeConfig }

end AppState

/-! ## The machine -/

/-- What the server starts on.  `openDatabase` makes the directory of the database and the pool, and takes a
    first connection; `maxDimensions` is the widest vector column of the extension. -/
structure Machine where
  env : Environment
  openDatabase : String → ℕ → Except AnyError Unit
  clock : Except AnyError ℕ
  view : View
  maxDimensions : ℕ
  bind : String → Except AnyError Unit
  canonicalize : String → Except IoError String

namespace Machine

variable (m : Machine)

/-- A pool of at least one connection. -/
def createPoolWithMaxSize (databasePath : String) (maxSize : ℤ) : Except AnyError ℕ := do
  ensure (0 < maxSize) "database pool size must be greater than 0"
  if maxSize < 2 ^ 32 then
    m.openDatabase databasePath maxSize.toNat
    pure maxSize.toNat
  else .error (.context "database pool size must fit into u32"
    (.msg "out of range integral type conversion attempted"))

/-- `ensure_active_search_model` with an extension that refuses columns that are too wide: the table has been
    dropped by then. -/
def ensureActiveSearchModel (model : EmbeddingModel) (now : ℤ) : Db ℕ := do
  let needsRebuild ← activeIndexRequiresRebuild model
  if needsRebuild ∧ (m.maxDimensions : ℤ) < model.dimensions then do
    Tx.exec fun s => .ok ((), { s with vec := none })
    Tx.fail (.context "failed to create sqlite-vec search table"
      (.msg "Dimension on vector column too large"))
  else Ask.ensureActiveSearchModel model now

end Machine

/-! ## `main` -/

/-- What is not of the database. -/
def given {α : Type} (x : Except AnyError α) : Db α := Tx.query fun _ => x

/-- A server as it begins to serve. -/
structure Serving where
  config : Config
  poolSize : ℕ
  model : EmbeddingModel
  client : HttpEmbeddingClient
  app : AppState

/-- From the environment to a server that listens; the schema is up to date by then. -/
def boot (E : Env) (m : Machine) : Db Serving := do
  let config ← given (loadConfig m.env)
  let poolSize ← given (m.createPoolWithMaxSize config.sqlitePath config.databasePoolSize)
  let now : ℕ ← given m.clock
  let startupState ← reconcileEmbeddingStartup E m.view config.embeddingIdentity now
  let model := startupState.model
  let _ ← m.ensureActiveSearchModel model now
  let _ ← given (m.bind config.bindAddress)
  let client ← given (HttpEmbeddingClient.new config.embeddingProvider config.embeddingMaxBatchSize.toNat)
  let app ← given ((AppState.newWithDisplayDirs m.canonicalize config.resourceDir config.dataDir
    config.resourceDisplayDir config.dataDisplayDir).mapError IoError.toAny)
  pure
    { config, poolSize, model, client
      app := (app.withRuntimeConfig (.fromConfig config)).withEmbeddingClient (.http client) }

end Ask
