/-
  Server configuration loaded from environment variables: `config.rs`.
-/
import Ask.Lib.Decimal
import Ask.Lib.Fallible
import Ask.Types

namespace Ask

open Lib

/-! ## The environment -/

/-- Why a variable cannot be read: `std::env::VarError`. -/
inductive VarError where
  | notPresent
  | notUnicode
  deriving DecidableEq, Repr

/-- `std::env::var`. -/
abbrev Environment := String → Except VarError String

/-- `std::env::var(name).unwrap_or_else(|_| default)` -/
def varOr (env : Environment) (name default : String) : String :=
  match env name with
  | .ok raw => raw
  | .error _ => default

/-- `char::is_whitespace`. -/
def isWhiteSpace (c : Char) : Bool :=
  let n := c.toNat
  (0x9 ≤ n && n ≤ 0xD) || (0x2000 ≤ n && n ≤ 0x200A) ||
    [0x20, 0x85, 0xA0, 0x1680, 0x2028, 0x2029, 0x202F, 0x205F, 0x3000].contains n

/-- `str::trim_end_matches` -/
def trimEndMatches (p : Char → Bool) (text : String) : String :=
  String.ofList (text.toList.reverse.dropWhile p).reverse

/-- `str::trim`, of a text. -/
def trimText (text : String) : String :=
  trimEndMatches isWhiteSpace (String.ofList (text.toList.dropWhile isWhiteSpace))

/-- The range of a `usize` on a 64-bit machine. -/
def usize : Decimal.IntType := ⟨0, 2 ^ 64 - 1, le_rfl, by norm_num⟩

/-- The range of a `u16`. -/
def u16 : Decimal.IntType := ⟨0, 2 ^ 16 - 1, le_rfl, by norm_num⟩

/-- The range of an `i64`. -/
def i64 : Decimal.IntType := ⟨-2 ^ 63, 2 ^ 63 - 1, by norm_num, by norm_num⟩

/-- `raw.parse::<ty>()` with its context, or the default where the variable cannot be read. -/
def loadInteger (env : Environment) (ty : Decimal.IntType) (name kind : String) (default : ℤ) :
    Except AnyError ℤ :=
  match env name with
  | .ok raw => (Decimal.parse ty raw).mapError fun err =>
      .context ("failed to parse " ++ name ++ " value '" ++ raw ++ "' as " ++ kind) (.msg err.text)
  | .error _ => .ok default

/-! ## Variables and defaults -/

/-- The variable of the directory that holds the database. -/
def dataDirEnv : String := "ASK_SERVER_DATA_DIR"

/-- The variable of the name that responses give the data directory. -/
def dataDisplayDirEnv : String := "ASK_SERVER_DATA_DISPLAY_DIR"

/-- The variable of the number of pooled connections. -/
def databasePoolSizeEnv : String := "ASK_SERVER_DATABASE_POOL_SIZE"

/-- The variable of the directory that ingests stay inside. -/
def resourceDirEnv : String := "ASK_SERVER_RESOURCE_DIR"

/-- The variable of the name that responses give the resource directory. -/
def resourceDisplayDirEnv : String := "ASK_SERVER_RESOURCE_DISPLAY_DIR"

/-- The variable of the address the server listens on. -/
def bindHostEnv : String := "ASK_SERVER_BIND_HOST"

/-- The variable of the port the server listens on. -/
def bindPortEnv : String := "ASK_SERVER_BIND_PORT"

/-- The variable of the model's name, which has no default. -/
def embeddingModelEnv : String := "ASK_SERVER_EMBEDDING_MODEL"

/-- The variable of the length of the model's vectors. -/
def embeddingDimensionsEnv : String := "ASK_SERVER_EMBEDDING_DIMENSIONS"

/-- The variable of the length of a chunk. -/
def embeddingChunkSizeEnv : String := "ASK_SERVER_EMBEDDING_CHUNK_SIZE"

/-- The variable of how far two chunks overlap. -/
def embeddingChunkOverlapEnv : String := "ASK_SERVER_EMBEDDING_CHUNK_OVERLAP"

/-- The variable of the number of inputs in one provider request. -/
def embeddingMaxBatchSizeEnv : String := "ASK_SERVER_EMBEDDING_MAX_BATCH_SIZE"

/-- The variable of the number of workers. -/
def embeddingWorkerCountEnv : String := "ASK_SERVER_EMBEDDING_WORKER_COUNT"

/-- The variable that chooses the provider, `tei` or `openai`. -/
def embeddingModeEnv : String := "ASK_SERVER_EMBEDDING_MODE"

/-- The variable of the provider's base URL. -/
def embeddingBaseUrlEnv : String := "ASK_SERVER_EMBEDDING_BASE_URL"

/-- The variable of the provider's bearer token, for `openai`. -/
def embeddingAuthTokenEnv : String := "ASK_SERVER_EMBEDDING_AUTH_TOKEN"

/-- Where the database lies unless the environment says so. -/
def defaultDataDir : String := ".data"

/-- Pooled connections, unless told otherwise. -/
def defaultDatabasePoolSize : ℤ := 8

/-- The directory the server was started in. -/
def defaultResourceDir : String := "."

/-- Every interface. -/
def defaultBindHost : String := "0.0.0.0"

/-- The port, unless told otherwise. -/
def defaultBindPort : ℤ := 3000

/-- The length of vectors, unless told otherwise. -/
def defaultEmbeddingDimensions : ℤ := 768

/-- The length of chunks, unless told otherwise. -/
def defaultEmbeddingChunkSize : ℤ := 512

/-- Chunks do not overlap, unless told otherwise. -/
def defaultEmbeddingChunkOverlap : ℤ := 0

/-- Inputs in one request, unless told otherwise. -/
def defaultEmbeddingMaxBatchSize : ℤ := 32

/-- Workers, unless told otherwise. -/
def defaultWorkerCount : ℤ := 4

/-- Where a local `tei` listens. -/
def defaultTeiBaseUrl : String := "http://localhost:18080"

/-! ## The configuration -/

/-- Embedding backend configuration. -/
inductive EmbeddingProvider where
  | tei (baseUrl : String)
  | openAi (baseUrl authToken : String)
  deriving DecidableEq, Repr

/-- The URL that `/embeddings` is appended to. -/
def EmbeddingProvider.baseUrl : EmbeddingProvider → String
  | tei baseUrl | openAi baseUrl _ => baseUrl

/-- The provider's name in messages. -/
def EmbeddingProvider.modeName : EmbeddingProvider → String
  | tei _ => "tei"
  | openAi _ _ => "openai"

/-- What the server is started with, all of it checked. -/
structure Config where
  dataDir : String
  dataDisplayDir : String
  databasePoolSize : ℤ
  resourceDir : String
  resourceDisplayDir : String
  bindHost : String
  bindPort : ℤ
  embeddingModel : String
  embeddingDimensions : ℤ
  embeddingChunkSize : ℤ
  embeddingChunkOverlap : ℤ
  embeddingMaxBatchSize : ℤ
  embeddingWorkerCount : ℤ
  embeddingProvider : EmbeddingProvider
  deriving DecidableEq, Repr

namespace Config

/-- `Config::bind_address` -/
def bindAddress (config : Config) : String := config.bindHost ++ ":" ++ toString config.bindPort

/-- The database file in the data directory, trailing slashes of either kind dropped. -/
def sqlitePath (config : Config) : String :=
  trimEndMatches (fun c => c = '/' || c = '\\') config.dataDir ++ "/ask.sqlite3"

/-- The identity of the model that the environment names. -/
def embeddingIdentity (config : Config) : EmbeddingIdentity :=
  ⟨config.embeddingModel, config.embeddingDimensions, config.embeddingChunkSize,
    config.embeddingChunkOverlap⟩

end Config

/-! ## Loading -/

/-- `ensure!` -/
def ensure (p : Prop) [Decidable p] (text : String) : Except AnyError Unit :=
  if p then .ok () else .error (.msg text)

/-- The variable, which has to be set. -/
def required (env : Environment) (name text : String) : Except AnyError String :=
  (env name).mapError fun _ => .msg text

/-- The provider the mode names; `openai` needs a URL and a token of its own. -/
def loadEmbeddingProvider (env : Environment) : Except AnyError EmbeddingProvider :=
  let mode := varOr env embeddingModeEnv "tei"
  if mode = "tei" then do
    let baseUrl := varOr env embeddingBaseUrlEnv defaultTeiBaseUrl
    ensure (trimText baseUrl ≠ "")
      (embeddingBaseUrlEnv ++ " must not be empty when " ++ embeddingModeEnv ++ "=tei")
    pure (.tei baseUrl)
  else if mode = "openai" then do
    let baseUrl ← required env embeddingBaseUrlEnv
      (embeddingBaseUrlEnv ++ " must be set when " ++ embeddingModeEnv ++ "=openai")
    ensure (trimText baseUrl ≠ "")
      (embeddingBaseUrlEnv ++ " must not be empty when " ++ embeddingModeEnv ++ "=openai")
    let authToken ← required env embeddingAuthTokenEnv
      (embeddingAuthTokenEnv ++ " must be set when " ++ embeddingModeEnv ++ "=openai")
    ensure (trimText authToken ≠ "")
      (embeddingAuthTokenEnv ++ " must not be empty when " ++ embeddingModeEnv ++ "=openai")
    pure (.openAi baseUrl authToken)
  else .error (.msg
    (embeddingModeEnv ++ " must be either 'tei' or 'openai', got '" ++ mode ++ "'"))

/-- The number of workers may be zero. -/
def validateEmbeddingSettings (embeddingDimensions embeddingChunkSize embeddingChunkOverlap
    embeddingMaxBatchSize _embeddingWorkerCount databasePoolSize : ℤ) : Except AnyError Unit := do
  ensure (0 < embeddingDimensions)
    (embeddingDimensionsEnv ++ " must be greater than 0, got " ++ toString embeddingDimensions)
  ensure (0 < embeddingChunkSize)
    (embeddingChunkSizeEnv ++ " must be greater than 0, got " ++ toString embeddingChunkSize)
  ensure (0 ≤ embeddingChunkOverlap)
    (embeddingChunkOverlapEnv ++ " must be greater than or equal to 0, got " ++
      toString embeddingChunkOverlap)
  ensure (embeddingChunkOverlap < embeddingChunkSize)
    (embeddingChunkOverlapEnv ++ " must be less than " ++ embeddingChunkSizeEnv ++ ", got " ++
      toString embeddingChunkOverlap ++ " >= " ++ toString embeddingChunkSize)
  ensure (0 < embeddingMaxBatchSize)
    (embeddingMaxBatchSizeEnv ++ " must be greater than 0, got " ++ toString embeddingMaxBatchSize)
  ensure (0 < databasePoolSize)
    (databasePoolSizeEnv ++ " must be greater than 0, got " ++ toString databasePoolSize)

/-- `config::load`. -/
def loadConfig (env : Environment) : Except AnyError Config := do
  let dataDir := varOr env dataDirEnv defaultDataDir
  let dataDisplayDir := varOr env dataDisplayDirEnv dataDir
  let databasePoolSize ← loadInteger env usize databasePoolSizeEnv "an integer" defaultDatabasePoolSize
  let resourceDir := varOr env resourceDirEnv defaultResourceDir
  let resourceDisplayDir := varOr env resourceDisplayDirEnv resourceDir
  let bindHost := varOr env bindHostEnv defaultBindHost
  let bindPort ← loadInteger env u16 bindPortEnv "a valid TCP port" defaultBindPort
  let embeddingModel ← required env embeddingModelEnv (embeddingModelEnv ++ " must be set")
  ensure (trimText embeddingModel ≠ "") (embeddingModelEnv ++ " must not be empty")
  let embeddingDimensions ← loadInteger env i64 embeddingDimensionsEnv "an integer"
    defaultEmbeddingDimensions
  let embeddingChunkSize ← loadInteger env i64 embeddingChunkSizeEnv "an integer"
    defaultEmbeddingChunkSize
  let embeddingChunkOverlap ← loadInteger env i64 embeddingChunkOverlapEnv "an integer"
    defaultEmbeddingChunkOverlap
  let embeddingMaxBatchSize ← loadInteger env usize embeddingMaxBatchSizeEnv "an integer"
    defaultEmbeddingMaxBatchSize
  let embeddingWorkerCount ← loadInteger env usize embeddingWorkerCountEnv "an integer"
    defaultWorkerCount
  let embeddingProvider ← loadEmbeddingProvider env
  validateEmbeddingSettings embeddingDimensions embeddingChunkSize embeddingChunkOverlap
    embeddingMaxBatchSize embeddingWorkerCount databasePoolSize
  pure
    { dataDir, dataDisplayDir, databasePoolSize, resourceDir, resourceDisplayDir, bindHost, bindPort,
      embeddingModel, embeddingDimensions, embeddingChunkSize, embeddingChunkOverlap,
      embeddingMaxBatchSize, embeddingWorkerCount, embeddingProvider }

end Ask
