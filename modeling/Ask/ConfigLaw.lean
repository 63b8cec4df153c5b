/-
  Which configurations are loaded, and from which environments.
-/
import Ask.Config
import Mathlib.Data.List.TakeWhile

namespace Ask

open Lib

variable {env : Environment} {ty : Decimal.IntType} {name kind text raw : String} {default z : ℤ}
  {c : Config} {provider : EmbeddingProvider}

/-! ## What is accepted -/

/-- A text with something in it other than white space. -/
def Filled (text : String) : Prop := ∃ ch ∈ text.toList, isWhiteSpace ch = false

/-- The number that the variable denotes, or the default where it cannot be read. -/
def ReadAs (env : Environment) (ty : Decimal.IntType) (name : String) (default z : ℤ) : Prop :=
  match env name with
  | .ok raw => Decimal.Denotes ty raw z
  | .error _ => z = default

/-- The provider that an environment names. -/
inductive Provides (env : Environment) : EmbeddingProvider → Prop
  | tei : varOr env embeddingModeEnv "tei" = "tei" → Filled (varOr env embeddingBaseUrlEnv defaultTeiBaseUrl) →
      Provides env (.tei (varOr env embeddingBaseUrlEnv defaultTeiBaseUrl))
  | openAi {baseUrl authToken : String} : env embeddingModeEnv = .ok "openai" →
      env embeddingBaseUrlEnv = .ok baseUrl → Filled baseUrl →
      env embeddingAuthTokenEnv = .ok authToken → Filled authToken → Provides env (.openAi baseUrl authToken)

/-- The numbers make sense together. -/
structure Config.Sound (c : Config) : Prop where
  dimensions : 0 < c.embeddingDimensions
  chunkSize : 0 < c.embeddingChunkSize
  chunkOverlap : 0 ≤ c.embeddingChunkOverlap
  overlap_lt : c.embeddingChunkOverlap < c.embeddingChunkSize
  maxBatchSize : 0 < c.embeddingMaxBatchSize
  poolSize : 0 < c.databasePoolSize

/-- The environment is one for this configuration. -/
structure Accepts (env : Environment) (c : Config) : Prop where
  dataDir : c.dataDir = varOr env dataDirEnv defaultDataDir
  dataDisplayDir : c.dataDisplayDir = varOr env dataDisplayDirEnv c.dataDir
  databasePoolSize : ReadAs env usize databasePoolSizeEnv defaultDatabasePoolSize c.databasePoolSize
  resourceDir : c.resourceDir = varOr env resourceDirEnv defaultResourceDir
  resourceDisplayDir : c.resourceDisplayDir = varOr env resourceDisplayDirEnv c.resourceDir
  bindHost : c.bindHost = varOr env bindHostEnv defaultBindHost
  bindPort : ReadAs env u16 bindPortEnv defaultBindPort c.bindPort
  embeddingModel : env embeddingModelEnv = .ok c.embeddingModel
  filled : Filled c.embeddingModel
  embeddingDimensions : ReadAs env i64 embeddingDimensionsEnv defaultEmbeddingDimensions c.embeddingDimensions
  embeddingChunkSize : ReadAs env i64 embeddingChunkSizeEnv defaultEmbeddingChunkSize c.embeddingChunkSize
  embeddingChunkOverlap :
    ReadAs env i64 embeddingChunkOverlapEnv defaultEmbeddingChunkOverlap c.embeddingChunkOverlap
  embeddingMaxBatchSize :
    ReadAs env usize embeddingMaxBatchSizeEnv defaultEmbeddingMaxBatchSize c.embeddingMaxBatchSize
  embeddingWorkerCount : ReadAs env usize embeddingWorkerCountEnv defaultWorkerCount c.embeddingWorkerCount
  embeddingProvider : Provides env c.embeddingProvider
  sound : c.Sound

/-! ## Single variables -/

theorem trimText_ne_empty : trimText text ≠ "" ↔ Filled text := by
  have htrim : trimText text = "" ↔ ∀ ch ∈ text.toList, isWhiteSpace ch = true := by
    unfold trimText trimEndMatches
    rw [String.toList_ofList, ← String.toList_inj, String.toList_ofList]
    simp only [String.toList_empty, List.reverse_eq_nil_iff, List.dropWhile_eq_nil_iff, List.mem_reverse]
    constructor
    · intro h
      rw [← List.dropWhile_eq_nil_iff]
      by_contra hne
      -- what is left starts with a character that is none
      have hhead := List.head_dropWhile_not isWhiteSpace hne
      rw [h _ (List.head_mem hne)] at hhead
      cases hhead
    · exact fun h ch hch => h ch ((List.dropWhile_sublist isWhiteSpace).subset hch)
  rw [Ne, htrim, Filled]
  simp

theorem ensure_eq_ok {p : Prop} [Decidable p] {u : Unit} : ensure p text = .ok u ↔ p := by
  unfold ensure
  split_ifs with h <;> simp [h]

theorem required_eq_ok : required env name text = .ok raw ↔ env name = .ok raw := mapError_eq_ok

theorem loadInteger_eq_ok : loadInteger env ty name kind default = .ok z ↔ ReadAs env ty name default z := by
  unfold loadInteger ReadAs
  cases env name with
  | ok raw => simp [mapError_eq_ok, Decimal.parse_eq_ok]
  | error e => simp [eq_comm]

theorem varOr_eq (h : raw ≠ text) : varOr env name text = raw ↔ env name = .ok raw := by
  unfold varOr
  cases env name with
  | ok raw' => simp
  | error e => simp [h.symm]

theorem loadEmbeddingProvider_eq_ok : loadEmbeddingProvider env = .ok provider ↔ Provides env provider := by
  have hmode : varOr env embeddingModeEnv "tei" = "openai" ↔ env embeddingModeEnv = .ok "openai" :=
    varOr_eq (by decide)
  unfold loadEmbeddingProvider
  dsimp only
  split_ifs with htei hopen
  · simp only [bind_eq_ok, ensure_eq_ok, trimText_ne_empty, pure, Except.pure, Except.ok.injEq]
    constructor
    · rintro ⟨-, hfilled, rfl⟩
      exact .tei htei hfilled
    · intro h
      cases h with
      | tei _ hfilled => exact ⟨(), hfilled, rfl⟩
      | openAi hmode' => exact absurd ((hmode.2 hmode').symm.trans htei) (by decide)
  · simp only [bind_eq_ok, ensure_eq_ok, required_eq_ok, trimText_ne_empty, pure, Except.pure,
      Except.ok.injEq]
    constructor
    · rintro ⟨baseUrl, hbase, -, hfilled, authToken, htoken, -, hfilled', rfl⟩
      exact .openAi (hmode.1 hopen) hbase hfilled htoken hfilled'
    · intro h
      cases h with
      | tei htei' => exact absurd htei' htei
      | openAi _ hbase hfilled htoken hfilled' =>
        exact ⟨_, hbase, (), hfilled, _, htoken, (), hfilled', rfl⟩
  · refine iff_of_false (by simp) ?_
    intro h
    cases h with
    | tei htei' => exact htei htei'
    | openAi hmode' => exact hopen (hmode.2 hmode')

theorem validateEmbeddingSettings_eq_ok {dimensions chunkSize chunkOverlap maxBatchSize workerCount
    poolSize : ℤ} {u : Unit} :
    validateEmbeddingSettings dimensions chunkSize chunkOverlap maxBatchSize workerCount poolSize = .ok u ↔
      0 < dimensions ∧ 0 < chunkSize ∧ 0 ≤ chunkOverlap ∧ chunkOverlap < chunkSize ∧ 0 < maxBatchSize ∧
        0 < poolSize := by
  unfold validateEmbeddingSettings
  simp [bind_eq_ok, ensure_eq_ok]

/-- What is loaded from which environment: an absent or unreadable variable has its default, a number is
    read iff its text denotes one of the type, and the settings fit together. -/
theorem loadConfig_eq_ok : loadConfig env = .ok c ↔ Accepts env c := by
  unfold loadConfig
  simp only [bind_eq_ok, ensure_eq_ok, required_eq_ok, loadInteger_eq_ok, loadEmbeddingProvider_eq_ok,
    validateEmbeddingSettings_eq_ok, trimText_ne_empty, pure, Except.pure, Except.ok.injEq]
  constructor
  · rintro ⟨poolSize, hpool, port, hport, model, hmodel, -, hfilled, dimensions, hdim, chunkSize, hsize,
      chunkOverlap, hoverlap, maxBatchSize, hbatch, workerCount, hworkers, provider, hprovider, -,
      ⟨h1, h2, h3, h4, h5, h6⟩, rfl⟩
    exact ⟨rfl, rfl, hpool, rfl, rfl, rfl, hport, hmodel, hfilled, hdim, hsize, hoverlap, hbatch, hworkers,
      hprovider, h1, h2, h3, h4, h5, h6⟩
  · intro h
    obtain ⟨h1, h2, h3, h4, h5, h6⟩ := h.sound
    refine ⟨_, h.databasePoolSize, _, h.bindPort, _, h.embeddingModel, (), h.filled, _,
      h.embeddingDimensions, _, h.embeddingChunkSize, _, h.embeddingChunkOverlap, _,
      h.embeddingMaxBatchSize, _, h.embeddingWorkerCount, _, h.embeddingProvider, (),
      ⟨h1, h2, h3, h4, h5, h6⟩, ?_⟩
    have hdata := h.dataDir
    have hresource := h.resourceDir
    obtain ⟨-, hdisplay, -, -, hdisplay', hhost⟩ := h
    cases c
    simp_all

/-! ## Every valid configuration is loaded -/

/-- What an accepted configuration is like, whatever it was loaded from. -/
structure Config.Valid (c : Config) : Prop where
  databasePoolSize : usize.Has c.databasePoolSize
  bindPort : u16.Has c.bindPort
  embeddingModel : Filled c.embeddingModel
  embeddingDimensions : i64.Has c.embeddingDimensions
  embeddingChunkSize : i64.Has c.embeddingChunkSize
  embeddingChunkOverlap : i64.Has c.embeddingChunkOverlap
  embeddingMaxBatchSize : usize.Has c.embeddingMaxBatchSize
  embeddingWorkerCount : usize.Has c.embeddingWorkerCount
  embeddingProvider : match c.embeddingProvider with
    | .tei baseUrl => Filled baseUrl
    | .openAi baseUrl authToken => Filled baseUrl ∧ Filled authToken
  sound : c.Sound

/-- The variables that spell the configuration out. -/
def Config.settings (c : Config) : List (String × String) :=
  [(dataDirEnv, c.dataDir), (dataDisplayDirEnv, c.dataDisplayDir),
    (databasePoolSizeEnv, toString c.databasePoolSize), (resourceDirEnv, c.resourceDir),
    (resourceDisplayDirEnv, c.resourceDisplayDir), (bindHostEnv, c.bindHost),
    (bindPortEnv, toString c.bindPort), (embeddingModelEnv, c.embeddingModel),
    (embeddingDimensionsEnv, toString c.embeddingDimensions),
    (embeddingChunkSizeEnv, toString c.embeddingChunkSize),
    (embeddingChunkOverlapEnv, toString c.embeddingChunkOverlap),
    (embeddingMaxBatchSizeEnv, toString c.embeddingMaxBatchSize),
    (embeddingWorkerCountEnv, toString c.embeddingWorkerCount),
    (embeddingModeEnv, c.embeddingProvider.modeName),
    (embeddingBaseUrlEnv, c.embeddingProvider.baseUrl)] ++
  match c.embeddingProvider with
  | .tei _ => []
  | .openAi _ authToken => [(embeddingAuthTokenEnv, authToken)]

/-- An environment that loads as this configuration. -/
def Config.environment (c : Config) : Environment := fun name =>
  match c.settings.lookup name with
  | some value => .ok value
  | none => .error .notPresent

/-- A default is a number of its type. -/
theorem ReadAs.has (h : ReadAs env ty name default z) (hdefault : ty.Has default) : ty.Has z := by
  unfold ReadAs at h
  split at h
  · obtain ⟨_, _, -, -, -, hhas, -⟩ := h
    exact hhas
  · rwa [h]

theorem setting_toString (h : ty.Has z) (henv : env name = .ok (toString z)) :
    ReadAs env ty name default z := by
  unfold ReadAs
  rw [henv]
  exact Decimal.denotes_toString h

theorem Accepts.valid (h : Accepts env c) : c.Valid where
  databasePoolSize := h.databasePoolSize.has (by decide)
  bindPort := h.bindPort.has (by decide)
  embeddingModel := h.filled
  embeddingDimensions := h.embeddingDimensions.has (by decide)
  embeddingChunkSize := h.embeddingChunkSize.has (by decide)
  embeddingChunkOverlap := h.embeddingChunkOverlap.has (by decide)
  embeddingMaxBatchSize := h.embeddingMaxBatchSize.has (by decide)
  embeddingWorkerCount := h.embeddingWorkerCount.has (by decide)
  embeddingProvider := by
    have hprovider := h.embeddingProvider
    cases hc : c.embeddingProvider with
    | tei baseUrl =>
      rw [hc] at hprovider
      cases hprovider with
      | tei _ hfilled => exact hfilled
    | openAi baseUrl authToken =>
      rw [hc] at hprovider
      cases hprovider with
      | openAi _ _ hfilled _ hfilled' => exact ⟨hfilled, hfilled'⟩
  sound := h.sound

theorem Config.Valid.accepts (h : c.Valid) : Accepts c.environment c := by
  have hvar : ∀ name value, c.settings.lookup name = some value → c.environment name = .ok value := by
    intro name value hlookup
    rw [Config.environment, hlookup]
  have hor : ∀ name value default, c.settings.lookup name = some value →
      varOr c.environment name default = value := by
    intro name value default hlookup
    rw [varOr, hvar name value hlookup]
  refine
    { dataDir := (hor _ _ _ rfl).symm
      dataDisplayDir := (hor _ _ _ rfl).symm
      databasePoolSize := setting_toString h.databasePoolSize (hvar _ _ rfl)
      resourceDir := (hor _ _ _ rfl).symm
      resourceDisplayDir := (hor _ _ _ rfl).symm
      bindHost := (hor _ _ _ rfl).symm
      bindPort := setting_toString h.bindPort (hvar _ _ rfl)
      embeddingModel := hvar _ _ rfl
      filled := h.embeddingModel
      embeddingDimensions := setting_toString h.embeddingDimensions (hvar _ _ rfl)
      embeddingChunkSize := setting_toString h.embeddingChunkSize (hvar _ _ rfl)
      embeddingChunkOverlap := setting_toString h.embeddingChunkOverlap (hvar _ _ rfl)
      embeddingMaxBatchSize := setting_toString h.embeddingMaxBatchSize (hvar _ _ rfl)
      embeddingWorkerCount := setting_toString h.embeddingWorkerCount (hvar _ _ rfl)
      embeddingProvider := ?_
      sound := h.sound }
  have hmode := hvar embeddingModeEnv c.embeddingProvider.modeName rfl
  have hbase := hvar embeddingBaseUrlEnv c.embeddingProvider.baseUrl rfl
  have hprovider := h.embeddingProvider
  rcases hc : c.embeddingProvider with baseUrl | ⟨baseUrl, authToken⟩ <;> rw [hc] at hmode hbase hprovider
  · have hurl : varOr c.environment embeddingBaseUrlEnv defaultTeiBaseUrl = baseUrl := by
      rw [varOr, hbase]
      rfl
    have htei : Provides c.environment (.tei (varOr c.environment embeddingBaseUrlEnv defaultTeiBaseUrl)) := by
      refine .tei ?_ ?_
      · rw [varOr, hmode]
        rfl
      · rw [hurl]
        exact hprovider
    rwa [hurl] at htei
  · refine .openAi hmode hbase hprovider.1 (hvar _ _ ?_) hprovider.2
    rw [settings, hc]
    rfl

/-! ## Errors -/

/-- All variables that are read. -/
def variableNames : List String :=
  [dataDirEnv, dataDisplayDirEnv, databasePoolSizeEnv, resourceDirEnv, resourceDisplayDirEnv, bindHostEnv,
    bindPortEnv, embeddingModelEnv, embeddingDimensionsEnv, embeddingChunkSizeEnv, embeddingChunkOverlapEnv,
    embeddingMaxBatchSizeEnv, embeddingWorkerCountEnv, embeddingModeEnv, embeddingBaseUrlEnv,
    embeddingAuthTokenEnv]

/-- An error, if it is one, says the name of a variable. -/
def NamesVariable {α : Type} (x : Except AnyError α) : Prop :=
  ∀ err, x = .error err → ∃ name ∈ variableNames, name.toList <:+: err.display.toList

theorem namesVariable_ok {α : Type} {a : α} : NamesVariable (.ok a) := fun _ h => by cases h

theorem namesVariable_error {α : Type} {err : AnyError} (hname : name ∈ variableNames)
    (h : name.toList <:+: err.display.toList) : NamesVariable (.error err : Except _ α) := by
  rintro _ ⟨⟩
  exact ⟨name, hname, h⟩

theorem NamesVariable.bind {α β : Type} {x : Except AnyError α} {f : α → Except AnyError β}
    (hx : NamesVariable x) (hf : ∀ a, NamesVariable (f a)) : NamesVariable (x >>= f) := by
  cases x with
  | ok a => exact hf a
  | error err =>
    rintro _ ⟨⟩
    exact hx err rfl

theorem namesVariable_ensure {p : Prop} [Decidable p] (hname : name ∈ variableNames)
    (h : name.toList <+: text.toList) : NamesVariable (ensure p text) := by
  unfold ensure
  split_ifs
  · exact namesVariable_ok
  · exact namesVariable_error hname h.isInfix

theorem namesVariable_required (hname : name ∈ variableNames) (h : name.toList <+: text.toList) :
    NamesVariable (required env name text) := by
  unfold required
  cases env name with
  | ok raw => exact namesVariable_ok
  | error e => exact namesVariable_error hname h.isInfix

theorem namesVariable_loadInteger (hname : name ∈ variableNames) :
    NamesVariable (loadInteger env ty name kind default) := by
  unfold loadInteger
  cases env name with
  | error e => exact namesVariable_ok
  | ok raw =>
    dsimp only
    cases Decimal.parse ty raw with
    | ok z => exact namesVariable_ok
    | error e =>
      refine namesVariable_error hname ?_
      exact ⟨"failed to parse ".toList, (" value '" ++ raw ++ "' as " ++ kind).toList,
        by simp [AnyError.display]⟩

theorem namesVariable_loadEmbeddingProvider (env : Environment) : NamesVariable (loadEmbeddingProvider env) := by
  have hbase : embeddingBaseUrlEnv ∈ variableNames := by decide
  have htoken : embeddingAuthTokenEnv ∈ variableNames := by decide
  have hmode : embeddingModeEnv ∈ variableNames := by decide
  unfold loadEmbeddingProvider
  dsimp only
  split_ifs
  · exact (namesVariable_ensure hbase (by simp)).bind fun _ => namesVariable_ok
  · refine (namesVariable_required hbase (by simp)).bind fun _ => ?_
    refine (namesVariable_ensure hbase (by simp)).bind fun _ => ?_
    refine (namesVariable_required htoken (by simp)).bind fun _ => ?_
    exact (namesVariable_ensure htoken (by simp)).bind fun _ => namesVariable_ok
  · refine namesVariable_error hmode (List.IsPrefix.isInfix ?_)
    simp [AnyError.display]

theorem namesVariable_validate {dimensions chunkSize chunkOverlap maxBatchSize workerCount poolSize : ℤ} :
    NamesVariable (validateEmbeddingSettings dimensions chunkSize chunkOverlap maxBatchSize workerCount
      poolSize) := by
  unfold validateEmbeddingSettings
  refine (namesVariable_ensure (show embeddingDimensionsEnv ∈ variableNames by decide) (by simp)).bind fun _ => ?_
  refine (namesVariable_ensure (show embeddingChunkSizeEnv ∈ variableNames by decide) (by simp)).bind fun _ => ?_
  refine (namesVariable_ensure (show embeddingChunkOverlapEnv ∈ variableNames by decide) (by simp)).bind fun _ => ?_
  refine (namesVariable_ensure (show embeddingChunkOverlapEnv ∈ variableNames by decide) (by simp)).bind fun _ => ?_
  refine (namesVariable_ensure (show embeddingMaxBatchSizeEnv ∈ variableNames by decide) (by simp)).bind fun _ => ?_
  exact namesVariable_ensure (show databasePoolSizeEnv ∈ variableNames by decide) (by simp)

theorem namesVariable_loadConfig (env : Environment) : NamesVariable (loadConfig env) := by
  have hmodel : embeddingModelEnv ∈ variableNames := by decide
  unfold loadConfig
  refine (namesVariable_loadInteger (by decide)).bind fun _ => ?_
  refine (namesVariable_loadInteger (by decide)).bind fun _ => ?_
  refine (namesVariable_required hmodel (by simp)).bind fun _ => ?_
  refine (namesVariable_ensure hmodel (by simp)).bind fun _ => ?_
  refine (namesVariable_loadInteger (by decide)).bind fun _ => ?_
  refine (namesVariable_loadInteger (by decide)).bind fun _ => ?_
  refine (namesVariable_loadInteger (by decide)).bind fun _ => ?_
  refine (namesVariable_loadInteger (by decide)).bind fun _ => ?_
  refine (namesVariable_loadInteger (by decide)).bind fun _ => ?_
  refine (namesVariable_loadEmbeddingProvider env).bind fun _ => ?_
  exact namesVariable_validate.bind fun _ => namesVariable_ok

/-- **Loading a configuration**: an environment gives the configuration that its variables denote, with the
    defaults of those that are absent, and an error names a variable; the valid configurations are those
    that some environment gives, and each is given by the variables that spell it out. -/
theorem configs_loaded (c : Config) :
    (∀ env, loadConfig env = .ok c ↔ Accepts env c) ∧ (∀ env, NamesVariable (loadConfig env)) ∧
      ((∃ env, loadConfig env = .ok c) ↔ c.Valid) ∧ (loadConfig c.environment = .ok c ↔ c.Valid) := by
  have hvalid : ∀ env, loadConfig env = .ok c → c.Valid := fun env h => (loadConfig_eq_ok.1 h).valid
  have hload : c.Valid → loadConfig c.environment = .ok c := fun h => loadConfig_eq_ok.2 h.accepts
  refine ⟨fun _ => loadConfig_eq_ok, namesVariable_loadConfig, ⟨?_, fun h => ⟨_, hload h⟩⟩, hvalid _, hload⟩
  rintro ⟨env, h⟩
  exact hvalid env h

end Ask
