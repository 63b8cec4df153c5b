/-
  The server starts on every database it has left behind, and starting it again
  changes nothing but claims that ran out.
-/
import Ask.Boot
import Ask.ConfigLaw
import Ask.Reliable
import Ask.SeedLaw
import Ask.Server

namespace Ask

open Lib

variable {E : Env} {view : View} {identity : EmbeddingIdentity} {s s' s'' t : Store} {model : EmbeddingModel}
  {now : ℤ} {n : ℕ} {m : Machine} {c : Config} {serving : Serving} {state : StartupEmbeddingState}

@[simp] theorem ok_given {α : Type} {x : Except AnyError α} {a : α} :
    (given x).Ok s a s' ↔ x = .ok a ∧ s = s' := Tx.ok_query

/-! ## The startup succeeds -/

theorem succeeds_insertModel (h : ∀ m ∈ s.models.rows, m.identity ≠ identity) :
    Tx.Succeeds (insertModel identity now) s := by
  refine Tx.succeeds_mapError ?_
  cases hins : s.models.insert fun id =>
      ⟨id, identity.name, identity.dimensions, identity.chunkSize, identity.chunkOverlap, now⟩ with
  | some models => exact ⟨models.seq, { s with models := models }, by rw [Tx.ok_exec, hins]⟩
  | none =>
    obtain ⟨m, hm, hidentity⟩ := AutoTable.insert_eq_none.1 hins
    exact absurd hidentity (h m hm)

theorem succeeds_backfill (hmodel : model ∈ s.models.rows) :
    Tx.Succeeds (backfillPendingForModel E view model now) s := by
  have hlist : listDocuments.Ok s (s.documents.rows.insertionSort fun a b => a.filepath ≤ b.filepath) s :=
    Tx.ok_query.2 ⟨rfl, rfl⟩
  refine Tx.succeeds_bind ⟨_, _, hlist⟩ fun docs s₁ hok => ?_
  obtain ⟨rfl, rfl⟩ := hlist.unique hok
  refine Tx.succeeds_bind ?_ fun _ s₁ _ =>
    Tx.succeeds_bind (succeeds_seedEmbedJobs s₁) fun _ _ _ => Tx.succeeds_pure
  refine Tx.succeeds_each (I := fun t => t.documents = s.documents ∧ t.models = s.models) ?_ ⟨rfl, rfl⟩
  intro doc hdoc t ht
  have hpair : t.hasPair doc.id model.id = true := by
    refine hasPair_iff.2 ⟨⟨doc, ?_, rfl⟩, model, ht.2 ▸ hmodel, rfl⟩
    rw [ht.1]
    exact (List.mem_insertionSort _).1 hdoc
  refine ⟨Tx.succeeds_mapError (Tx.succeeds_mapError (succeeds_insertPendingEmbeddings hpair)), ?_⟩
  intro t' hok
  obtain ⟨-, e, -, rfl⟩ := ok_queuePendingEmbeddingsForDocument (Db.ok_context.1 hok)
  exact ht

theorem succeeds_resolveModel (s : Store) : Tx.Succeeds (resolveModel E view identity now) s := by
  have hfind : (findModelByIdentity identity).Ok s
      (s.models.rows.find? fun m => m.identity = identity) s := Tx.ok_query.2 ⟨rfl, rfl⟩
  refine Tx.succeeds_bind ⟨_, _, hfind⟩ fun found s₁ hok => ?_
  obtain ⟨rfl, rfl⟩ := hfind.unique hok
  cases hfound : s.models.rows.find? fun m => m.identity = identity with
  | some model => exact Tx.succeeds_pure
  | none =>
    have hnew : ∀ m ∈ s.models.rows, m.identity ≠ identity := by
      intro m hm hid
      have := List.find?_eq_none.1 hfound m hm
      simp [hid] at this
    refine Tx.succeeds_bind (succeeds_insertModel hnew) fun id s₁ hok => ?_
    obtain ⟨models, rfl, -, hrows⟩ := ok_insertModel hok
    refine Tx.succeeds_bind (succeeds_backfill ?_) fun _ _ _ => Tx.succeeds_pure
    rw [hrows]
    simp

theorem succeeds_reconcile (s : Store) : Tx.Succeeds (reconcileEmbeddingStartup E view identity now) s :=
  Tx.succeeds_bind (succeeds_resolveModel s) fun _ s₁ _ =>
    Tx.succeeds_bind (succeeds_seedEmbedJobs s₁) fun _ s₂ _ =>
      Tx.succeeds_bind ⟨_, s₂, Tx.ok_query.2 ⟨rfl, rfl⟩⟩ fun _ s₃ _ =>
        Tx.succeeds_bind ⟨_, s₃, Tx.ok_query.2 ⟨rfl, rfl⟩⟩ fun _ _ _ => Tx.succeeds_pure

/-- The embedded rows of a model have vectors of its dimensions. -/
theorem WellFormed.sized (hs : WellFormed s) (hmodel : model ∈ s.models.rows) (hdim : 0 < model.dimensions)
    {r : DocumentEmbedding} (hr : r ∈ s.embeddings.rows) (hid : r.modelId = model.id)
    (hst : r.state = .embedded) : ∃ v, r.embedding = some v ∧ v.length = 4 * model.dimensions.toNat := by
  obtain ⟨m, hm, hmid, v, hv, hlen⟩ := (hs.sound r hr).embedded hst
  obtain rfl := AutoTable.eq_of_key hm hmodel (hmid.trans hid)
  exact ⟨v, hv, by omega⟩

theorem succeeds_backfillActiveSearchModel (hs : WellFormed s) (hmodel : model ∈ s.models.rows)
    (hdim : 0 < model.dimensions) (hvec : s.vec = some (.empty model.dimensions.toNat)) :
    Tx.Succeeds (backfillActiveSearchModel model) s := by
  unfold backfillActiveSearchModel
  rw [if_neg (by omega)]
  refine Tx.succeeds_bind ⟨_, _, Tx.ok_query.2 ⟨rfl, rfl⟩⟩ fun invalidRows s₁ h1 => ?_
  obtain ⟨hcount, rfl⟩ := Tx.ok_query.1 h1
  rw [Except.ok.injEq] at hcount
  have hzero : invalidRows = 0 := by
    rw [← hcount, List.countP_eq_zero]
    intro r hr hbad
    simp only [DocumentEmbedding.searchable, Bool.and_eq_true, decide_eq_true_eq] at hbad
    obtain ⟨⟨⟨hid, hst⟩, -⟩, hlen⟩ := hbad
    obtain ⟨v, hv, hsized⟩ := hs.sized hmodel hdim hr hid hst
    rw [hv, Option.map_some, Ne, Option.some.injEq] at hlen
    omega
  rw [if_neg (not_not.2 hzero)]
  refine Tx.succeeds_bind (Tx.succeeds_mapError (succeeds_putVecRows ?_)) fun _ s₂ _ =>
    ⟨_, s₂, Tx.ok_query.2 ⟨rfl, rfl⟩⟩
  intro v hv x hx
  rw [hvec] at hv
  cases hv
  obtain ⟨r, hr, -, hid, hst, hv⟩ := mem_embeddedVectors.1 hx
  obtain ⟨v, hv', hlen⟩ := hs.sized hmodel hdim hr (of_decide_eq_true hid) hst
  rw [hv] at hv'
  cases hv'
  exact hlen

theorem succeeds_ensureActiveSearchModel (hs : WellFormed s) (hmodel : model ∈ s.models.rows)
    (hdim : 0 < model.dimensions) : Tx.Succeeds (ensureActiveSearchModel model now) s := by
  refine Tx.succeeds_bind ⟨_, _, Tx.ok_query.2 ⟨rfl, rfl⟩⟩ fun needsRebuild s₁ h => ?_
  obtain ⟨rfl, -⟩ := ok_activeIndexRequiresRebuild h
  split_ifs with hcurrent hneg hzero
  · exact Tx.succeeds_pure
  · omega
  · omega
  · refine Tx.succeeds_bind succeeds_exec_ok fun _ s₁ h1 => ?_
    obtain rfl := ok_exec_ok.1 h1
    refine Tx.succeeds_bind succeeds_exec_ok fun _ s₂ h2 => ?_
    obtain rfl := ok_exec_ok.1 h2
    have hget : (s.models.get? model.id).isSome = true := by
      rw [AutoTable.get?_eq_some.2 ⟨hmodel, rfl⟩]
      rfl
    refine Tx.succeeds_bind ⟨(), _, Tx.ok_exec.2 (if_pos hget)⟩ fun _ s₃ h3 => ?_
    obtain ⟨-, rfl⟩ := ok_recordActive h3
    refine succeeds_backfillActiveSearchModel ?_ hmodel hdim rfl
    refine { hs with indexed := ?_ }
    rintro v ⟨⟩ x hx
    exact absurd hx List.not_mem_nil

/-! ## What the startup leaves -/

/-- What a startup at `now` makes of the store. -/
structure Reconciled (now : ℤ) (s : Store) (model : EmbeddingModel) (s' : Store) : Prop where
  models : ∀ m, m ∈ s'.models.rows ↔ m ∈ s.models.rows ∨ m = model
  documents : s'.documents = s.documents
  kept : ∀ r ∈ s.embeddings.rows, r ∈ s'.embeddings.rows
  new : ∀ r ∈ s'.embeddings.rows, r ∈ s.embeddings.rows ∨
    r.modelId = model.id ∧ r.state = .pending ∧ r.embedding = none
  jobs : ∃ pairs, (∀ p, p ∈ pairs ↔ p ∈ s'.recoverablePairs) ∧ SeededWith pairs now s.jobs s'.jobs

/-- The rows of a model that is new are planned. -/
theorem reconciled_registerModel (hs : WellFormed s)
    (h : (registerModel E view identity now).Ok s (model, n) s') : Reconciled now s model s' := by
  unfold registerModel at h
  simp only [Tx.ok_bind] at h
  obtain ⟨id, s₁, h1, k, s₂, h2, h3⟩ := h
  obtain ⟨models, rfl, hid, hrows⟩ := ok_insertModel h1
  obtain ⟨hmodel, rfl⟩ := Tx.ok_pure.1 h3
  obtain ⟨rfl, -⟩ := Prod.mk.inj hmodel
  unfold backfillPendingForModel at h2
  simp only [Tx.ok_bind] at h2
  obtain ⟨docs, s₃, h4, _, s₄, h5, c, s₅, h6, h7⟩ := h2
  obtain ⟨-, rfl⟩ := Tx.ok_query.1 h4
  obtain ⟨q, rfl, hq⟩ := seededWith_seedEmbedJobs h6
  obtain ⟨-, rfl⟩ := Tx.ok_pure.1 h7
  -- no row is of the new model yet
  have hfresh : ∀ r ∈ s.embeddings.rows, r.modelId ≠ id := by
    intro r hr hm
    obtain ⟨-, m, hmem, hmid⟩ := hasPair_iff.1 (hs.foreignKeys r hr)
    have := s.models.le_seq m hmem
    omega
  obtain ⟨hdocs, hmodels, hjobs, hkept, hnew⟩ := Tx.ok_each_invariant
    (I := fun t : Store => t.documents = s.documents ∧ t.models = models ∧ t.jobs = s.jobs ∧
      (∀ r ∈ s.embeddings.rows, r ∈ t.embeddings.rows) ∧
      ∀ r ∈ t.embeddings.rows, r ∈ s.embeddings.rows ∨
        r.modelId = id ∧ r.state = .pending ∧ r.embedding = none) h5
    (fun doc _ t t' hok ht => by
      obtain ⟨-, e, he, rfl⟩ := ok_queuePendingEmbeddingsForDocument (Db.ok_context.1 hok)
      obtain ⟨hdocs, hmodels, hjobs, hkept, hnew⟩ := ht
      refine ⟨hdocs, hmodels, hjobs, fun r hr => ?_, fun r hr => ?_⟩
      · refine he.frame r (hkept r hr) fun c _ hkey => hfresh r hr ?_
        exact congrArg (fun key : Pair × ChunkType × ℤ => key.1.2) hkey
      · obtain ⟨hr, -⟩ | ⟨c, -, hrow, -⟩ := he.sound r hr
        · exact hnew r hr
        · refine .inr ?_
          rw [hrow]
          exact ⟨rfl, rfl, rfl⟩)
    ⟨rfl, rfl, rfl, fun _ hr => hr, fun _ hr => .inl hr⟩
  refine ⟨?_, hdocs, hkept, hnew, s₄.recoverablePairs, fun p => ?_, hjobs ▸ hq⟩
  · intro m
    show m ∈ s₄.models.rows ↔ _
    rw [hmodels, hrows, List.mem_append, List.mem_singleton]
  · exact Iff.rfl

theorem reconciled (hs : WellFormed s) (h : (reconcileEmbeddingStartup E view identity now).Ok s state s') :
    Reconciled now s state.model s' ∧ state.model.identity = identity := by
  unfold reconcileEmbeddingStartup at h
  simp only [Tx.ok_bind] at h
  obtain ⟨⟨model, n⟩, s₁, h1, k, s₂, h2, c, s₃, h3, d, s₄, h4, h5⟩ := h
  obtain ⟨q, rfl, hq⟩ := seededWith_seedEmbedJobs h2
  obtain ⟨-, rfl⟩ := Tx.ok_query.1 h3
  obtain ⟨-, rfl⟩ := Tx.ok_query.1 h4
  obtain ⟨rfl, rfl⟩ := Tx.ok_pure.1 h5
  obtain ⟨hmem, hid, rfl⟩ | ⟨-, hreg⟩ := ok_resolveModel h1
  · refine ⟨⟨fun m => ?_, rfl, fun _ h => h, fun _ h => .inl h, s₁.recoverablePairs, fun _ => Iff.rfl, hq⟩,
      hid⟩
    exact ⟨.inl, fun h => h.elim id fun h => h ▸ hmem⟩
  · have hrec := reconciled_registerModel hs hreg
    obtain ⟨models, s₂, q', -, hid, -⟩ := ok_registerModel hreg
    obtain ⟨pairs, hpairs, hseeded⟩ := hrec.jobs
    refine ⟨⟨hrec.models, hrec.documents, hrec.kept, hrec.new, pairs ++ s₁.recoverablePairs, ?_,
      hseeded.append hq⟩, hid⟩
    intro p
    show p ∈ pairs ++ s₁.recoverablePairs ↔ p ∈ s₁.recoverablePairs
    rw [List.mem_append, hpairs, or_self]

theorem WellFormed.reconciled (hs : WellFormed s)
    (h : (reconcileEmbeddingStartup E view identity now).Ok s state s') : WellFormed s' :=
  keeps_reconcile_wellFormed s s' hs (.inr ⟨_, h⟩)

/-- The table is there and recorded to be the model's. -/
def Current (model : EmbeddingModel) (s : Store) : Prop :=
  (∃ vec, s.vec = some vec) ∧
    s.searchState.map (fun state => (state.activeModelId, state.dimensions)) = some (model.id, model.dimensions)

theorem requiresRebuild_iff {b : Bool} (h : (activeIndexRequiresRebuild model).Ok s b s') :
    s = s' ∧ (b = false ↔ Current model s) := by
  obtain ⟨hb, rfl⟩ := Tx.ok_query.1 h
  refine ⟨rfl, ?_⟩
  cases hb
  rw [Bool.or_eq_false_iff, decide_eq_false_iff_not, not_not, Option.isNone_eq_false_iff,
    Option.isSome_iff_exists, Current]

theorem ok_backfillActiveSearchModel (h : (backfillActiveSearchModel model).Ok s n s') :
    s' = s ∨ ∃ vec, s' = { s with vec := some vec } := by
  unfold backfillActiveSearchModel at h
  split_ifs at h
  · exact absurd h Tx.ok_fail
  rw [Tx.ok_bind] at h
  obtain ⟨invalidRows, s₁, h1, h⟩ := h
  obtain ⟨-, rfl⟩ := Tx.ok_query.1 h1
  split_ifs at h
  · exact absurd h Tx.ok_fail
  rw [Tx.ok_bind] at h
  obtain ⟨_, s₂, h2, h3⟩ := h
  obtain ⟨-, rfl⟩ := Tx.ok_query.1 h3
  obtain rfl | ⟨v, v', -, -, rfl⟩ := ok_putVecRows (Db.ok_context.1 h2)
  · exact .inl rfl
  · exact .inr ⟨v', rfl⟩

/-- Only the index changes, to be the model's if it is not. -/
theorem current_of_ensureActive (h : (ensureActiveSearchModel model now).Ok s n s') :
    Current model s' ∧ s' = { s with vec := s'.vec, searchState := s'.searchState } ∧
      (Current model s → s' = s) := by
  unfold ensureActiveSearchModel at h
  rw [Tx.ok_bind] at h
  obtain ⟨b, s₁, h1, h⟩ := h
  obtain ⟨rfl, hcurrent⟩ := requiresRebuild_iff h1
  cases b with
  | false =>
    obtain ⟨-, rfl⟩ := Tx.ok_pure.1 h
    exact ⟨hcurrent.1 rfl, rfl, fun _ => rfl⟩
  | true =>
    simp only [Bool.not_true, Bool.false_eq_true, if_false] at h
    split_ifs at h
    · exact absurd h Tx.ok_fail
    · exact absurd h Tx.ok_fail
    simp only [Tx.ok_bind] at h
    obtain ⟨_, s₁, h1, _, s₂, h2, _, s₃, h3, h⟩ := h
    obtain rfl := ok_exec_ok.1 h1
    obtain rfl := ok_exec_ok.1 h2
    obtain ⟨-, rfl⟩ := ok_recordActive h3
    have hnot : Current model s → s' = s := fun hc => absurd (hcurrent.2 hc) (by simp)
    obtain rfl | ⟨vec, rfl⟩ := ok_backfillActiveSearchModel h
    · exact ⟨⟨⟨_, rfl⟩, rfl⟩, rfl, hnot⟩
    · exact ⟨⟨⟨_, rfl⟩, rfl⟩, rfl, hnot⟩

/-! ## The machine's index -/

namespace Machine

theorem ok_ensureActive (h : (m.ensureActiveSearchModel model now).Ok s n s') :
    (Ask.ensureActiveSearchModel model now).Ok s n s' := by
  unfold ensureActiveSearchModel at h
  rw [Tx.ok_bind] at h
  obtain ⟨b, s₁, h1, h⟩ := h
  obtain ⟨rfl, -⟩ := ok_activeIndexRequiresRebuild h1
  split_ifs at h
  · rw [Tx.ok_bind] at h
    obtain ⟨_, s₂, -, h⟩ := h
    exact absurd h Tx.ok_fail
  · exact h

theorem succeeds_ensureActive (hdim : model.dimensions ≤ m.maxDimensions)
    (h : Tx.Succeeds (Ask.ensureActiveSearchModel model now) s) :
    Tx.Succeeds (m.ensureActiveSearchModel model now) s := by
  refine Tx.succeeds_bind ⟨_, _, Tx.ok_query.2 ⟨rfl, rfl⟩⟩ fun b s₁ h1 => ?_
  obtain ⟨rfl, -⟩ := ok_activeIndexRequiresRebuild h1
  rwa [if_neg fun hwide => by omega]

/-- A refused table leaves the store as a call that is interrupted after dropping the old one. -/
theorem leaves_ensureActive (h : (m.ensureActiveSearchModel model now).Leaves s t) :
    (Ask.ensureActiveSearchModel model now).Leaves s t := by
  obtain h | ⟨b, s₁, h1, h⟩ := Tx.leaves_bind h
  · exact .inl (Tx.leaves_query h)
  obtain ⟨rfl, hcurrent⟩ := requiresRebuild_iff h1
  split_ifs at h with hwide
  · have hdropped : t = s ∨ t = { s with vec := none } := by
      obtain h | ⟨_, s₂, h2, h⟩ := Tx.leaves_bind h
      · obtain rfl | ⟨u, h⟩ := Tx.atomic_exec s t h
        · exact .inl rfl
        · exact .inr (ok_exec_ok.1 h)
      · obtain rfl | h | rfl := h
        · exact .inr (ok_exec_ok.1 h2)
        · exact absurd h Tx.commits_fail
        · exact .inr (ok_exec_ok.1 h2)
    obtain rfl | rfl := hdropped
    · exact .inl rfl
    · refine .inr (.inl (Tx.commits_bind.2 (.inr ⟨b, s, h1, ?_⟩)))
      rw [if_neg (by simp [hwide.1]), if_neg (by omega), if_neg (by omega), Tx.commits_bind]
      exact .inl (Tx.commits_exec.2 ⟨(), ok_exec_ok.2 rfl⟩)
  · exact h

/-- What the configuration asks of the machine. -/
structure Ready (m : Machine) (c : Config) : Prop where
  poolSize : c.databasePoolSize < 2 ^ 32
  database : m.openDatabase c.sqlitePath c.databasePoolSize.toNat = .ok ()
  clock : ∃ now, m.clock = .ok now
  dimensions : c.embeddingDimensions ≤ m.maxDimensions
  listener : m.bind c.bindAddress = .ok ()
  resourceRoot : ∃ path, m.canonicalize c.resourceDir = .ok path
  dataRoot : ∃ path, m.canonicalize c.dataDir = .ok path

end Machine

theorem Machine.Ready.exists_appState (h : m.Ready c) : ∃ app, AppState.newWithDisplayDirs m.canonicalize
    c.resourceDir c.dataDir c.resourceDisplayDir c.dataDisplayDir = .ok app := by
  obtain ⟨resourceRoot, hresource⟩ := h.resourceRoot
  obtain ⟨dataRoot, hdata⟩ := h.dataRoot
  unfold AppState.newWithDisplayDirs
  rw [hresource, hdata]
  exact ⟨_, rfl⟩

/-! ## A boot -/

/-- What a boot at `now` makes of the store, and what it serves. -/
structure Booted (now : ℤ) (c : Config) (s : Store) (serving : Serving) (s' : Store) : Prop where
  config : serving.config = c
  poolSize : (serving.poolSize : ℤ) = c.databasePoolSize
  client : serving.client.provider = c.embeddingProvider ∧
    (serving.client.maxBatchSize : ℤ) = c.embeddingMaxBatchSize
  app : serving.app.embeddingClient = .http serving.client ∧ serving.app.runtimeConfig = .fromConfig c
  identity : serving.model.identity = c.embeddingIdentity
  chunks : 0 < serving.model.chunkSize ∧ 0 ≤ serving.model.chunkOverlap ∧
    serving.model.chunkOverlap < serving.model.chunkSize
  store : Reconciled now s serving.model s'
  current : Current serving.model s'
  queued : ∀ p ∈ s'.recoverablePairs, ∃! e, e ∈ s'.jobs.rows ∧ e.uniqueKey = embedJobKey p

theorem createPool_eq_ok {path : String} {size : ℤ} {k : ℕ} :
    m.createPoolWithMaxSize path size = .ok k ↔
      0 < size ∧ size < 2 ^ 32 ∧ m.openDatabase path size.toNat = .ok () ∧ k = size.toNat := by
  unfold Machine.createPoolWithMaxSize
  rw [bind_eq_ok]
  split_ifs with hsize
  · simp only [bind_eq_ok, ensure_eq_ok, pure, Except.pure, Except.ok.injEq]
    constructor
    · rintro ⟨_, hpos, _, hopen, rfl⟩
      exact ⟨hpos, hsize, hopen, rfl⟩
    · rintro ⟨hpos, -, hopen, rfl⟩
      exact ⟨(), hpos, (), hopen, rfl⟩
  · refine iff_of_false ?_ fun h => hsize h.2.1
    rintro ⟨_, -, h⟩
    cases h

theorem succeeds_boot (hs : WellFormed s) (hload : loadConfig m.env = .ok c) (hready : m.Ready c) :
    Tx.Succeeds (boot E m) s := by
  have hsound : c.Sound := (loadConfig_eq_ok.1 hload).sound
  obtain ⟨now, hnow⟩ := hready.clock
  obtain ⟨app, happ⟩ := hready.exists_appState
  have given_ok : ∀ {α : Type} {x : Except AnyError α} {a : α} (t : Store), x = .ok a →
      Tx.Succeeds (given x) t := fun t h => ⟨_, t, ok_given.2 ⟨h, rfl⟩⟩
  refine Tx.succeeds_bind (given_ok s hload) fun c' s₁ h => ?_
  obtain ⟨hc, rfl⟩ := ok_given.1 h
  obtain rfl := Except.ok.inj (hload.symm.trans hc)
  refine Tx.succeeds_bind (given_ok s (createPool_eq_ok.2 ⟨hsound.poolSize, hready.poolSize, hready.database,
    rfl⟩)) fun poolSize s₁ h => ?_
  obtain ⟨-, rfl⟩ := ok_given.1 h
  refine Tx.succeeds_bind (given_ok s hnow) fun now' s₁ h => ?_
  obtain ⟨hnow', rfl⟩ := ok_given.1 h
  refine Tx.succeeds_bind (succeeds_reconcile s) fun state s₁ h => ?_
  obtain ⟨hrec, hid⟩ := reconciled hs h
  have hdim : state.model.dimensions = c.embeddingDimensions := congrArg EmbeddingIdentity.dimensions hid
  refine Tx.succeeds_bind (Machine.succeeds_ensureActive (hdim ▸ hready.dimensions)
    (succeeds_ensureActiveSearchModel (hs.reconciled h) ((hrec.models _).2 (.inr rfl))
      (hdim ▸ hsound.dimensions))) fun k s₂ h => ?_
  refine Tx.succeeds_bind (given_ok s₂ hready.listener) fun _ s₃ h => ?_
  refine Tx.succeeds_bind (given_ok s₃ (dif_pos ?_)) fun client s₄ h => ?_
  · have := hsound.maxBatchSize
    omega
  exact Tx.succeeds_bind (given_ok s₄ (mapError_eq_ok.2 happ)) fun _ _ _ => Tx.succeeds_pure

theorem new_eq_ok {provider : EmbeddingProvider} {k : ℕ} {client : HttpEmbeddingClient}
    (h : HttpEmbeddingClient.new provider k = .ok client) :
    client.provider = provider ∧ client.maxBatchSize = k := by
  unfold HttpEmbeddingClient.new at h
  split_ifs at h
  cases h
  exact ⟨rfl, rfl⟩

/-- A change of the index changes nothing of what a startup has made. -/
theorem Reconciled.indexed {vec : Option VecTable} {searchState : Option SearchState}
    (h : Reconciled now s model s') :
    Reconciled now s model { s' with vec := vec, searchState := searchState } :=
  ⟨h.models, h.documents, h.kept, h.new, h.jobs⟩

theorem Reconciled.queued (h : Reconciled now s model s') :
    ∀ p ∈ s'.recoverablePairs, ∃! e, e ∈ s'.jobs.rows ∧ e.uniqueKey = embedJobKey p := by
  obtain ⟨pairs, hpairs, hseeded⟩ := h.jobs
  exact fun p hp => hseeded.existsUnique ((hpairs p).2 hp)

theorem booted (hs : WellFormed s) (hload : loadConfig m.env = .ok c) (h : (boot E m).Ok s serving s') :
    ∃ now : ℕ, m.clock = .ok now ∧ Booted now c s serving s' ∧ WellFormed s' := by
  unfold boot at h
  simp only [Tx.ok_bind, ok_given] at h
  obtain ⟨_, _, ⟨hc, rfl⟩, poolSize, _, ⟨hpool, rfl⟩, now, _, ⟨hnow, rfl⟩, state, s₁, hstart, n, s₂, hindex,
    _, _, ⟨-, rfl⟩, client, _, ⟨hclient, rfl⟩, app, _, ⟨-, rfl⟩, hserving⟩ := h
  obtain rfl := Except.ok.inj (hload.symm.trans hc)
  obtain ⟨rfl, rfl⟩ := Tx.ok_pure.1 hserving
  have hsound : c.Sound := (loadConfig_eq_ok.1 hload).sound
  obtain ⟨hpos, -, -, rfl⟩ := createPool_eq_ok.1 hpool
  obtain ⟨hprovider, hmax⟩ := new_eq_ok hclient
  obtain ⟨hrec, hid⟩ := reconciled hs hstart
  have hindex := Machine.ok_ensureActive hindex
  obtain ⟨hcurrent, hframe, -⟩ := current_of_ensureActive hindex
  have hstore : Reconciled now s state.model s₂ := hframe ▸ hrec.indexed
  have hsize : state.model.chunkSize = c.embeddingChunkSize := congrArg EmbeddingIdentity.chunkSize hid
  have hoverlap : state.model.chunkOverlap = c.embeddingChunkOverlap :=
    congrArg EmbeddingIdentity.chunkOverlap hid
  refine ⟨now, hnow, ⟨rfl, Int.toNat_of_nonneg hpos.le, ⟨hprovider, ?_⟩, ⟨rfl, rfl⟩, hid, ?_, hstore, hcurrent,
    hstore.queued⟩, ?_⟩
  · rw [hmax]
    exact Int.toNat_of_nonneg hsound.maxBatchSize.le
  · dsimp only
    rw [hsize, hoverlap]
    exact ⟨hsound.chunkSize, hsound.chunkOverlap, hsound.overlap_lt⟩
  · exact keeps_activate s₁ s₂ (hs.reconciled hstart) (.inr ⟨_, hindex⟩)

/-- A boot, finished or not, makes calls of the store. -/
theorem calls_of_boot (h : (boot E m).Leaves s t) : ∃ tr, Run (StoreStep E) s tr t := by
  obtain h | ⟨c, s₁, h1, h⟩ := Tx.leaves_bind h
  · exact ⟨[], Tx.leaves_query h ▸ .nil _⟩
  obtain ⟨-, rfl⟩ := ok_given.1 h1
  obtain h | ⟨poolSize, s₁, h1, h⟩ := Tx.leaves_bind h
  · exact ⟨[], Tx.leaves_query h ▸ .nil _⟩
  obtain ⟨-, rfl⟩ := ok_given.1 h1
  obtain h | ⟨now, s₁, h1, h⟩ := Tx.leaves_bind h
  · exact ⟨[], Tx.leaves_query h ▸ .nil _⟩
  obtain ⟨-, rfl⟩ := ok_given.1 h1
  obtain h | ⟨state, s₁, hstart, h⟩ := Tx.leaves_bind h
  · exact ⟨[_], .cons (.reconcile h) (.nil _)⟩
  have hstart : StoreStep E s (.reconcile m.view c.embeddingIdentity now) s₁ :=
    .reconcile (.inr (.inr hstart.2))
  obtain h | ⟨n, s₂, hindex, h⟩ := Tx.leaves_bind h
  · exact ⟨[_, _], .cons hstart (.cons (.activate (Machine.leaves_ensureActive h)) (.nil _))⟩
  have hindex : StoreStep E s₁ (.activate state.model now) s₂ :=
    .activate (.inr (.inr (Machine.ok_ensureActive hindex).2))
  have hrest : t = s₂ := by
    obtain h | ⟨_, s₃, h1, h⟩ := Tx.leaves_bind h
    · exact Tx.leaves_query h
    obtain ⟨-, rfl⟩ := ok_given.1 h1
    obtain h | ⟨client, s₃, h1, h⟩ := Tx.leaves_bind h
    · exact Tx.leaves_query h
    obtain ⟨-, rfl⟩ := ok_given.1 h1
    obtain h | ⟨app, s₃, h1, h⟩ := Tx.leaves_bind h
    · exact Tx.leaves_query h
    obtain ⟨-, rfl⟩ := ok_given.1 h1
    obtain rfl | h | rfl := h
    · rfl
    · exact absurd h Tx.commits_pure
    · rfl
  rw [hrest]
  exact ⟨[_, _], .cons hstart (.cons hindex (.nil _))⟩

/-! ## Another boot -/

/-- Where every pair has its job, a pass only takes back claims that ran out. -/
theorem rows_seedEmbedJobs (h : (seedEmbedJobs now).Ok s n s')
    (hqueued : ∀ p ∈ s.recoverablePairs, ∃ e ∈ s.jobs.rows, e.uniqueKey = embedJobKey p) :
    s'.jobs.rows = s.jobs.rows.map (·.renewed s.recoverablePairs now) := by
  obtain ⟨added, hcounted⟩ := counted_seedEmbedJobs h
  have hnone : added = [] := by
    refine List.eq_nil_iff_forall_not_mem.2 fun e he => ?_
    obtain ⟨hlt, p, hp, hnew⟩ := hcounted.new e he
    obtain ⟨e₀, he₀, hkey⟩ := hqueued p hp
    have hmem : e ∈ s'.jobs.rows := by
      rw [hcounted.rows]
      exact List.mem_append_right _ he
    have hmem₀ : e₀.renewed s.recoverablePairs now ∈ s'.jobs.rows := by
      rw [hcounted.rows]
      exact List.mem_append_left _ (List.mem_map_of_mem he₀)
    have heq : e = e₀.renewed s.recoverablePairs now := by
      refine AutoTable.eq_of_index hmem hmem₀ ?_
      rw [JobQueueEntry.renewed_uniqueKey, hkey, hnew]
      rfl
    rw [heq, JobQueueEntry.renewed_id] at hlt
    exact absurd (s.jobs.le_seq e₀ he₀) (by omega)
  rw [hcounted.rows, hnone, List.append_nil]

theorem reconcile_again (hmodel : model ∈ s.models.rows) (hid : model.identity = identity)
    (h : (reconcileEmbeddingStartup E view identity now).Ok s state s') :
    state.model = model ∧ ∃ n, (seedEmbedJobs now).Ok s n s' := by
  unfold reconcileEmbeddingStartup at h
  simp only [Tx.ok_bind] at h
  obtain ⟨⟨model', n⟩, s₁, h1, k, s₂, h2, c, s₃, h3, d, s₄, h4, h5⟩ := h
  obtain ⟨-, rfl⟩ := Tx.ok_query.1 h3
  obtain ⟨-, rfl⟩ := Tx.ok_query.1 h4
  obtain ⟨rfl, rfl⟩ := Tx.ok_pure.1 h5
  obtain ⟨hmem, hid', rfl⟩ | ⟨hnew, -⟩ := ok_resolveModel h1
  · exact ⟨AutoTable.eq_of_index hmem hmodel (hid'.trans hid.symm), k, h2⟩
  · exact absurd hid (hnew model hmodel)

theorem boot_again (hmodel : model ∈ s.models.rows) (hid : model.identity = c.embeddingIdentity)
    (hcurrent : Current model s)
    (hqueued : ∀ p ∈ s.recoverablePairs, ∃ e ∈ s.jobs.rows, e.uniqueKey = embedJobKey p)
    (hload : loadConfig m.env = .ok c) (h : (boot E m).Ok s serving s') :
    serving.model = model ∧ ∃ now : ℕ, m.clock = .ok now ∧ s' = { s with jobs := s'.jobs } ∧
      s'.jobs.rows = s.jobs.rows.map (·.renewed s.recoverablePairs now) := by
  unfold boot at h
  simp only [Tx.ok_bind, ok_given] at h
  obtain ⟨_, _, ⟨hc, rfl⟩, poolSize, _, ⟨-, rfl⟩, now, _, ⟨hnow, rfl⟩, state, s₁, hstart, n, s₂, hindex,
    _, _, ⟨-, rfl⟩, client, _, ⟨-, rfl⟩, app, _, ⟨-, rfl⟩, hserving⟩ := h
  obtain rfl := Except.ok.inj (hload.symm.trans hc)
  obtain ⟨rfl, rfl⟩ := Tx.ok_pure.1 hserving
  obtain ⟨rfl, k, hseed⟩ := reconcile_again hmodel hid hstart
  obtain ⟨q, rfl, -⟩ := seededWith_seedEmbedJobs hseed
  obtain ⟨-, -, hsame⟩ := current_of_ensureActive (Machine.ok_ensureActive hindex)
  obtain rfl := hsame hcurrent
  exact ⟨rfl, now, hnow, rfl, rows_seedEmbedJobs hseed hqueued⟩

/-- **The server always comes up again**: from every store that calls of the server lead to, interrupted
    boots among them, a boot with a configuration that loads succeeds on a machine that has what it asks for;
    it serves the configured model, keeps every document and every row, and leaves one job for each pair with
    work left.  Another boot under the same model takes back claims that ran out and changes nothing else. -/
theorem server_boots {tr : List StoreOp} (hrun : Run (StoreStep E) .empty tr s) :
    (∀ m t, (boot E m).Leaves s t → ∃ tr, Run (StoreStep E) .empty tr t) ∧
    ∀ m c, loadConfig m.env = .ok c → m.Ready c →
      ∃ (now : ℕ) (serving : Serving) (s' : Store), m.clock = .ok now ∧ (boot E m).Ok s serving s' ∧
        Booted now c s serving s' ∧
        ∀ m' c', loadConfig m'.env = .ok c' → m'.Ready c' → c'.embeddingIdentity = c.embeddingIdentity →
          ∃ (later : ℕ) (serving' : Serving) (s'' : Store), m'.clock = .ok later ∧
            (boot E m').Ok s' serving' s'' ∧ serving'.model = serving.model ∧
            s'' = { s' with jobs := s''.jobs } ∧
            s''.jobs.rows = s'.jobs.rows.map (·.renewed s'.recoverablePairs later) := by
  refine ⟨fun m t h => ?_, fun m c hload hready => ?_⟩
  · obtain ⟨tr', hcalls⟩ := calls_of_boot h
    exact ⟨tr ++ tr', hrun.append hcalls⟩
  · have hs := wellFormed_run hrun
    obtain ⟨serving, s', hok⟩ := succeeds_boot hs hload hready
    obtain ⟨now, hnow, hbooted, hs'⟩ := booted hs hload hok
    refine ⟨now, serving, s', hnow, hok, hbooted, fun m' c' hload' hready' hsame => ?_⟩
    obtain ⟨serving', s'', hok'⟩ := succeeds_boot hs' hload' hready'
    have hmodel : serving.model ∈ s'.models.rows := (hbooted.store.models _).2 (.inr rfl)
    obtain ⟨hmodel', later, hlater, hframe, hrows⟩ := boot_again hmodel (hbooted.identity.trans hsame.symm)
      hbooted.current (fun p hp => (hbooted.queued p hp).exists) hload' hok'
    exact ⟨later, serving', s'', hlater, hok', hmodel', hframe, hrows⟩

/-! ## Boots under new models -/

/-- A machine on which nothing but the model is configured, and whose file `/r/f` holds `a`. -/
def sampleMachine (model : String) (time : ℕ) : Machine where
  env name := if name = embeddingModelEnv then .ok model else .error .notPresent
  openDatabase _ _ := .ok ()
  clock := .ok time
  view := sampleView [0x61]
  maxDimensions := 8192
  bind _ := .ok ()
  canonicalize path := .ok path

/-- A startup, and two documents whose embed jobs a worker has claimed. -/
def bootCalls : List StoreOp :=
  [.reconcile (fun _ => none) sampleModel 0, .activate ⟨1, "m", 1, 4, 0, 0⟩ 0,
    .db (.upsertDocument sampleDocument 1 [(.filename, 0, 0), (.content, 0, 1)] 0), .claim 10,
    .db (.upsertDocument { sampleDocument with filepath := "/r/g" } 1 [(.filename, 0, 0)] 0), .claim 20000]

/-- The store after these calls. -/
def bootedStore : Store := (callStores sampleEnv bootCalls .empty).getD .empty

/-- The store after a boot under the model `n` that stopped at its first commit. -/
def stoppedStore : Store := ((boot sampleEnv (sampleMachine "n" 50000) bootedStore).trace.head?).getD .empty

/-- The store after a boot under the model `k` from there, and after another one. -/
def secondStore : Store := (boot sampleEnv (sampleMachine "k" 90000) stoppedStore).state

/-- The store after one more boot under `k`. -/
def thirdStore : Store := (boot sampleEnv (sampleMachine "k" 200000) secondStore).state

theorem ready_sampleMachine : ∃ c, loadConfig (sampleMachine "k" 90000).env = .ok c ∧
    (sampleMachine "k" 90000).Ready c ∧ (sampleMachine "k" 200000).Ready c ∧ c.embeddingIdentity.name = "k" :=
  ⟨_, by rfl, ⟨by decide, rfl, ⟨_, rfl⟩, by decide, rfl, ⟨_, rfl⟩, ⟨_, rfl⟩⟩,
    ⟨by decide, rfl, ⟨_, rfl⟩, by decide, rfl, ⟨_, rfl⟩, ⟨_, rfl⟩⟩, rfl⟩

theorem run_stoppedStore : ∃ tr, Run (StoreStep sampleEnv) .empty tr stoppedStore := by
  obtain ⟨s, hs⟩ := Option.isSome_iff_exists.1
    (by decide +kernel : (callStores sampleEnv bootCalls .empty).isSome = true)
  obtain rfl : bootedStore = s := by rw [bootedStore, hs, Option.getD_some]
  obtain ⟨t, ht⟩ := Option.isSome_iff_exists.1 (by decide +kernel :
    (boot sampleEnv (sampleMachine "n" 50000) bootedStore).trace.head?.isSome = true)
  obtain rfl : stoppedStore = t := by rw [stoppedStore, ht, Option.getD_some]
  exact (server_boots (run_of_callStores hs)).1 _ _ (.inr (.inl (List.mem_of_head? ht)))

/-- Two documents with work left, a claim that has run out and one that has not, and a boot that stopped
    once it had registered its model: the boot under a third model takes back the claim that ran out, plans
    both documents and queues them, and the next boot takes back the other claim. -/
theorem server_boots_again : ∃ (tr : List StoreOp) (c : Config) (serving serving' : Serving),
    Run (StoreStep sampleEnv) .empty tr stoppedStore ∧
    stoppedStore.models.rows.map EmbeddingModel.name = ["m", "n"] ∧
    stoppedStore.jobs.rows.map (fun e => (e.id, e.claimedAt, e.createdAt)) =
      [(1, some 10, 0), (2, some 20000, 0)] ∧
    (boot sampleEnv (sampleMachine "k" 90000)).Ok stoppedStore serving secondStore ∧
    Booted 90000 c stoppedStore serving secondStore ∧ serving.model.name = "k" ∧
    secondStore.recoverablePairs = [⟨1, 1⟩, ⟨1, 3⟩, ⟨2, 1⟩, ⟨2, 3⟩] ∧
    secondStore.jobs.rows.map (fun e => (e.id, e.claimedAt, e.createdAt)) =
      [(1, none, 90000), (2, some 20000, 0), (3, none, 90000), (4, none, 90000)] ∧
    (boot sampleEnv (sampleMachine "k" 200000)).Ok secondStore serving' thirdStore ∧
    serving'.model = serving.model ∧ thirdStore = { secondStore with jobs := thirdStore.jobs } ∧
    thirdStore.jobs.rows.map (fun e => (e.id, e.claimedAt, e.createdAt)) =
      [(1, none, 90000), (2, none, 200000), (3, none, 90000), (4, none, 90000)] := by
  obtain ⟨tr, hrun⟩ := run_stoppedStore
  obtain ⟨c, hload, hready, hready', hname⟩ := ready_sampleMachine
  obtain ⟨now, serving, s', hnow, hok, hbooted, hagain⟩ :=
    (server_boots hrun).2 (sampleMachine "k" 90000) c hload hready
  obtain rfl : now = 90000 := (Except.ok.inj hnow).symm
  obtain rfl : secondStore = s' := hok.2
  obtain ⟨later, serving', s'', -, hok', hmodel, hframe, -⟩ :=
    hagain (sampleMachine "k" 200000) c hload hready' rfl
  obtain rfl : thirdStore = s'' := hok'.2
  have hserved : serving.model.name = "k" :=
    (congrArg EmbeddingIdentity.name hbooted.identity).trans hname
  exact ⟨tr, c, serving, serving', hrun, by decide +kernel, by decide +kernel, hok, hbooted, hserved,
    by decide +kernel, by decide +kernel, hok', hmodel, hframe, by decide +kernel⟩

end Ask
