/-
  The life of a database: startups, finished or stopped on the way, and between
  them the transactions of the workers, in any order.

  `StoreStep` is one call of the store, whatever its arguments and however it
  ends.
-/
import Ask.System
import Ask.WellFormed

namespace Ask

open Lib

/-! ## Calls -/

/-- Every database access of a dispatch commits once or not at all. -/
theorem atomic_dbReq (op : DbReq) : Tx.Atomic op.run := by
  cases op with
  | findDocument | findModel | listRecoverable => exact Tx.atomic_query
  | completeJob | deferJob => exact Tx.atomic_exec
  | deleteDocument => exact Tx.atomic_transaction
  | upsertDocument => exact Tx.atomic_transaction
  | replaceEmbeddings docId modelId chunks now =>
    refine Tx.atomic_bind (fun s => rfl) ?_
    intro expected
    refine Tx.atomic_bind ?_ fun _ => Tx.atomic_transaction
    intro s
    unfold validateChunkEmbeddingLengths
    generalize chunks.find? (fun chunk => chunk.embedding.length ≠ expected) = found
    cases found <;> rfl

theorem atomic_markDocumentsStale (docIds : List ℤ) (now : ℤ) :
    Tx.Atomic (markDocumentsStale docIds now) := by
  unfold markDocumentsStale markDocumentsStaleWithHook
  split_ifs
  · rintro s s' (rfl | h | rfl)
    · exact .inl rfl
    · exact absurd h Tx.commits_pure
    · exact .inl rfl
  · exact Tx.atomic_transaction

/-- A call that the server makes on its store. -/
inductive StoreOp where
  | reconcile (view : View) (identity : EmbeddingIdentity) (now : ℤ)
  | activate (model : EmbeddingModel) (now : ℤ)
  | db (op : DbReq)
  | markStale (docIds : List ℤ) (now : ℤ)
  | enqueue (jobType : JobType) (payload : String) (now : ℤ)
  | claim (now : ℤ)

/-- One call: it ends, well or with an error, or it is interrupted. -/
inductive StoreStep (E : Env) : Store → StoreOp → Store → Prop
  | reconcile {s s' : Store} {view : View} {identity : EmbeddingIdentity} {now : ℤ} :
      (reconcileEmbeddingStartup E view identity now).Leaves s s' →
      StoreStep E s (.reconcile view identity now) s'
  | activate {s s' : Store} {model : EmbeddingModel} {now : ℤ} :
      (ensureActiveSearchModel model now).Leaves s s' → StoreStep E s (.activate model now) s'
  | db {s s' : Store} {op : DbReq} : op.run.Leaves s s' → StoreStep E s (.db op) s'
  | markStale {s s' : Store} {docIds : List ℤ} {now : ℤ} :
      (markDocumentsStale docIds now).Leaves s s' → StoreStep E s (.markStale docIds now) s'
  -- the routes enqueue ingests only; embed jobs come from seeding
  | enqueue {s s' : Store} {jobType : JobType} {payload : String} {now : ℤ} :
      jobType ≠ .embedDocument → (enqueueJobDb jobType payload now).Leaves s s' →
      StoreStep E s (.enqueue jobType payload now) s'
  | claim {s : Store} {now : ℤ} :
      StoreStep E s (.claim now) { s with jobs := (claimJob s.jobs now).2 }

variable {E : Env} {view : View} {identity : EmbeddingIdentity} {s s' : Store} {model : EmbeddingModel}
  {docId modelId now id : ℤ}

/-! ## Startups keep the store well formed -/

/-- A well-formed store whose rows of the model are all pending. -/
def Enrolling (modelId : ℤ) (s : Store) : Prop :=
  WellFormed s ∧ ∀ r ∈ s.embeddings.rows, r.modelId = modelId → r.state = .pending

theorem Enrolling.unembedded (h : Enrolling modelId s) : Unembedded modelId s := by
  intro r hr hm hst
  rw [h.2 r hr hm] at hst
  cases hst

theorem keeps_insertPending {c : ChunkRef} :
    Tx.Keeps (Enrolling modelId) (insertPendingEmbedding docId modelId c now) := by
  refine Tx.keeps_exec ?_
  intro s u s' hok h
  obtain ⟨hpair, e, rfl, hp⟩ := ok_insertPendingEmbedding hok
  have hcase : ∀ r ∈ e.rows, r ∈ s.embeddings.rows ∨
      r.modelId = modelId ∧ r.state = .pending ∧ r.embedding = none := by
    intro r hr
    obtain ⟨hr, -⟩ | ⟨c', -, he, -⟩ := hp.sound r hr
    · exact .inl hr
    · refine .inr ?_
      rw [he]
      exact ⟨rfl, rfl, rfl⟩
  have hall : ∀ r ∈ e.rows, r.modelId = modelId → r.state = .pending := by
    intro r hr hm
    rcases hcase r hr with hr | ⟨-, hst, -⟩
    · exact h.2 r hr hm
    · exact hst
  refine ⟨⟨?_, h.1.paths, ?_, ?_, ?_, h.1.payloads⟩, hall⟩
  · exact (intact_pendingInserted hp (fun _ => hpair) h.1.intact h.unembedded).1.foreignKeys
  · intro r hr r' hr' hpr
    by_cases hm : r.modelId = modelId
    · rw [hall r hr hm, hall r' hr' ((pair_eq_iff.1 hpr).2 ▸ hm)]
    · have hm' : r'.modelId ≠ modelId := (pair_eq_iff.1 hpr).2 ▸ hm
      exact h.1.uniform r ((hcase r hr).resolve_right fun h => hm h.1) r'
        ((hcase r' hr').resolve_right fun h => hm' h.1) hpr
  · intro r hr
    rcases hcase r hr with hr | ⟨-, hst, hnone⟩
    · exact h.1.sound r hr
    · refine ⟨fun hemb => ?_, fun _ => hnone⟩
      rw [hst] at hemb
      cases hemb
  · refine Indexed.pendingInserted h.1.indexed hp ?_
    exact fun r hr hpr => h.unembedded r hr (congrArg Prod.snd hpr)

theorem WellFormed.seededPair {p : Pair} {q : JobQueue} (h : WellFormed s) (hp : p ∈ s.recoverablePairs)
    (hq : SeededWith [p] now s.jobs q) : WellFormed { s with jobs := q } := by
  refine { h with payloads := h.payloads.seededWith hq ?_ }
  intro p' hp'
  rw [List.mem_singleton.1 hp']
  exact le_seq_of_recoverable h.foreignKeys hp

theorem keeps_backfill_enrolling (hid : model.id = modelId) :
    Tx.Keeps (Enrolling modelId) (backfillPendingForModel E view model now) := by
  subst hid
  refine keeps_backfill (fun _ _ => keeps_insertPending) ?_ (keeps_seedEmbedJobs ?_)
  · exact fun s p h => ⟨{ h.1 with indexed := h.1.indexed.without }, h.2⟩
  · exact fun s p q hp h hq => ⟨h.1.seededPair hp hq, h.2⟩

/-- The row of a new model: nothing refers to it. -/
theorem enrolling_insertModel (h : (insertModel identity now).Ok s id s') (hs : WellFormed s) :
    Enrolling id s' := by
  obtain ⟨models, rfl, hid, hrows⟩ := ok_insertModel h
  have hmono : ∀ m ∈ s.models.rows, m ∈ models.rows := by
    intro m hm
    rw [hrows]
    exact List.mem_append_left _ hm
  refine ⟨{ hs with
    foreignKeys := (intact_models hs.intact hrows).foreignKeys
    sound := fun r hr => (hs.sound r hr).mono hmono }, ?_⟩
  intro r hr hm
  obtain ⟨-, m, hmem, hmid⟩ := hasPair_iff.1 (hs.foreignKeys r hr)
  have := s.models.le_seq m hmem
  omega

theorem keeps_reconcile_wellFormed : Tx.Keeps WellFormed (reconcileEmbeddingStartup E view identity now) :=
  keeps_reconcile (keeps_registerModel (fun _ _ _ => enrolling_insertModel)
    (fun _ => keeps_backfill_enrolling rfl) fun _ _ h => h.1)
    (keeps_seedEmbedJobs fun _ _ _ hp h hq => h.seededPair hp hq)

theorem keeps_activate : Tx.Keeps WellFormed (ensureActiveSearchModel model now) := by
  refine keeps_ensureActiveSearchModel ?_
  intro s state vec hchange hs
  refine { hs with indexed := ?_ }
  cases hchange with
  | drop => exact indexed_none
  | create n =>
    rintro v ⟨⟩ x hx
    exact absurd hx List.not_mem_nil
  | record => exact hs.indexed
  | put hv hput => exact Indexed.putAll (hv ▸ hs.indexed) hput

theorem traced_seedEmbedJobs : Tx.Traced (seedEmbedJobs now) := by
  have hpairs : ∀ (pairs : List Pair) (n : ℕ), Tx.Traced (seedPairs now pairs n) := by
    intro pairs
    induction pairs with
    | nil => exact fun n => Tx.traced_pure
    | cons p pairs ih => exact fun n => Tx.traced_bind Tx.traced_exec fun _ => ih _
  exact Tx.traced_bind Tx.traced_query fun _ => hpairs _ 0

theorem traced_registerModel : Tx.Traced (registerModel E view identity now) := by
  refine Tx.traced_bind (Tx.traced_mapError Tx.traced_exec) fun id => Tx.traced_bind ?_ fun _ =>
    Tx.traced_pure
  refine Tx.traced_bind Tx.traced_query fun docs => Tx.traced_bind (Tx.traced_each (fun doc => ?_) docs)
    fun _ => Tx.traced_bind traced_seedEmbedJobs fun _ => Tx.traced_pure
  refine Tx.traced_mapError (Tx.traced_mapError (Tx.traced_bind ?_ fun _ => Tx.traced_exec))
  exact Tx.traced_each (fun c => Tx.traced_mapError Tx.traced_exec) _

theorem traced_reconcile : Tx.Traced (reconcileEmbeddingStartup E view identity now) := by
  refine Tx.traced_bind (Tx.traced_bind Tx.traced_query ?_) fun _ =>
    Tx.traced_bind traced_seedEmbedJobs fun _ => Tx.traced_bind Tx.traced_query fun _ =>
      Tx.traced_bind Tx.traced_query fun _ => Tx.traced_pure
  intro found
  cases found with
  | some m => exact Tx.traced_pure
  | none => exact traced_registerModel

/-! ## Every call keeps the store well formed -/

theorem wellFormed_step {op : StoreOp} (h : StoreStep E s op s') (hs : WellFormed s) : WellFormed s' := by
  cases h with
  | reconcile h => exact h.keeps traced_reconcile keeps_reconcile_wellFormed hs
  | activate h => exact h.keeps traced_ensureActiveSearchModel keeps_activate hs
  | @db _ op h =>
    obtain rfl | ⟨v, h⟩ := atomic_dbReq op s s' h
    · exact hs
    · exact wellFormed_of_ok h hs
  | @markStale _ docIds now h =>
    obtain rfl | ⟨u, h⟩ := atomic_markDocumentsStale docIds now s s' h
    · exact hs
    · exact wellFormed_markDocumentsStale h hs
  | enqueue hty h =>
    obtain rfl | ⟨u, h⟩ := Tx.atomic_exec s s' h
    · exact hs
    · rw [ok_enqueueJobDb h]
      exact { hs with payloads := PayloadsIn.enqueued hs.payloads hty }
  | claim => exact { hs with payloads := PayloadsIn.claimed hs.payloads }

/-- Every store of a server's life is well formed. -/
theorem wellFormed_run {tr : List StoreOp} (h : Run (StoreStep E) .empty tr s) : WellFormed s :=
  h.invariant (I := WellFormed) (fun _ _ _ _ hstep => wellFormed_step hstep) wellFormed_empty

/-! ## The index never refuses the rows -/

/-- The store after a call that runs to its end; nothing for an embed job of a route. -/
def callStore (E : Env) (s : Store) : StoreOp → Option Store
  | .reconcile view identity now => some (reconcileEmbeddingStartup E view identity now s).state
  | .activate model now => some (ensureActiveSearchModel model now s).state
  | .db op => some (op.run s).state
  | .markStale docIds now => some (markDocumentsStale docIds now s).state
  | .enqueue jobType payload now =>
    if jobType = .embedDocument then none else some (enqueueJobDb jobType payload now s).state
  | .claim now => some { s with jobs := (claimJob s.jobs now).2 }

/-- Several calls, one after the other. -/
def callStores (E : Env) : List StoreOp → Store → Option Store
  | [], s => some s
  | op :: ops, s => (callStore E s op).bind fun s => callStores E ops s

theorem step_of_callStore {op : StoreOp} (h : callStore E s op = some s') : StoreStep E s op s' := by
  have hlast : ∀ {α : Type} {p : Db α}, some (p s).state = some s' → p.Leaves s s' :=
    fun h => .inr (.inr (Option.some.inj h))
  cases op with
  | reconcile => exact .reconcile (hlast h)
  | activate => exact .activate (hlast h)
  | db => exact .db (hlast h)
  | markStale => exact .markStale (hlast h)
  | enqueue =>
    dsimp only [callStore] at h
    split_ifs at h with hty
    exact .enqueue hty (hlast h)
  | claim =>
    cases h
    exact .claim

theorem run_of_callStores {ops : List StoreOp} (h : callStores E ops s = some s') :
    Run (StoreStep E) s ops s' :=
  .of_play step_of_callStore (fun _ => rfl) (fun _ _ _ => rfl) h

/-- A startup, an ingest, a replacement with a vector that is too long, one with the same chunk
    twice, one that works, and documents marked stale that are not there. -/
def sampleCalls : List StoreOp :=
  [.reconcile (fun _ => none) sampleModel 0, .activate ⟨1, "m", 1, 4, 0, 0⟩ 0,
    .db (.upsertDocument sampleDocument 1 [(.filename, 0, 0)] 1),
    .db (.replaceEmbeddings 1 1 [⟨.filename, 0, 0, [0, 0, 0, 0, 0]⟩] 2),
    .db (.replaceEmbeddings 1 1 [⟨.filename, 0, 0, [0, 0, 0, 0]⟩, ⟨.filename, 0, 0, [0, 0, 0, 0]⟩] 3),
    .db (.replaceEmbeddings 1 1 [⟨.filename, 0, 0, [0, 0, 0, 0]⟩] 4), .markStale [7] 5]

end Ask
