/-
  Lifetimes of the server: a startup that ends before any worker begins, or is
  stopped on the way, then the workers' dispatches, interleaved at their
  accesses.
-/
import Ask.Lifetime

namespace Ask

open Lib

/-! ## The server -/

/-- The database with the workers on it; no worker serves before a startup has ended. -/
structure Server where
  system : System
  serving : Bool

/-- A server that has never run. -/
def Server.fresh : Server := ⟨.start .empty, false⟩

/-- The database. -/
def Server.store (sv : Server) : Store := sv.system.store

/-- The routes enqueue ingests only. -/
def OnlyIngests (_ : System) : SystemOp → Prop
  | .enqueue jobType _ _ => jobType ≠ .embedDocument
  | _ => True

instance (sys : System) (op : SystemOp) : Decidable (OnlyIngests sys op) :=
  match op with
  | .enqueue jobType _ _ => inferInstanceAs (Decidable (jobType ≠ .embedDocument))
  | .claim _ _ _ | .access _ | .markStale _ _ => isTrue trivial

/-- What may happen to a server: a startup, whole or stopped, or a step of its work. -/
inductive ServerOp where
  | startup (view : View) (identity : EmbeddingIdentity) (now : ℤ)
  | stopped (view : View) (identity : EmbeddingIdentity) (now : ℤ)
  | work (op : SystemOp)

/-- One step: the server starts, whatever it did before, or starts and is stopped on the way, or a
    worker takes a step. -/
inductive ServerStep (E : Env) : Server → ServerOp → Server → Prop
  | startup {sv : Server} {s₁ s₂ : Store} {view : View} {identity : EmbeddingIdentity} {now : ℤ}
      {state : StartupEmbeddingState} {n : ℕ} :
      (reconcileEmbeddingStartup E view identity now).Ok sv.store state s₁ →
      (ensureActiveSearchModel state.model now).Ok s₁ n s₂ →
      ServerStep E sv (.startup view identity now) ⟨.start s₂, true⟩
  | stopped {sv : Server} {s' : Store} {view : View} {identity : EmbeddingIdentity} {now : ℤ} :
      (reconcileEmbeddingStartup E view identity now).Leaves sv.store s' →
      ServerStep E sv (.stopped view identity now) ⟨.start s', false⟩
  | stoppedActivating {sv : Server} {s₁ s' : Store} {view : View} {identity : EmbeddingIdentity}
      {now : ℤ} {state : StartupEmbeddingState} :
      (reconcileEmbeddingStartup E view identity now).Ok sv.store state s₁ →
      (ensureActiveSearchModel state.model now).Leaves s₁ s' →
      ServerStep E sv (.stopped view identity now) ⟨.start s', false⟩
  | work {sv : Server} {sys' : System} {op : SystemOp} : sv.serving = true →
      When OnlyIngests (SystemStep E True) sv.system op sys' → ServerStep E sv (.work op) ⟨sys', true⟩

/-! ## It makes calls of the store -/

variable {E : Env} {mayFail : Prop} {sys sys' : System} {sv sv' : Server} {s s' : Store}

theorem Answers.calls {view : View} {w w' : World} {r : Req} {a : r.Ans}
    (h : Answers view mayFail w r a w') : ∃ tr, Run (StoreStep E) w.store tr w'.store := by
  cases h.changes with
  | committed hok => exact ⟨[_], .cons (.db (.inr (.inr hok.2))) (.nil _)⟩
  | called | same => exact ⟨[], .nil _⟩

theorem SystemStep.calls {op : SystemOp} (h : SystemStep E mayFail sys op sys') (hop : OnlyIngests sys op) :
    ∃ tr, Run (StoreStep E) sys.store tr sys'.store := by
  cases h with
  | enqueue h => exact ⟨[_], .cons (.enqueue hop (.inr (.inr h.2))) (.nil _)⟩
  | claim => exact ⟨[_], .cons .claim (.nil _)⟩
  | access _ h => exact h.calls
  | markStale h => exact ⟨[_], .cons (.markStale (.inr (.inr h.2))) (.nil _)⟩

/-- Every step of a server is a sequence of calls of its store. -/
theorem ServerStep.calls {op : ServerOp} (h : ServerStep E sv op sv') :
    ∃ tr, Run (StoreStep E) sv.store tr sv'.store := by
  cases h with
  | startup h1 h2 =>
    exact ⟨[_, _], .cons (.reconcile (.inr (.inr h1.2))) (.cons (.activate (.inr (.inr h2.2))) (.nil _))⟩
  | stopped h => exact ⟨[_], .cons (.reconcile h) (.nil _)⟩
  | stoppedActivating h1 h2 =>
    exact ⟨[_, _], .cons (.reconcile (.inr (.inr h1.2))) (.cons (.activate h2) (.nil _))⟩
  | work _ h => exact h.1.calls h.2

theorem server_calls {tr : List ServerOp} (h : Run (ServerStep E) sv tr sv') :
    ∃ calls, Run (StoreStep E) sv.store calls sv'.store := by
  induction h with
  | nil => exact ⟨[], .nil _⟩
  | cons hstep _ ih =>
    obtain ⟨tr₁, h₁⟩ := hstep.calls
    obtain ⟨tr₂, h₂⟩ := ih
    exact ⟨tr₁ ++ tr₂, h₁.append h₂⟩

theorem wellFormed_server {tr : List ServerOp} (h : Run (ServerStep E) .fresh tr sv) :
    WellFormed sv.store := by
  obtain ⟨calls, hrun⟩ := server_calls h
  exact wellFormed_run hrun

/-! ## One state for each pair -/

/-- A listing that is not empty lists every row of the pair. -/
theorem mem_listRecoverable (hs : WellFormed s) {docId modelId : ℤ} {rows : List DocumentEmbedding}
    (h : (listRecoverableEmbeddingsForModel docId modelId).Ok s rows s') (hne : rows ≠ [])
    {r : DocumentEmbedding} (hr : r ∈ s.embeddings.rows) (hp : r.pair = (docId, modelId)) : r ∈ rows := by
  obtain ⟨-, hmem⟩ := ok_listRecoverableEmbeddingsForModel h
  obtain ⟨r₀, hr₀⟩ := List.exists_mem_of_ne_nil rows hne
  obtain ⟨hr₀, hp₀, hst⟩ := (hmem r₀).1 hr₀
  refine (hmem r).2 ⟨hr, hp, ?_⟩
  rwa [hs.uniform r hr r₀ hr₀ (hp.trans hp₀.symm)]

/-- **A pair is never in a mixed state**: after any lifetimes of the server all rows of a pair have
    one state, so an embed dispatch that lists work lists every row that its replacement deletes. -/
theorem pairs_uniform {tr : List ServerOp} (h : Run (ServerStep E) .fresh tr sv) :
    (∀ r ∈ sv.store.embeddings.rows, ∀ r' ∈ sv.store.embeddings.rows, r.pair = r'.pair →
      r.state = r'.state) ∧
    ∀ docId modelId rows s', (listRecoverableEmbeddingsForModel docId modelId).Ok sv.store rows s' →
      rows ≠ [] → ∀ chunks now s'', (replaceEmbeddingsForDocumentModel docId modelId chunks now).Ok s' () s'' →
        ∀ r ∈ sv.store.embeddings.rows, r ∉ s''.embeddings.rows → r ∈ rows := by
  have hs := wellFormed_server h
  refine ⟨hs.uniform, ?_⟩
  intro docId modelId rows s' hlist hne chunks now s'' hrep r hr hgone
  obtain ⟨-, rfl⟩ := Tx.ok_query.1 hlist
  refine mem_listRecoverable hs hlist hne hr ?_
  by_contra hp
  exact hgone ((ok_replaceEmbeddingsForDocumentModel hrep).frame hr hp)

/-! ## A lifetime played -/

theorem run_work : ∀ {ops : List SystemOp} {sys : System},
    Run (When OnlyIngests (SystemStep E True)) sys ops sys' →
      Run (ServerStep E) ⟨sys, true⟩ (ops.map .work) ⟨sys', true⟩
  | [], _, .nil _ => .nil _
  | _ :: _, _, .cons hs h => .cons (.work rfl hs) (run_work h)

/-- A startup of the first model, then an ingest of `/r/f` to its end. -/
def sampleLifetime : List ServerOp :=
  .startup (sampleView [0x61]) sampleModel 0 :: (ingestOps [0x61]).map .work

/-- The lifetime leaves two rows of one pair, in one state. -/
theorem pairs_uniform_ingested : ∃ sv, Run (ServerStep sampleEnv) .fresh sampleLifetime sv ∧
    sv.store.embeddings.rows.length = 2 ∧
    ∀ r ∈ sv.store.embeddings.rows, ∀ r' ∈ sv.store.embeddings.rows, r.pair = r'.pair →
      r.state = r'.state := by
  have hplay : ((finish (reconcileEmbeddingStartup sampleEnv (sampleView [0x61]) sampleModel 0) .empty).any
      fun out => (finish (ensureActiveSearchModel out.1.model 0) out.2).any fun out =>
        (playSystem sampleEnv OnlyIngests (sampleOutside none 5) (ingestOps [0x61]) (.start out.2)).any
          fun sys => decide (sys.store.embeddings.rows.length = 2)) = true := by
    decide +kernel
  obtain ⟨out, hout, hplay⟩ := (Option.any_eq_true _ _).1 hplay
  obtain ⟨out', hout', hplay⟩ := (Option.any_eq_true _ _).1 hplay
  obtain ⟨sys, hsys, hlen⟩ := (Option.any_eq_true _ _).1 hplay
  have hrun : Run (ServerStep sampleEnv) .fresh sampleLifetime ⟨sys, true⟩ :=
    .cons (.startup (ok_of_finish hout) (ok_of_finish hout')) (run_work (run_of_playSystem hsys))
  exact ⟨⟨sys, true⟩, hrun, of_decide_eq_true hlen, (pairs_uniform hrun).1⟩

end Ask
