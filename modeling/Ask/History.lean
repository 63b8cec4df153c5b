/-
  Histories of the server: complete operations, one after the other.
-/
import Ask.DispatchFacts
import Ask.Integrity
import Ask.Lib.Run
import Ask.Oracle

namespace Ask

open Lib

/-- A complete operation of the server, and what it sees of the outside. -/
inductive HistoryOp where
  | startup (view : View) (identity : EmbeddingIdentity) (now : ℤ)
  | enqueue (jobType : JobType) (payload : String) (now : ℤ)
  | claim (now : ℤ)
  | dispatch (view : View) (entry : JobQueueEntry) (modelId : ℤ)
  | markStale (docIds : List ℤ) (now : ℤ)
  | deleteDocument (docId : ℤ)

/-- An operation runs to its end without a failure.  Each access of a dispatch meets `C` in the
    store it finds. -/
inductive HistoryStep (E : Env) (C : View → Store → Req → Prop) : Store → HistoryOp → Store → Prop
  | startup {s s₁ s₂ : Store} {view : View} {identity : EmbeddingIdentity} {now : ℤ}
      {state : StartupEmbeddingState} {n : ℕ} :
      (reconcileEmbeddingStartup E view identity now).Ok s state s₁ →
      (ensureActiveSearchModel state.model now).Ok s₁ n s₂ →
      HistoryStep E C s (.startup view identity now) s₂
  | enqueue {s s' : Store} {jobType : JobType} {payload : String} {now : ℤ} :
      (enqueueJobDb jobType payload now).Ok s () s' →
      HistoryStep E C s (.enqueue jobType payload now) s'
  | claim {s : Store} {now : ℤ} :
      HistoryStep E C s (.claim now) { s with jobs := (claimJob s.jobs now).2 }
  | dispatch {s : Store} {w : World} {view : View} {entry : JobQueueEntry} {modelId : ℤ} :
      Proc.Runs (fun w r a w' => Answers view False w r a w' ∧ C view w.store r)
        (dispatchJob E entry modelId) ⟨s, [], []⟩ (.ok ()) w →
      HistoryStep E C s (.dispatch view entry modelId) w.store
  | markStale {s s' : Store} {docIds : List ℤ} {now : ℤ} :
      (markDocumentsStale docIds now).Ok s () s' → HistoryStep E C s (.markStale docIds now) s'
  | deleteDocument {s s' : Store} {docId : ℤ} :
      (deleteDocument docId).Ok s () s' → HistoryStep E C s (.deleteDocument docId) s'

/-- No condition on the accesses. -/
abbrev AnyAccess : View → Store → Req → Prop := fun _ _ _ => True

variable {E : Env} {C : View → Store → Req → Prop} {view : View} {s s' : Store}

/-- Alone, a dispatch finds the store as its last access left it. -/
def Alone (w w' : World) : Prop := w'.store = w.store ∧ ∀ c ∈ w.calls, c ∈ w'.calls

theorem admissible_alone : Admissible Alone where
  refl _ := ⟨rfl, fun _ h => h⟩
  trans h h' := ⟨h'.1.trans h.1, fun c hc => h'.2 c (h.2 c hc)⟩
  call _ _ := ⟨rfl, fun _ h => List.mem_cons_of_mem _ h⟩
  models h m hm := by rw [h.1]; exact hm
  calls h := h.2

/-- What was so at an earlier moment still is. -/
theorem past_alone {P : Store → Prop} {w : World} (h : Past Alone (fun w => P w.store) w) : P w.store := by
  obtain ⟨w₀, h₀, hp⟩ := h
  rw [h₀.1]; exact hp

/-- What each grounded access preserves, a dispatch preserves. -/
theorem dispatch_invariant {mayFail : Prop} {step : World → (r : Req) → r.Ans → World → Prop}
    (hstep : ∀ {w r a w'}, step w r a w' → Answers view mayFail w r a w') {entry : JobQueueEntry}
    {modelId : ℤ} {w w' : World} {x : Except AnyError Unit}
    (h : Proc.Runs step (dispatchJob E entry modelId) w x w') {I : World → Prop}
    (hI : ∀ w r a w', step w r a w' → Grounds E view mayFail Alone entry w r → I w → I w') (hw : I w) :
    I w' := by
  have hsat : Grounded E view mayFail Alone entry (fun _ => True) (dispatchJob E entry modelId) w :=
    grounded_dispatchJob admissible_alone modelId w
  obtain ⟨hrun, -⟩ := h.sat (C := dispatching E view mayFail Alone entry) admissible_alone.refl
    hstep hsat
  exact hrun.invariant (fun w r a w' hs => hI w r a w' hs.1 hs.2) hw

/-! ## Startups -/

variable {now : ℤ} {identity : EmbeddingIdentity}

/-- A new model's row: its id was never used. -/
theorem ok_insertModel {id : ℤ} (h : (insertModel identity now).Ok s id s') :
    ∃ models : Models, s' = { s with models := models } ∧ id = s.models.seq + 1 ∧
      models.rows = s.models.rows ++
        [⟨id, identity.name, identity.dimensions, identity.chunkSize, identity.chunkOverlap, now⟩] := by
  rw [insertModel, Db.ok_context, Tx.ok_exec] at h
  split at h
  · rename_i models hins
    cases h
    obtain ⟨-, hrows, hseq⟩ := AutoTable.insert_eq_some.1 hins
    exact ⟨models, rfl, hseq, by rw [hrows, hseq]⟩
  · cases h

theorem ok_resolveModel {m : EmbeddingModel} {n : ℕ}
    (h : (resolveModel E view identity now).Ok s (m, n) s') :
    (m ∈ s.models.rows ∧ m.identity = identity ∧ s' = s) ∨
      (∀ m ∈ s.models.rows, m.identity ≠ identity) ∧
        (registerModel E view identity now).Ok s (m, n) s' := by
  unfold resolveModel at h
  rw [Tx.ok_bind] at h
  obtain ⟨found, s₁, hf, h⟩ := h
  obtain ⟨hfind, rfl⟩ := Tx.ok_query.1 hf
  rw [Except.ok.injEq] at hfind
  cases found with
  | some m' =>
    obtain ⟨he, rfl⟩ := Tx.ok_pure.1 h
    cases he
    exact .inl ⟨List.mem_of_find?_eq_some hfind, by simpa using List.find?_some hfind, rfl⟩
  | none =>
    refine .inr ⟨fun m hm hid => ?_, h⟩
    have := List.find?_eq_none.1 hfind m hm
    simp [hid] at this

/-- Reconciliation resolves its model, then it only touches the queue. -/
theorem ok_reconcile {state : StartupEmbeddingState}
    (h : (reconcileEmbeddingStartup E view identity now).Ok s state s') :
    ∃ n s₁ q, (resolveModel E view identity now).Ok s (state.model, n) s₁ ∧
      s' = { s₁ with jobs := q } ∧ Seeded s₁.jobs q ∧
      ∀ p ∈ s₁.recoverablePairs, ∃ e ∈ q.rows, e.uniqueKey = embedJobKey p := by
  unfold reconcileEmbeddingStartup at h
  simp only [Tx.ok_bind] at h
  obtain ⟨⟨m, n⟩, s₁, h1, k, s₂, h2, c, s₃, h3, d, s₄, h4, h5⟩ := h
  obtain ⟨q, rfl, hq, hp⟩ := ok_seedEmbedJobs h2
  obtain ⟨-, rfl⟩ := Tx.ok_query.1 h3
  obtain ⟨-, rfl⟩ := Tx.ok_query.1 h4
  obtain ⟨he, rfl⟩ := Tx.ok_pure.1 h5
  cases he
  exact ⟨n, s₁, q, h1, rfl, hq, hp⟩

/-- The rows a plan of what is at `path` asks for. -/
def plannedChunks (E : Env) (view : View) (path : String) (model : EmbeddingModel) :
    List ChunkRef :=
  let contentPlan := match view path with
    | some file => readContentPrefix file
    | none => .filenameOnly
  (planPendingEmbeddingsForReadPlan E.f64 contentPlan model).chunks

/-- A new model: its row, then pending rows for one document after the other, then jobs. -/
theorem ok_registerModel {m : EmbeddingModel} {n : ℕ}
    (h : (registerModel E view identity now).Ok s (m, n) s') :
    ∃ models s₁ q, m.id = s.models.seq + 1 ∧ m.identity = identity ∧
      models.rows = s.models.rows ++ [m] ∧
      (Tx.each (fun doc : Document =>
        Db.context s!"failed to backfill pending embeddings for document {doc.id} at {doc.filepath}"
          (queuePendingEmbeddingsForDocument E view doc.filepath doc.id m now))
        (s.documents.rows.insertionSort fun a b => a.filepath ≤ b.filepath)).Ok
          { s with models := models } () s₁ ∧
      s' = { s₁ with jobs := q } ∧ Seeded s₁.jobs q := by
  unfold registerModel at h
  simp only [Tx.ok_bind] at h
  obtain ⟨id, s₁, h1, k, s₂, h2, h3⟩ := h
  obtain ⟨models, rfl, hid, hrows⟩ := ok_insertModel h1
  obtain ⟨he, rfl⟩ := Tx.ok_pure.1 h3
  cases he
  unfold backfillPendingForModel at h2
  simp only [Tx.ok_bind] at h2
  obtain ⟨docs, s₃, h4, _, s₄, h5, c, s₅, h6, h7⟩ := h2
  obtain ⟨hdocs, rfl⟩ := Tx.ok_query.1 h4
  cases hdocs
  obtain ⟨q, rfl, hq, -⟩ := ok_seedEmbedJobs h6
  obtain ⟨-, rfl⟩ := Tx.ok_pure.1 h7
  exact ⟨models, s₄, q, hid, rfl, hrows, h5, rfl, hq⟩

/-- What one document's backfill does. -/
theorem ok_queuePendingEmbeddingsForDocument {path : String} {docId : ℤ} {m : EmbeddingModel}
    {u : Unit} (h : (queuePendingEmbeddingsForDocument E view path docId m now).Ok s u s') :
    (plannedChunks E view path m ≠ [] → s.hasPair docId m.id = true) ∧
      ∃ e, PendingInserted docId m.id now (plannedChunks E view path m) s.embeddings e ∧
        s' = { s with
          embeddings := e,
          vec := { s with embeddings := e }.vecWithout fun r =>
            decide (r.pair = (docId, m.id)) && decide (r.state ≠ EmbedState.embedded) } :=
  ok_insertPendingEmbeddings (Db.ok_context.1 h)

/-- Nothing of a new model is there. -/
theorem unembedded_new {models : Models} {modelId : ℤ} (hs : Intact s)
    (hid : modelId = s.models.seq + 1) : Unembedded modelId { s with models := models } := by
  intro r hr hm
  obtain ⟨-, m', hm', hid'⟩ := hasPair_iff.1 (hs.foreignKeys r hr)
  have := s.models.le_seq m' hm'
  omega

theorem intact_models {models : Models} {m : EmbeddingModel} (hs : Intact s)
    (hrows : models.rows = s.models.rows ++ [m]) : Intact { s with models := models } where
  foreignKeys r hr := by
    obtain ⟨hdoc, m', hm', hid⟩ := hasPair_iff.1 (hs.foreignKeys r hr)
    exact hasPair_iff.2 ⟨hdoc, m', by rw [hrows]; exact List.mem_append_left _ hm', hid⟩
  uniform := hs.uniform
  vectored := hs.vectored

/-- What a new model's row, each document's backfill and the queue preserve, the registration
    preserves; nothing of the model is embedded meanwhile. -/
theorem registerModel_invariant {m : EmbeddingModel} {n : ℕ} {I : Store → Prop}
    (h : (registerModel E view identity now).Ok s (m, n) s') (hs : Intact s)
    (hmodels : ∀ models : Models, models.rows = s.models.rows ++ [m] → I { s with models := models })
    (hdoc : ∀ (s₁ : Store) (doc : Document) (e : Embeddings), doc ∈ s.documents.rows → Intact s₁ →
      Unembedded m.id s₁ →
      PendingInserted doc.id m.id now (plannedChunks E view doc.filepath m) s₁.embeddings e →
      I s₁ → I { s₁ with
        embeddings := e,
        vec := { s₁ with embeddings := e }.vecWithout fun r =>
          decide (r.pair = (doc.id, m.id)) && decide (r.state ≠ EmbedState.embedded) })
    (hjobs : ∀ (s₁ : Store) (q : JobQueue), I s₁ → I { s₁ with jobs := q }) :
    Intact s' ∧ I s' := by
  obtain ⟨models, s₁, q, hid, -, hrows, heach, rfl, -⟩ := ok_registerModel h
  have hall : (Intact s₁ ∧ Unembedded m.id s₁) ∧ I s₁ := by
    refine Tx.ok_each_invariant (I := fun s => (Intact s ∧ Unembedded m.id s) ∧ I s) heach
      (fun doc hmem s₂ s₃ hok h₂ => ?_)
      ⟨⟨intact_models hs hrows, unembedded_new hs hid⟩, hmodels models hrows⟩
    obtain ⟨⟨hs₂, hun⟩, hI⟩ := h₂
    obtain ⟨hpair, e, hp, rfl⟩ := ok_queuePendingEmbeddingsForDocument (Db.ok_context.1 hok)
    obtain ⟨hi, hu⟩ := intact_pendingInserted hp hpair hs₂ hun
    exact ⟨⟨hi.congr rfl rfl rfl, hu⟩,
      hdoc s₂ doc e ((List.mem_insertionSort _).1 hmem) hs₂ hun hp hI⟩
  exact ⟨hall.1.1.congr rfl rfl rfl, hjobs s₁ q hall.2⟩

theorem intact_ensureActiveSearchModel {m : EmbeddingModel} {n : ℕ}
    (h : (ensureActiveSearchModel m now).Ok s n s') (hs : Intact s) : Intact s' := by
  obtain ⟨rfl, -⟩ | ⟨v, -, rfl⟩ := ok_ensureActiveSearchModel h
  · exact hs
  · exact hs.congr rfl rfl rfl

theorem ok_enqueueJobDb {jobType : JobType} {payload : String} {u : Unit}
    (h : (enqueueJobDb jobType payload now).Ok s u s') :
    s' = { s with jobs := (enqueueJob s.jobs jobType payload now).2 } := by
  rw [enqueueJobDb, Tx.ok_exec] at h
  split at h
  · rename_i q hq
    cases h; rw [hq]
  · cases h

/-- The rows stay intact in every history. -/
theorem intact_historyStep {op : HistoryOp} (h : HistoryStep E C s op s') (hs : Intact s) :
    Intact s' := by
  cases h with
  | startup h1 h2 =>
    obtain ⟨n, s₁, q, hres, rfl, -⟩ := ok_reconcile h1
    refine intact_ensureActiveSearchModel h2 (Intact.congr (s := s₁) ?_ rfl rfl rfl)
    · obtain ⟨-, -, rfl⟩ | ⟨-, hreg⟩ := ok_resolveModel hres
      · exact hs
      · exact (registerModel_invariant (I := fun _ => True) hreg hs (fun _ _ => trivial)
          (fun _ _ _ _ _ _ _ _ => trivial) fun _ _ _ => trivial).1
  | enqueue h => rw [ok_enqueueJobDb h]; exact hs.congr rfl rfl rfl
  | claim => exact hs.congr rfl rfl rfl
  | dispatch h =>
    exact h.invariant (I := fun w => Intact w.store) (fun w r a w' hs => intact_of_answers hs.1) hs
  | markStale h => exact intact_markDocumentsStale h hs
  | deleteDocument h => exact intact_deleteDocument h hs

/-- Another condition on the accesses, which the first implies on the files of a dispatch. -/
theorem HistoryStep.imp {C' : View → Store → Req → Prop} {op : HistoryOp} (h : HistoryStep E C s op s')
    (hC : ∀ view entry modelId, op = .dispatch view entry modelId → ∀ s r, C view s r → C' view s r) :
    HistoryStep E C' s op s' := by
  cases h with
  | startup h1 h2 => exact .startup h1 h2
  | enqueue h => exact .enqueue h
  | claim => exact .claim
  | dispatch h => exact .dispatch (h.mono fun w r a w' h => ⟨h.1, hC _ _ _ rfl _ _ h.2⟩)
  | markStale h => exact .markStale h
  | deleteDocument h => exact .deleteDocument h

/-! ## Histories played -/

section
variable (E : Env) (C : View → Store → Req → Prop) [∀ view s r, Decidable (C view s r)] (o : Outside)

/-- The store after a program that works. -/
def finish {α : Type} (p : Db α) (s : Store) : Option (α × Store) :=
  match (p s).result with
  | .ok a => some (a, (p s).state)
  | .error _ => none

/-- Run one operation on the walks, the provider and the clock of `o`; nothing where a part of it
    fails or an access does not meet `C`.  Only a claimed job is dispatched. -/
def playOp (s : Store) : HistoryOp → Option Store
  | .startup view identity now => do
    let (state, s₁) ← finish (reconcileEmbeddingStartup E view identity now) s
    let (_, s₂) ← finish (ensureActiveSearchModel state.model now) s₁
    pure s₂
  | .enqueue jobType payload now => (finish (enqueueJobDb jobType payload now) s).map Prod.snd
  | .claim now => some { s with jobs := (claimJob s.jobs now).2 }
  | .dispatch view entry modelId =>
    if entry ∈ s.jobs.rows ∧ entry.claimedAt.isSome = true then
      match (dispatchJob E entry modelId).play (fun _ w r =>
          if C view w.store r then { o with view := view }.reply w r else none) 0 ⟨s, [], []⟩ with
      | some (.ok (), w) => some w.store
      | _ => none
    else none
  | .markStale docIds now => (finish (markDocumentsStale docIds now) s).map Prod.snd
  | .deleteDocument docId => (finish (deleteDocument docId) s).map Prod.snd

/-- Several steps, one after the other. -/
def playHistory : List HistoryOp → Store → Option Store
  | [], s => some s
  | op :: ops, s => (playOp E C o s op).bind fun s => playHistory ops s

end

section
variable [∀ view s r, Decidable (C view s r)] {o : Outside}

theorem ok_of_finish {α : Type} {p : Db α} {out : α × Store} (h : finish p s = some out) :
    p.Ok s out.1 out.2 := by
  unfold finish at h
  split at h
  · rename_i a ha
    cases h
    exact ⟨ha, rfl⟩
  · cases h

theorem ok_of_finish_map {p : Db Unit} (h : (finish p s).map Prod.snd = some s') : p.Ok s () s' := by
  obtain ⟨out, hf, rfl⟩ := Option.map_eq_some_iff.1 h
  exact ok_of_finish hf

theorem historyStep_of_playOp {op : HistoryOp} (h : playOp E C o s op = some s') :
    HistoryStep E C s op s' := by
  cases op with
  | startup view identity now =>
    obtain ⟨⟨state, s₁⟩, h1, h⟩ := Option.bind_eq_some_iff.1 h
    obtain ⟨⟨n, s₂⟩, h2, h⟩ := Option.bind_eq_some_iff.1 h
    cases h
    exact .startup (ok_of_finish h1) (ok_of_finish h2)
  | enqueue => exact .enqueue (ok_of_finish_map h)
  | claim => cases h; exact .claim
  | dispatch view entry modelId =>
    unfold playOp at h
    dsimp only at h
    split_ifs at h
    split at h
    · rename_i w hplay
      cases h
      refine .dispatch (Proc.runs_play (fun _ w r out hr => ?_) hplay)
      split_ifs at hr with hc
      exact ⟨Outside.answers_of_reply _ hr, hc⟩
    · cases h
  | markStale => exact .markStale (ok_of_finish_map h)
  | deleteDocument => exact .deleteDocument (ok_of_finish_map h)

theorem run_of_playHistory {ops : List HistoryOp} (h : playHistory E C o ops s = some s') :
    Run (HistoryStep E C) s ops s' :=
  .of_play historyStep_of_playOp (fun _ => rfl) (fun _ _ _ => rfl) h

end

/-- The only file is `/r/f`. -/
def sampleView (file : Bytes) : View := fun path => if path = "/r/f" then some file else none

/-- The first model is configured and `/r/f` is ingested under it. -/
def ingestHistory (file : Bytes) : List HistoryOp :=
  [.startup (sampleView file) sampleModel 0, .enqueue .ingestFolder sampleIngest 0, .claim 10,
    .dispatch (sampleView file) ⟨1, .ingestFolder, sampleIngest, some 10, 0⟩ 1]

/-- Its embed job is dispatched. -/
def embedHistory (file : Bytes) : List HistoryOp :=
  [.claim 20, .dispatch (sampleView file) ⟨2, .embedDocument, embedPayloadJson (1, 1), some 20, 5⟩ 1]

end Ask
