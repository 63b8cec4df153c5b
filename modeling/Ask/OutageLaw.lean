/-
  A provider that fails in the middle of an embed dispatch: the rows stay as
  they are, and the job is put off or stays claimed.
-/
import Ask.DispatchLaw
import Ask.ProviderLaw

namespace Ask

open Lib Act

/-! ## Dispatches over HTTP -/

/-- The store and the events of a dispatch, the network, and what was exchanged over it. -/
structure Site (σ : Type) where
  ledger : Ledger
  net : σ
  exchanges : List Exchange

section
variable {σ : Type} (client : HttpEmbeddingClient) (net : Network σ)

/-- The provider is asked by the client, and nothing else uses the network. -/
def Exchanged (S S' : Site σ) : (r : Req) → r.Ans → Prop
  | .embed model inputs, a => client.embed net.logged model inputs (S.net, S.exchanges) =
      (a, S'.net, S'.exchanges)
  | _, _ => S'.net = S.net ∧ S'.exchanges = S.exchanges

/-- A call of the dispatch, its exchanges with the provider logged. -/
def SiteStep (S : Site σ) (r : Req) (a : r.Ans) (S' : Site σ) : Prop :=
  FaultyStep S.ledger r a S'.ledger ∧ Exchanged client net S S' r a

/-- A dispatch alone at a site. -/
def site : Setting (Site σ) Req Req.Ans := ⟨SiteStep client net, Eq, fun _ _ _ _ => True⟩

end

variable {σ : Type} {client : HttpEmbeddingClient} {net : Network σ} {E : Env} {entry : JobQueueEntry}
  {s : Store} {S S' : Site σ} {model : EmbeddingModel} {α β : Type} {xs : List Exchange} {r : Req}
  {a : r.Ans}

/-! ## Requests that exchange nothing -/

/-- Requests that do not reach the provider. -/
def Silent : Req → Prop
  | .embed _ _ => False
  | _ => True

/-- Requests that neither write nor exchange anything. -/
def Reads : Req → Prop
  | .db (.findDocument _) => True
  | .db (.findModel _) => True
  | .db (.listRecoverable _ _) => True
  | .db _ => False
  | .embed _ _ => False
  | _ => True

theorem SiteStep.silent (hr : Silent r) (h : SiteStep client net S r a S') : S'.exchanges = S.exchanges := by
  cases r with
  | embed => exact hr.elim
  | _ => exact h.2.2

theorem SiteStep.reads (hr : Reads r) (h : SiteStep client net S r a S') :
    S'.ledger.store = S.ledger.store ∧ S'.exchanges = S.exchanges := by
  have hsilent : Silent r := by cases r <;> first | exact hr.elim | trivial
  refine ⟨?_, h.silent hsilent⟩
  cases r with
  | db op =>
    obtain ⟨v, -, hok⟩ | ⟨hs, -⟩ := h.1.1
    · cases op with
      | findDocument | findModel | listRecoverable => exact (Tx.ok_query.1 hok).2.symm
      | _ => exact hr.elim
    · exact hs
  | embed => exact hr.elim
  | connect | gitPlan | trackedFiles => exact h.1.1.1
  | _ => exact h.1.1

theorem sat_silent {p : Act α} (hp : Task.Calls Silent p) (h : S.exchanges = xs) :
    Task.Sat (site client net) p (fun _ S => S.exchanges = xs) S :=
  Proc.Calls.sat hp (fun _ _ he h => he ▸ h) (fun _ _ _ _ hr hs h => ⟨trivial, (hs.silent hr).trans h⟩) h

/-- Nothing is written or exchanged yet. -/
def Untouched (s : Store) (S : Site σ) : Prop := S.ledger.store = s ∧ S.exchanges = []

theorem sat_reads {p : Act α} (hp : Task.Calls Reads p) (h : Untouched s S) :
    Task.Sat (site client net) p (fun _ => Untouched s) S :=
  Proc.Calls.sat hp (fun _ _ he h => he ▸ h) (fun _ _ _ _ hr hs h =>
    ⟨trivial, (hs.reads hr).1.trans h.1, (hs.reads hr).2.trans h.2⟩) h

section
variable {P : Req → Prop} (hfile : ∀ path, P (.metadata path) ∧ P (.openFile path) ∧ P (.readFile path))

include hfile

theorem within_hashFile (path : String) : Task.Calls P (hashFile E path) :=
  Task.calls_bind (calls_context (Task.calls_bind (Task.calls_ask (hfile path).2.1) fun _ =>
    Task.calls_ofExcept)) fun _ => Task.calls_bind (calls_context
      (Task.calls_bind (Task.calls_ask (hfile path).2.2) fun _ => Task.calls_ofExcept)) fun _ => Task.calls_pure

theorem within_metadata (path : String) : Task.Calls P (metadata path) :=
  Task.calls_bind (Task.calls_ask (hfile path).1) fun _ => Task.calls_ofExcept

theorem within_readPrefixWithBudget (path : String) (budget : ℕ) :
    Task.Calls P (readPrefixWithBudget path budget) :=
  Task.calls_bind (calls_context (within_metadata hfile path)) fun _ =>
    Task.calls_bind (calls_context (Task.calls_bind (Task.calls_ask (hfile path).2.1) fun _ =>
      Task.calls_ofExcept)) fun _ => Task.calls_bind (calls_context
        (Task.calls_bind (Task.calls_ask (hfile path).2.2) fun _ => Task.calls_ofExcept)) fun _ =>
          Task.calls_pure

theorem within_prepareEmbeddedChunks (path : String) (docId : ℤ) (rows : List DocumentEmbedding) :
    Task.Calls P (prepareEmbeddedChunks path docId rows (readPrefixWithBudget path)) := by
  refine Task.calls_bind ?_ fun _ => Task.calls_ofExcept
  unfold readContentFor
  cases maxContentEnd rows with
  | none => exact Task.calls_pure
  | some e =>
    exact Task.calls_bind Task.calls_ofExcept fun _ =>
      Task.calls_bind (within_readPrefixWithBudget hfile path _) fun _ => Task.calls_pure

theorem within_replanDocumentFromPath (hnow : ∀ doc m chunks now, P (.db (.upsertDocument doc m chunks now)))
    (doc : Document) (model : EmbeddingModel) (now : ℤ) :
    Task.Calls P (replanDocumentFromPath E doc model now) :=
  Task.calls_bind (calls_context (within_metadata hfile _)) fun _ =>
    Task.calls_bind (calls_context (within_hashFile hfile _)) fun _ =>
      Task.calls_bind (calls_context (within_readPrefixWithBudget hfile _ _)) fun _ =>
        Task.calls_bind (calls_db (hnow _ _ _ _)) fun _ => Task.calls_pure

end

/-! ## The handler -/

mutual

theorem downcast_rootCause : ∀ e : AnyError, e.rootCause.downcast = none
  | .msg _ => rfl
  | .context _ source => downcast_rootCause source
  | .embedding err => downcast_rootCause' err

theorem downcast_rootCause' : ∀ err : EmbeddingError, err.rootCause.downcast = none
  | .retryable _ source => downcast_rootCause source
  | .permanent source => downcast_rootCause source

end

theorem embeddingRetryAfterSecs_embedding (err : EmbeddingError) :
    embeddingRetryAfterSecs (.embedding err) = err.retryAfterSecs := by
  have hself : (AnyError.embedding err).downcast = some err := rfl
  simp only [embeddingRetryAfterSecs, AnyError.chain, List.findSome?_cons, hself, downcast_rootCause',
    Option.bind_some, Option.bind_none, List.findSome?_nil]
  cases err.retryAfterSecs <;> rfl

/-- Nothing was exchanged, or the last answer gave its vectors. -/
def LastGave (net : Network σ) (model : EmbeddingModel) (xs : List Exchange) : Prop :=
  ∀ last, xs.getLast? = some last → ∃ vectors, last.Gives net.decode model vectors

/-- How the handler ends: with a last answer that was good, or with the failure of the last exchange and
    nothing written. -/
def Ended (net : Network σ) (model : EmbeddingModel) (s : Store) (x : Except AnyError α) (S : Site σ) :
    Prop :=
  LastGave net model S.exchanges ∨ ∃ last err, S.exchanges.getLast? = some last ∧ x = .error err ∧
    embeddingRetryAfterSecs err = last.retryAfterSecs ∧ S.ledger.store = s

theorem Conversation.lastGave {batches : List (List Bytes)}
    {vectors : List Vector32} (h : Conversation client net model batches xs (.ok vectors)) :
    LastGave net model xs := by
  intro last hlast
  obtain ⟨-, each, hall, -⟩ := h.ok
  exact exists_gives hall last (List.mem_of_getLast? hlast)

theorem lastGave_nil : LastGave net model [] := fun _ h => by cases h

theorem Untouched.ended {x : Except AnyError α} (h : Untouched s S) : Ended net model s x S := by
  refine .inl ?_
  rw [h.2]
  exact lastGave_nil

theorem ended_silent {p : Act α} (hp : Task.Calls Silent p) (h : LastGave net model S.exchanges) :
    Task.Sat (site client net) p (Ended net model s) S := by
  refine (sat_silent hp rfl).mono fun x S' h' => .inl ?_
  rw [h']
  exact h

/-- Go on after a part that only reads. -/
theorem ended_bind {p : Act α} {f : α → Act β} (hp : Task.Calls Reads p) (h : Untouched s S)
    (hf : ∀ a S, Untouched s S → Task.Sat (site client net) (f a) (Ended net model s) S) :
    Task.Sat (site client net) (p >>= f) (Ended net model s) S := by
  rw [Task.sat_bind]
  refine (sat_reads hp h).mono ?_
  intro x S hS
  cases x with
  | ok a => exact hf a S hS
  | error e => exact hS.ended

/-- The rest of a dispatch after the provider's answer. -/
theorem ended_answer {f : List Vector32 → Act β} {inputs : List Bytes} (text : String) (h : Untouched s S)
    (hf : ∀ vectors, Task.Calls Silent (f vectors)) :
    Task.Sat (site client net) (do
      let answer : Except EmbeddingError (List Vector32) ← ask (.embed model inputs)
      let vectors ← context text (Task.ofExcept (answer.mapError AnyError.embedding))
      f vectors) (Ended net model s) S := by
  rw [Task.sat_bind]
  rintro S₁ rfl answer S₂ ⟨hstep, hexchanged⟩
  refine ⟨trivial, ?_⟩
  have hstore : S₂.ledger.store = s := hstep.1.trans h.1
  obtain ⟨xs, hlog, hconv⟩ := embed_logged client net model inputs S.net S.exchanges
  have hexchanged : client.embed net.logged model inputs (S.net, S.exchanges) =
      (answer, S₂.net, S₂.exchanges) := hexchanged
  rw [hlog, h.2, List.nil_append, Prod.mk.injEq, Prod.mk.injEq] at hexchanged
  obtain ⟨hanswer, -, hxs⟩ := hexchanged
  rw [hanswer, hxs] at hconv
  show Task.Sat (site client net) (context text (Task.ofExcept (answer.mapError AnyError.embedding)) >>= f) _ S₂
  rw [Task.sat_bind]
  cases answer with
  | ok vectors =>
    refine ended_silent (hf vectors) ?_
    rcases hconv with hconv | ⟨-, -, err, herr, -⟩
    · exact hconv.lastGave
    · cases herr
  | error err =>
    rcases hconv with hconv | ⟨hnil, -⟩
    · obtain ⟨before, last, hlast, -, -, hretry⟩ := hconv.error
      refine .inr ⟨last, .context text (.embedding err), ?_, rfl, ?_, hstore⟩
      · rw [hlast, List.getLast?_concat]
      · rw [embeddingRetryAfterSecs_context, embeddingRetryAfterSecs_embedding, hretry]
    · refine .inl ?_
      rw [hnil]
      exact lastGave_nil

theorem ended_embedRows (document : Document) (rows : List DocumentEmbedding) (h : Untouched s S) :
    Task.Sat (site client net) (embedRows document model rows) (Ended net model s) S := by
  unfold embedRows
  refine ended_bind (calls_context (within_prepareEmbeddedChunks (fun _ => ⟨trivial, trivial, trivial⟩) _ _ _))
    h ?_
  intro prepared S h
  refine ended_answer _ h fun vectors => ?_
  split_ifs
  · exact Task.calls_fail
  · exact Task.calls_bind (calls_context (calls_connect trivial)) fun _ =>
      Task.calls_bind (Task.calls_ask trivial) fun _ => calls_context (calls_db trivial)

theorem ended_embedFile (document : Document) (h : Untouched s S) :
    Task.Sat (site client net) (embedFile E entry document model) (Ended net model s) S := by
  unfold embedFile
  refine ended_bind (calls_context (within_hashFile (fun _ => ⟨trivial, trivial, trivial⟩) _)) h ?_
  intro currentHash S h
  split_ifs
  · refine ended_silent ?_ (h.2 ▸ lastGave_nil)
    refine Task.calls_bind (calls_context (calls_connect trivial)) fun _ => ?_
    refine Task.calls_bind (calls_context (calls_db trivial)) fun _ => ?_
    refine Task.calls_bind (Task.calls_ask trivial) fun _ => calls_context ?_
    exact within_replanDocumentFromPath (fun _ => ⟨trivial, trivial, trivial⟩) (fun _ _ _ _ => trivial) _ _ _
  · refine ended_bind (calls_context (calls_connect trivial)) h ?_
    intro _ S h
    refine ended_bind (calls_db trivial) h ?_
    intro rows S h
    split_ifs
    · exact h.ended
    · exact ended_embedRows _ _ h

theorem ended_embedDocumentProcess {ingestModelId : ℤ} {payload : EmbedDocumentPayload}
    (hdecode : E.decodeEmbedPayload entry.payload = .ok payload)
    (hmodel : s.models.get? payload.modelId = some model) (h : Untouched s S) :
    Task.Sat (site client net) (embedDocumentProcess E ⟨entry, ingestModelId⟩) (Ended net model s) S := by
  unfold embedDocumentProcess
  dsimp only
  rw [hdecode]
  show Task.Sat (site client net) (context _ connect >>= _) _ S
  refine ended_bind (calls_context (calls_connect trivial)) h ?_
  intro _ S h
  refine ended_bind (calls_db trivial) h ?_
  intro found S h
  cases found with
  | none => exact ended_silent (calls_context (calls_db trivial)) (h.2 ▸ lastGave_nil)
  | some document =>
    dsimp only
    -- the model that is found is the payload's
    rw [Task.sat_bind, sat_db]
    rintro S₁ rfl answer S₂ hstep
    refine ⟨trivial, ?_⟩
    have hreads := hstep.reads (r := .db (.findModel payload.modelId)) trivial
    have h₂ : Untouched s S₂ := ⟨hreads.1.trans h.1, hreads.2.trans h.2⟩
    obtain ⟨found, rfl, hfound⟩ | ⟨-, err, rfl, -⟩ := hstep.1.1
    · obtain rfl : found = some model := by
        have hget := (Tx.ok_query.1 hfound).1
        rw [h.1] at hget
        exact (Except.ok.inj hget).symm.trans hmodel
      show Task.Sat (site client net) (tryMetadata document.filepath >>= _) _ S₂
      refine ended_bind (Task.calls_ask trivial) h₂ ?_
      intro found S h
      cases found with
      | ok _ => exact ended_embedFile document h
      | error err =>
        dsimp only
        split_ifs
        · refine ended_silent ?_ (h.2 ▸ lastGave_nil)
          exact Task.calls_bind (calls_context (calls_connect trivial)) fun _ =>
            calls_context (calls_db trivial)
        · exact h.ended
    · exact h₂.ended

/-! ## The end of a dispatch -/

/-- The rows are as they were.  After a failure that may pass, the job can be claimed again once the delay
    has gone by, if it could be put off. -/
def Postponed (entry : JobQueueEntry) (s : Store) (last : Exchange) (S : Site σ) : Prop :=
  if last.transient then
    (S.ledger.store = s ∧ ∃ ev, S.ledger.events.getLast? = some ev ∧ ev.failed = true) ∨
      ∃ (now : ℤ) (before : List Event),
        S.ledger.events = before ++
          [⟨.now, now⟩, ⟨.connect, .ok ()⟩, ⟨.db (.deferJob entry.id now 300), .ok ()⟩] ∧
        S.ledger.store = { s with jobs := deferJobForRetry s.jobs entry.id now 300 } ∧
        ∀ e ∈ S.ledger.store.jobs.rows, e.id = entry.id → ∀ t, e.claimable t = true ↔ now + 300 ≤ t
  else S.ledger.store = s

/-- How a dispatch ends when the provider fails: with the last exchange, or postponed by it. -/
def Concluded (net : Network σ) (model : EmbeddingModel) (entry : JobQueueEntry) (s : Store)
    (result : Except AnyError Unit) (S : Site σ) : Prop :=
  LastGave net model S.exchanges ∨ ∃ last err, S.exchanges.getLast? = some last ∧ result = .error err ∧
    Postponed entry s last S

theorem silent_finishJob (x : Except AnyError Unit) : Task.Calls Silent (finishJob entry x) := by
  cases x with
  | ok _ =>
    exact Task.calls_bind (calls_context (calls_connect trivial)) fun _ => calls_context (calls_db trivial)
  | error err =>
    unfold finishJob
    dsimp only
    cases embeddingRetryAfterSecs err with
    | none => exact Task.calls_fail
    | some r =>
      refine Task.calls_bind (Task.calls_ask trivial) fun _ => ?_
      refine Task.calls_bind ?_ fun _ => Task.calls_fail
      exact Task.calls_bind (calls_context (calls_connect trivial)) fun _ => calls_context (calls_db trivial)

theorem getLast?_of_step {r : Req} {a : r.Ans} (h : SiteStep client net S r a S') :
    S'.ledger.events.getLast? = some ⟨r, a⟩ := by
  rw [h.1.2, List.getLast?_concat]

/-- Putting the job off works, or the access fails that was made last. -/
theorem concluded_deferred {err : AnyError} {last : Exchange} (hlast : S.exchanges.getLast? = some last)
    (htransient : last.transient = true) (hs : S.ledger.store = s) :
    Task.Sat (site client net) (do
      let now ← unixNow
      deferJobRetry entry.id now transientRetryDelaySecs
      Task.fail err) (Concluded net model entry s) S := by
  have hfailed : ∀ {S' : Site σ} {e : AnyError} {ev : Event}, S'.exchanges.getLast? = some last →
      S'.ledger.store = s → S'.ledger.events.getLast? = some ev → ev.failed = true →
      Concluded net model entry s (.error e) S' := by
    intro S' e ev hlast hs hev hfailed
    refine .inr ⟨last, e, hlast, rfl, ?_⟩
    rw [Postponed, if_pos htransient]
    exact .inl ⟨hs, ev, hev, hfailed⟩
  rw [Task.sat_bind]
  rintro S₁ rfl now S₂ hnow
  refine ⟨trivial, ?_⟩
  have hs₂ : S₂.ledger.store = s := hnow.1.1.trans hs
  have hlast₂ : S₂.exchanges.getLast? = some last := by rw [hnow.silent (r := .now) trivial, hlast]
  show Task.Sat (site client net) (deferJobRetry entry.id now transientRetryDelaySecs >>= _) _ S₂
  rw [Task.sat_bind, deferJobRetry, Task.sat_bind, Act.context, Task.sat_mapError, sat_connect]
  rintro S₃ rfl answer S₄ hconnect
  refine ⟨trivial, ?_⟩
  have hs₄ : S₄.ledger.store = s := hconnect.1.1.1.trans hs₂
  have hlast₄ : S₄.exchanges.getLast? = some last := by rw [hconnect.silent (r := .connect) trivial, hlast₂]
  cases answer with
  | error e => exact hfailed hlast₄ hs₄ (getLast?_of_step hconnect) rfl
  | ok _ =>
    show Task.Sat (site client net) (context _ (db _)) _ S₄
    rw [Act.context, Task.sat_mapError, sat_db]
    rintro S₅ rfl answer S₆ hdefer
    refine ⟨trivial, ?_⟩
    have hlast₆ : S₆.exchanges.getLast? = some last := by
      rw [hdefer.silent (r := .db (.deferJob entry.id now transientRetryDelaySecs)) trivial, hlast₄]
    obtain ⟨v, rfl, hok⟩ | ⟨hstore, e, rfl, -⟩ := hdefer.1.1
    · have hstore := ok_exec_ok.1 hok
      rw [hs₄] at hstore
      refine .inr ⟨last, err, hlast₆, rfl, ?_⟩
      rw [Postponed, if_pos htransient]
      refine .inr ⟨now, S.ledger.events, ?_, hstore, ?_⟩
      · rw [hdefer.1.2, hconnect.1.2, hnow.1.2]
        simp [transientRetryDelaySecs]
      · intro e he hid t
        rw [hstore] at he
        obtain ⟨-, hne⟩ | ⟨e₀, -, -, rfl⟩ := mem_deferJobForRetry.1 he
        · exact absurd hid hne
        · rw [claimable_iff]
          simp only [Option.some.injEq, forall_eq']
          exact deferredClaimedAt_lt_iff
    · exact hfailed hlast₆ (hstore.trans hs₄) (getLast?_of_step hdefer) rfl

theorem concluded_finishJob {x : Except AnyError Unit} (h : Ended net model s x S) :
    Task.Sat (site client net) (finishJob entry x) (Concluded net model entry s) S := by
  rcases h with h | ⟨last, err, hlast, rfl, hretry, hs⟩
  · refine (sat_silent (silent_finishJob x) rfl).mono fun y S' h' => .inl ?_
    rw [h']
    exact h
  · unfold Exchange.retryAfterSecs at hretry
    unfold finishJob
    dsimp only
    rw [hretry]
    split_ifs with htransient
    · exact concluded_deferred hlast htransient hs
    · refine .inr ⟨last, _, hlast, rfl, ?_⟩
      rw [Postponed, if_neg htransient]
      exact hs

/-- **A provider that fails in the middle of a dispatch** changes no row: where the last of the exchanges did
    not give its vectors, the dispatch fails, and the database is as before it, but that after a failure
    that may pass the job is put off for five minutes.  It stays claimed where that cannot be stored, and
    after the other failures. -/
theorem outage_keeps_rows (client : HttpEmbeddingClient) (net : Network σ) (E : Env) (entry : JobQueueEntry)
    (modelId : ℤ) (s : Store) (n : σ) (payload : EmbedDocumentPayload) (model : EmbeddingModel)
    (result : Except AnyError Unit) (S : Site σ) (last : Exchange)
    (hty : entry.jobType = .embedDocument) (hdecode : E.decodeEmbedPayload entry.payload = .ok payload)
    (hmodel : s.models.get? payload.modelId = some model)
    (hrun : Proc.Runs (SiteStep client net) (dispatchJob E entry modelId) ⟨⟨s, []⟩, n, []⟩ result S)
    (hlast : S.exchanges.getLast? = some last) (hfails : ∀ vectors, ¬last.Gives net.decode model vectors) :
    (∃ err, result = .error err) ∧ Postponed entry s last S := by
  have hsat : Task.Sat (site client net) (dispatchJob E entry modelId) (Concluded net model entry s)
      ⟨⟨s, []⟩, n, []⟩ := by
    rw [dispatchJob_eq, hty, Task.sat_andThen]
    exact (ended_embedDocumentProcess hdecode hmodel ⟨rfl, rfl⟩).mono fun x S hx => concluded_finishJob hx
  have hend := (Proc.Runs.sat (C := site client net) (fun _ => rfl) (fun h => h) hrun hsat).2
  obtain hgood | ⟨last', err, hlast', hresult, hpost⟩ := hend
  · obtain ⟨vectors, hgives⟩ := hgood last hlast
    exact absurd hgives (hfails vectors)
  · obtain rfl := Option.some.inj (hlast'.symm.trans hlast)
    exact ⟨⟨err, hresult⟩, hpost⟩

/-! ## A run -/

/-- The outside, with the provider asked over the network. -/
def dial (o : Outside) (client : HttpEmbeddingClient) (net : Network σ) (S : Site σ) :
    (r : Req) → Option (r.Ans × Site σ)
  | .embed model inputs =>
    let out := client.embed net.logged model inputs (S.net, S.exchanges)
    some (out.1,
      ⟨⟨S.ledger.store, S.ledger.events ++ [⟨.embed model inputs, out.1⟩]⟩, out.2.1, out.2.2⟩)
  | r => (o.reply ⟨S.ledger.store, [], []⟩ r).map fun out =>
      (out.1, ⟨⟨out.2.store, S.ledger.events ++ [⟨r, out.1⟩]⟩, S.net, S.exchanges⟩)

theorem siteStep_reply (o : Outside) {r : Req} {out : r.Ans × Site σ} (hr : Silent r)
    (h : ((o.reply ⟨S.ledger.store, [], []⟩ r).map fun out =>
      (out.1, (⟨⟨out.2.store, S.ledger.events ++ [⟨r, out.1⟩]⟩, S.net, S.exchanges⟩ : Site σ))) = some out) :
    SiteStep client net S r out.1 out.2 := by
  obtain ⟨out', hreply, rfl⟩ := Option.map_eq_some_iff.1 h
  refine ⟨⟨faulty_of_answers (o.answers_of_reply hreply), rfl⟩, ?_⟩
  cases r with
  | embed => exact hr.elim
  | _ => exact ⟨rfl, rfl⟩

theorem siteStep_dial {o : Outside} (_ : ℕ) (S : Site σ) (r : Req) (out : r.Ans × Site σ)
    (h : dial o client net S r = some out) : SiteStep client net S r out.1 out.2 := by
  cases r with
  | embed model inputs =>
    cases h
    exact ⟨⟨rfl, rfl⟩, rfl⟩
  | _ => exact siteStep_reply o trivial h

/-- A provider that answers one request and is then unavailable. -/
def shortLived : Network ℕ where
  client := .ok ()
  send _ n :=
    (.ok ⟨if n = 0 then ⟨200, "200 OK"⟩ else ⟨503, "503 Service Unavailable"⟩, .ok ""⟩, n + 1)
  decode _ := .ok ⟨[⟨0, [7]⟩]⟩

/-- A client that sends each input by itself. -/
def oneAtATime : HttpEmbeddingClient := ⟨.tei "http://localhost:18080", 1, by decide⟩

/-- The dispatch of the sample job with this provider. -/
def outageRun : Option (Except AnyError Unit × Site ℕ) :=
  Proc.play (fun _ => dial (sampleOutside (some [0x61]) 20) oneAtATime shortLived)
    (dispatchJob sampleEnv sampleEntry 1) 0 ⟨⟨sampleStore, []⟩, 0, []⟩

theorem Exchange.Gives.not_transient {x : Exchange} {vectors : List Vector32}
    (h : x.Gives net.decode model vectors) : x.transient = false := by
  obtain ⟨response, body, decoded, hanswer, hstatus, htext, -⟩ := h
  unfold Exchange.transient
  rw [hanswer]
  unfold StatusCode.isSuccess at hstatus
  unfold StatusCode.isServerError
  simp at hstatus ⊢
  intro _ _
  omega

theorem outage_keeps_rows_short_lived :
    ∃ (result : Except AnyError Unit) (S : Site ℕ) (last : Exchange), S.exchanges.length = 2 ∧
      last.transient = true ∧ (∃ err, result = .error err) ∧ Postponed sampleEntry sampleStore last S := by
  have hrun : outageRun.any (fun out => out.2.exchanges.length == 2 &&
      out.2.exchanges.getLast?.any Exchange.transient) = true := by decide +kernel
  obtain ⟨⟨result, S⟩, hplay, hout⟩ := (Option.any_eq_true _ _).1 hrun
  rw [Bool.and_eq_true, beq_iff_eq] at hout
  obtain ⟨last, hlast, htransient⟩ := (Option.any_eq_true _ _).1 hout.2
  refine ⟨result, S, last, hout.1, htransient, outage_keeps_rows oneAtATime shortLived sampleEnv sampleEntry 1
    sampleStore 0 ⟨1, 1⟩ ⟨1, "m", 1, 4, 0, 0⟩ result S last rfl (by rfl) (by decide +kernel)
    (Proc.runs_play siteStep_dial hplay) hlast fun vectors hgives => ?_⟩
  rw [hgives.not_transient] at htransient
  cases htransient

end Ask
