/-
  A failed dispatch keeps the job, unless it failed after the handler took the
  job off the queue itself.
-/
import Ask.Lease
import Ask.Oracle

namespace Ask

open Lib Act

/-! ## Runs in which anything may fail -/

/-- A request and its answer. -/
abbrev Event := (r : Req) × r.Ans

/-- The event removes the job from the queue. -/
def Event.removes (jobId : ℤ) : Event → Bool
  | ⟨.db (.completeJob id), .ok _⟩ => decide (id = jobId)
  | _ => false

/-- Whether an access failed. -/
def Event.failed : Event → Bool
  | ⟨.connect, .error _⟩ => true
  | ⟨.db _, .error _⟩ => true
  | ⟨.metadata _, .error _⟩ => true
  | ⟨.openFile _, .error _⟩ => true
  | ⟨.readFile _, .error _⟩ => true
  | ⟨.canonicalize _, .error _⟩ => true
  | ⟨.gitPlan _, .error _⟩ => true
  | ⟨.trackedFiles _, .error _⟩ => true
  | ⟨.embed _ _, .error _⟩ => true
  | _ => false

/-- The store and what was asked and answered so far. -/
structure Ledger where
  store : Store
  events : List Event

/-- Any database access works or fails with nothing changed; the others answer anything. -/
def Faulty (s : Store) : (r : Req) → r.Ans → Store → Prop
  | .db op, a, s' =>
    (∃ v, a = .ok v ∧ op.run.Ok s v s') ∨ s' = s ∧ ∃ e, a = .error e ∧ e.Plain
  | .connect, a, s' => s' = s ∧ ∀ e, a = .error e → e.Plain
  | .gitPlan _, a, s' => s' = s ∧ ∀ e, a = .error e → e.Plain
  | .trackedFiles _, a, s' => s' = s ∧ ∀ e, a = .error e → e.Plain
  | _, _, s' => s' = s

/-- An access, failing or not, and its entry in the ledger. -/
def FaultyStep (L : Ledger) (r : Req) (a : r.Ans) (L' : Ledger) : Prop :=
  Faulty L.store r a L'.store ∧ L'.events = L.events ++ [⟨r, a⟩]

/-- No access fails after the dispatch has removed its job from the queue. -/
def NoFailureAfterRemoval (jobId : ℤ) (events : List Event) : Prop :=
  events.Pairwise fun earlier later => earlier.removes jobId = true → later.failed = false

/-- What a dispatch leaves of its job. -/
def Kept (entry : JobQueueEntry) (result : Except AnyError Unit) (L : Ledger) : Prop :=
  match result with
  | .ok () => ∀ e ∈ L.store.jobs.rows, e.id ≠ entry.id
  | .error err =>
    match embeddingRetryAfterSecs err with
    | none => entry ∈ L.store.jobs.rows
    | some r => ∃ (now c : ℤ) (before : List Event),
        L.events = before ++
          [⟨.now, now⟩, ⟨.connect, .ok ()⟩, ⟨.db (.deferJob entry.id now r), .ok ()⟩] ∧
        { entry with claimedAt := some c } ∈ L.store.jobs.rows ∧
        ∀ t, { entry with claimedAt := some c }.claimable t = true ↔ now + min (r : ℤ) 86400 ≤ t

/-! ## The phases of a dispatch -/

/-- A dispatch of which anything may fail. -/
def faulty : Setting Ledger Req Req.Ans := ⟨FaultyStep, Eq, fun _ _ _ _ => True⟩

/-- The job is in the queue as it was claimed. -/
def Held (entry : JobQueueEntry) (L : Ledger) : Prop :=
  entry ∈ L.store.jobs.rows ∧ ∀ ev ∈ L.events, ev.removes entry.id = false

/-- The dispatch has removed the job. -/
def Gone (entry : JobQueueEntry) (L : Ledger) : Prop :=
  (∀ e ∈ L.store.jobs.rows, e.id ≠ entry.id) ∧ entry.id ≤ L.store.jobs.seq ∧
    ∃ ev ∈ L.events, ev.removes entry.id = true

/-- The job was removed, and no access after that failed. -/
def Removed (entry : JobQueueEntry) (L : Ledger) : Prop :=
  Gone entry L ∧ NoFailureAfterRemoval entry.id L.events

/-- The job was removed, and an access after that failed. -/
def Broken (entry : JobQueueEntry) (L : Ledger) : Prop :=
  Gone entry L ∧ ¬NoFailureAfterRemoval entry.id L.events

variable {E : Env} {entry : JobQueueEntry} {L L' : Ledger} {α β : Type}

theorem noFailureAfterRemoval_append {id : ℤ} {events : List Event} {ev : Event} :
    NoFailureAfterRemoval id (events ++ [ev]) ↔
      NoFailureAfterRemoval id events ∧
        ((∃ earlier ∈ events, earlier.removes id = true) → ev.failed = false) := by
  rw [NoFailureAfterRemoval, List.pairwise_append]
  constructor
  · rintro ⟨h, -, hlast⟩
    exact ⟨h, fun ⟨e, he, hr⟩ => hlast e he ev (by simp) hr⟩
  · rintro ⟨h, hlast⟩
    refine ⟨h, by simp, fun e he ev' hev' hr => ?_⟩
    rw [List.mem_singleton.1 hev']
    exact hlast ⟨e, he, hr⟩

theorem Held.noFailure (h : Held entry L) : NoFailureAfterRemoval entry.id L.events :=
  List.pairwise_of_forall_mem_list fun ev hev _ _ hr => by rw [h.2 ev hev] at hr; cases hr

/-- Requests that leave the job in the queue alone. -/
def LeavesJob (entry : JobQueueEntry) : Req → Prop
  | .db (.completeJob _) => False
  | .db (.deferJob _ _ _) => False
  | .db (.upsertDocument _ _ _ _) => entry.jobType ≠ .embedDocument
  | _ => True

/-- What a database access that works does to the queue. -/
theorem jobs_of_ok {op : DbReq} {s s' : Store} {v : op.Val} (h : op.run.Ok s v s') :
    s'.jobs = s.jobs ∨ (∃ id, op = .completeJob id ∧ s'.jobs = completeJob s.jobs id) ∨
      (∃ id now r, op = .deferJob id now r ∧ s'.jobs = deferJobForRetry s.jobs id now r) ∨
      (∃ doc m chunks now, op = .upsertDocument doc m chunks now) ∧ Seeded s.jobs s'.jobs := by
  cases op with
  | findDocument | findModel | listRecoverable => exact .inl (congrArg Store.jobs h.2).symm
  | completeJob id =>
    obtain rfl := ok_exec_ok.1 h
    exact .inr (.inl ⟨id, rfl, rfl⟩)
  | deferJob id now r =>
    obtain rfl := ok_exec_ok.1 h
    exact .inr (.inr (.inl ⟨id, now, r, rfl, rfl⟩))
  | deleteDocument => exact .inl (by rw [ok_deleteDocument h])
  | replaceEmbeddings => exact .inl (ok_replaceEmbeddingsForDocumentModel h).jobs
  | upsertDocument doc m chunks now =>
    obtain ⟨-, rfl, -⟩ | ⟨-, s₁, hi⟩ := ok_upsertDocumentAndReplacePendingEmbeddings h
    · exact .inl rfl
    · exact .inr (.inr (.inr ⟨⟨doc, m, chunks, now, rfl⟩, hi.seeded⟩))

/-- What an answer does to the queue: nothing, unless a database access worked. -/
theorem jobs_of_faulty {s s' : Store} {r : Req} {a : r.Ans} (h : Faulty s r a s') :
    s'.jobs = s.jobs ∨ (∃ id, r = .db (.completeJob id) ∧ s'.jobs = completeJob s.jobs id) ∨
      (∃ id now n, r = .db (.deferJob id now n) ∧ s'.jobs = deferJobForRetry s.jobs id now n) ∨
      (∃ doc m chunks now, r = .db (.upsertDocument doc m chunks now)) ∧ Seeded s.jobs s'.jobs := by
  cases r with
  | db op =>
    obtain ⟨v, -, hok⟩ | ⟨rfl, -⟩ := h
    · simpa using jobs_of_ok hok
    · exact .inl rfl
  | connect | gitPlan | trackedFiles => exact .inl (by rw [h.1])
  | _ => exact .inl (congrArg Store.jobs h)

theorem removes_of_leavesJob {r : Req} {a : r.Ans} (h : LeavesJob entry r) (id : ℤ) :
    Event.removes id ⟨r, a⟩ = false := by
  unfold Event.removes
  split
  · rename_i heq
    cases heq; exact h.elim
  · rfl

theorem Held.step {r : Req} {a : r.Ans} (hr : LeavesJob entry r) (hs : FaultyStep L r a L')
    (h : Held entry L) : Held entry L' := by
  refine ⟨?_, fun ev hev => ?_⟩
  · rcases jobs_of_faulty hs.1 with
      hj | ⟨id, rfl, -⟩ | ⟨id, now, n, rfl, -⟩ | ⟨⟨doc, m, chunks, now, rfl⟩, hj⟩
    · rw [hj]; exact h.1
    · exact hr.elim
    · exact hr.elim
    · exact hj.other entry h.1 hr
  · rw [hs.2] at hev
    rcases List.mem_append.1 hev with hev | hev
    · exact h.2 ev hev
    · rw [List.mem_singleton.1 hev]; exact removes_of_leavesJob hr _

/-- A removed job does not come back: ids are not used again. -/
theorem Gone.step {r : Req} {a : r.Ans} (hs : FaultyStep L r a L') (h : Gone entry L) :
    Gone entry L' := by
  obtain ⟨hne, hle, ev, hev, hrem⟩ := h
  have hev' : ∃ ev ∈ L'.events, ev.removes entry.id = true :=
    ⟨ev, by rw [hs.2]; exact List.mem_append_left _ hev, hrem⟩
  rcases jobs_of_faulty hs.1 with hj | ⟨id, -, hj⟩ | ⟨id, now, n, -, hj⟩ | ⟨-, hj⟩
  · exact ⟨by rwa [hj], by rwa [hj], hev'⟩
  · refine ⟨fun e he => ?_, by rwa [hj], hev'⟩
    rw [hj, mem_completeJob] at he
    exact hne e he.1
  · refine ⟨fun e he => ?_, by rwa [hj], hev'⟩
    rw [hj, mem_deferJobForRetry] at he
    obtain ⟨he, -⟩ | ⟨e₀, he₀, -, rfl⟩ := he
    · exact hne e he
    · exact hne e₀ he₀
  · refine ⟨fun e he hid => ?_, hle.trans hj.seq_le, hev'⟩
    obtain ⟨e₀, he₀, hid₀, -⟩ := hj.old e he (hid ▸ hle)
    exact hne e₀ he₀ (hid₀.trans hid)

theorem Removed.step {r : Req} {a : r.Ans} (hs : FaultyStep L r a L') (h : Removed entry L) :
    if Event.failed ⟨r, a⟩ = true then Broken entry L' else Removed entry L' := by
  have hgone := h.1.step hs
  have happ : NoFailureAfterRemoval entry.id L'.events ↔ NoFailureAfterRemoval entry.id L.events ∧
      ((∃ earlier ∈ L.events, earlier.removes entry.id = true) → Event.failed ⟨r, a⟩ = false) := by
    rw [hs.2]; exact noFailureAfterRemoval_append
  split_ifs with hf
  · exact ⟨hgone, fun hno => by rw [(happ.1 hno).2 h.1.2.2] at hf; cases hf⟩
  · exact ⟨hgone, happ.2 ⟨h.2, fun _ => by simpa using hf⟩⟩

/-! ## What a handler leaves -/

/-- The job is there, or it was removed and no access failed since; an error after the
    removal comes from an access that failed. -/
def After (entry : JobQueueEntry) : Except AnyError α → Ledger → Prop
  | .ok _, L => Held entry L ∨ Removed entry L
  | .error e, L => Held entry L ∨ Broken entry L ∧ e.Plain

/-- The job is there, whatever the outcome. -/
abbrev Leaves (entry : JobQueueEntry) (p : Act α) : Prop := Task.Calls (LeavesJob entry) p

theorem Leaves.held {p : Act α} (hp : Leaves entry p) (h : Held entry L) :
    Task.Sat faulty p (fun _ => Held entry) L :=
  Proc.Calls.sat hp (fun _ _ he h => he ▸ h) (fun _ _ _ _ hr hs h => ⟨trivial, h.step hr hs⟩) h

/-- Go on after a part that leaves the job alone. -/
theorem after_bind {p : Act α} {f : α → Act β} (hp : Leaves entry p) (h : Held entry L)
    (hf : ∀ a L, Held entry L → Task.Sat faulty (f a) (After entry) L) :
    Task.Sat faulty (p >>= f) (After entry) L := by
  rw [Task.sat_bind]
  refine (hp.held h).mono ?_
  intro x L hL
  cases x with
  | ok a => exact hf a L hL
  | error e => exact .inl hL

theorem Leaves.after {p : Act α} (hp : Leaves entry p) (h : Held entry L) :
    Task.Sat faulty p (After entry) L := by
  refine (hp.held h).mono ?_
  intro x L hL
  cases x <;> exact .inl hL

/-- After the removal the program fails only where an access fails. -/
def Steady (entry : JobQueueEntry) (p : Act α) : Prop :=
  ∀ L, Removed entry L → Task.Sat faulty p (fun x L =>
    match x with
    | .ok _ => Removed entry L
    | .error e => Broken entry L ∧ e.Plain) L

theorem steady_pure (a : α) : Steady entry (pure a) := fun _ h => h

theorem Steady.bind {p : Act α} {f : α → Act β} (hp : Steady entry p) (hf : ∀ a, Steady entry (f a)) :
    Steady entry (p >>= f) := by
  intro L h
  rw [Task.sat_bind]
  refine (hp L h).mono ?_
  intro x L hx
  cases x with
  | ok a => exact hf a L hx
  | error e => exact hx

theorem Steady.context {p : Act α} (hp : Steady entry p) (text : String) :
    Steady entry (context text p) := by
  intro L h
  rw [Act.context, Task.sat_mapError]
  refine (hp L h).mono ?_
  intro x L hx
  cases x with
  | ok a => exact hx
  | error e => exact ⟨hx.1, hx.2.context text⟩

/-- A request with its answer turned into the program's outcome. -/
theorem steady_request {r : Req} {f : r.Ans → Except AnyError α}
    (hf : ∀ {s a s'}, Faulty s r a s' →
      match f a with
      | .ok _ => Event.failed ⟨r, a⟩ = false
      | .error e => Event.failed ⟨r, a⟩ = true ∧ e.Plain) :
    Steady entry (do let a ← ask r; Task.ofExcept (f a)) := by
  intro L h
  rintro L₁ rfl a L₂ hs
  refine ⟨trivial, ?_⟩
  show Proc.Sat faulty (Proc.ret (f a)) _ L₂
  have hstep := h.step hs
  have hout := hf hs.1
  cases hfa : f a with
  | ok b =>
    rw [hfa] at hout
    rw [if_neg (by simp [hout])] at hstep
    exact hstep
  | error e =>
    rw [hfa] at hout
    exact ⟨by simpa [hout.1] using hstep, hout.2⟩

theorem steady_connect : Steady entry connect :=
  steady_request fun {_ a _} h => by
    cases a with
    | ok => rfl
    | error e => exact ⟨rfl, h.2 e rfl⟩

theorem steady_db (op : DbReq) : Steady entry (db op) :=
  steady_request fun {_ a _} h => by
    cases a with
    | ok => rfl
    | error e =>
      obtain ⟨v, hv, -⟩ | ⟨-, e', he', hplain⟩ := h
      · cases hv
      · cases he'; exact ⟨rfl, hplain⟩

theorem steady_openFile (path : String) : Steady entry (openFile path) :=
  steady_request fun {_ a _} _ => by
    cases a with
    | ok => rfl
    | error e => exact ⟨rfl, AnyError.plain_msg _⟩

theorem steady_readFile (path : String) : Steady entry (readFile path) :=
  steady_request fun {_ a _} _ => by
    cases a with
    | ok => rfl
    | error e => exact ⟨rfl, AnyError.plain_msg _⟩

theorem steady_metadata (path : String) : Steady entry (metadata path) :=
  steady_request fun {_ a _} _ => by
    cases a with
    | ok => rfl
    | error e => exact ⟨rfl, AnyError.plain_msg _⟩

theorem steady_unixNow : Steady entry unixNow := by
  rintro L h L₁ rfl a L₂ hs
  have hstep := h.step hs
  rw [if_neg (by simp [Event.failed])] at hstep
  exact ⟨trivial, hstep⟩

theorem steady_hashFile (path : String) : Steady entry (hashFile E path) :=
  ((steady_openFile path).context _).bind fun _ =>
    ((steady_readFile path).context _).bind fun _ => steady_pure _

theorem steady_readPrefix (path : String) : Steady entry (readPrefix path) :=
  ((steady_metadata path).context _).bind fun _ => ((steady_openFile path).context _).bind fun _ =>
    ((steady_readFile path).context _).bind fun _ => steady_pure _

theorem steady_replanDocumentFromPath (doc : Document) (model : EmbeddingModel) (now : ℤ) :
    Steady entry (replanDocumentFromPath E doc model now) :=
  ((steady_metadata _).context _).bind fun _ => ((steady_hashFile _).context _).bind fun _ =>
    ((steady_readPrefix _).context _).bind fun _ => (steady_db _).bind fun _ => steady_pure _

/-- Removing the job: an error leaves it there. -/
theorem sat_completeJob (text : String) (h : Held entry L) :
    Task.Sat faulty (context text (db (.completeJob entry.id))) (fun x L =>
      match x with
      | .ok _ => Removed entry L
      | .error e => Held entry L ∧ e.Plain) L := by
  rw [Act.context, Task.sat_mapError, sat_db]
  rintro L₁ rfl a L₂ ⟨hs, hev⟩
  refine ⟨trivial, ?_⟩
  obtain ⟨v, rfl, hok⟩ | ⟨hst, e, rfl, he⟩ := hs
  · have hst := ok_exec_ok.1 hok
    refine ⟨⟨fun e he => ?_, ?_, ⟨.db (.completeJob entry.id), .ok v⟩, ?_, by simp [Event.removes]⟩, ?_⟩
    · rw [hst] at he; exact (mem_completeJob.1 he).2
    · rw [hst]; exact L.store.jobs.le_seq entry h.1
    · rw [hev]; simp
    · rw [hev, noFailureAfterRemoval_append]
      exact ⟨h.noFailure, fun _ => rfl⟩
  · refine ⟨⟨by rw [hst]; exact h.1, fun ev hev' => ?_⟩, he.context text⟩
    rw [hev] at hev'
    rcases List.mem_append.1 hev' with hev' | hev'
    · exact h.2 ev hev'
    · rw [List.mem_singleton.1 hev']; rfl

/-! ## The handlers -/

theorem Leaves.context {p : Act α} (hp : Leaves entry p) (text : String) :
    Leaves entry (context text p) := Task.calls_mapError hp

theorem leaves_of_file {r : Req} (h : FileReq r) : LeavesJob entry r := by
  cases r <;> first | exact h.elim | trivial

theorem leaves_connect : Leaves entry connect := calls_connect trivial

theorem leaves_hashFile (path : String) : Leaves entry (hashFile E path) :=
  (calls_hashFile E path).mono fun _ => leaves_of_file

theorem leaves_embedRows (document : Document) (model : EmbeddingModel)
    (rows : List DocumentEmbedding) : Leaves entry (embedRows document model rows) :=
  (calls_embedRows document model rows).mono fun r hr => by
    cases r with
    | db op => cases op <;> first | exact hr.elim | trivial
    | _ => trivial

theorem leaves_ingest (hty : entry.jobType ≠ .embedDocument) {p : Act Unit}
    (hp : Task.Calls IngestReq p) : Leaves entry p :=
  hp.mono fun r hr => by
    cases r with
    | db op =>
      cases op with
      | upsertDocument => exact hty
      | _ => first | exact hr.elim | trivial
    | _ => trivial

/-- The embed handler, up to its outcome. -/
theorem after_embedFile (document : Document) (model : EmbeddingModel) (h : Held entry L) :
    Task.Sat faulty (embedFile E entry document model) (After entry) L := by
  unfold embedFile
  refine after_bind ((leaves_hashFile _).context _) h ?_
  intro currentHash L h
  split_ifs with hhash
  · refine after_bind (leaves_connect.context _) h ?_
    intro _ L h
    rw [Task.sat_bind]
    refine (sat_completeJob _ h).mono ?_
    intro x L hx
    cases x with
    | error e => exact .inl hx.1
    | ok _ =>
      refine (steady_unixNow.bind (f := fun now => context _ (replanDocumentFromPath E document model now))
        (fun now => (steady_replanDocumentFromPath _ _ _).context _) L hx).mono ?_
      intro x L hx
      cases x with
      | ok _ => exact .inr hx
      | error e => exact .inr hx
  · refine after_bind (leaves_connect.context _) h ?_
    intro _ L h
    refine after_bind (calls_db trivial) h ?_
    intro rows L h
    split_ifs
    · exact .inl h
    · exact (leaves_embedRows _ _ _).after h

theorem after_embedDocumentProcess {ingestModelId : ℤ} (h : Held entry L) :
    Task.Sat faulty (embedDocumentProcess E ⟨entry, ingestModelId⟩) (After entry) L := by
  unfold embedDocumentProcess
  refine after_bind (Task.calls_mapError Task.calls_ofExcept) h ?_
  intro payload L h
  refine after_bind (leaves_connect.context _) h ?_
  intro _ L h
  refine after_bind (calls_db trivial) h ?_
  intro found L h
  cases found with
  | none =>
    refine (sat_completeJob _ h).mono ?_
    intro x L hx
    cases x with
    | ok _ => exact .inr hx
    | error e => exact .inl hx.1
  | some document =>
    refine after_bind (calls_db trivial) h ?_
    intro found L h
    refine after_bind (calls_someOr _ _) h ?_
    intro model L h
    refine after_bind (Task.calls_ask trivial) h ?_
    intro found L h
    cases found with
    | ok m => exact after_embedFile document model h
    | error err =>
      dsimp only
      split_ifs
      · refine after_bind (leaves_connect.context _) h ?_
        intro _ L h
        exact (Leaves.context (p := db (.deleteDocument document.id)) (calls_db trivial) _).after h
      · exact .inl h

theorem after_process (modelId : ℤ) (h : Held entry L) :
    Task.Sat faulty ((resolveHandler E entry.jobType).process ⟨entry, modelId⟩) (After entry) L := by
  cases hty : entry.jobType with
  | embedDocument => exact after_embedDocumentProcess h
  | ingestFolder =>
    exact (leaves_ingest (by simp [hty]) (calls_ingestFolderProcess E _)).after h
  | ingestFolderGit =>
    exact (leaves_ingest (by simp [hty]) (calls_ingestFolderGitProcess E _)).after h

/-! ## Runs with one failure -/

/-- The outside, with the access number `failsAt` failing where it is one to the database. -/
def locked (o : Outside) (failsAt : Option ℕ) (n : ℕ) (L : Ledger) (r : Req) :
    Option (r.Ans × Ledger) :=
  match r with
  | .db op =>
    if some n = failsAt then
      some (.error (.msg "database is locked"),
        ⟨L.store, L.events ++ [⟨.db op, .error (.msg "database is locked")⟩]⟩)
    else (o.reply ⟨L.store, [], []⟩ (.db op)).map fun out =>
      (out.1, ⟨out.2.store, L.events ++ [⟨.db op, out.1⟩]⟩)
  | r => (o.reply ⟨L.store, [], []⟩ r).map fun out => (out.1, ⟨out.2.store, L.events ++ [⟨r, out.1⟩]⟩)

theorem faulty_of_answers {view : View} {mayFail : Prop} {w w' : World} {r : Req} {a : r.Ans}
    (h : Answers view mayFail w r a w') : Faulty w.store r a w'.store := by
  cases r with
  | db op =>
    obtain ⟨v, s, rfl, hok, rfl⟩ | ⟨-, rfl, he⟩ := h
    · exact .inl ⟨v, rfl, hok⟩
    · exact .inr ⟨rfl, he⟩
  | connect =>
    obtain ⟨rfl, rfl | ⟨-, e, rfl, he⟩⟩ := h
    · exact ⟨rfl, fun e he => by cases he⟩
    · exact ⟨rfl, fun e' he' => by cases he'; exact he⟩
  | embed model inputs =>
    obtain ⟨v, -, rfl⟩ | ⟨rfl, -⟩ := h <;> rfl
  | gitPlan | trackedFiles => obtain ⟨rfl, h⟩ := h; exact ⟨rfl, h⟩
  | metadata | openFile | readFile | canonicalize => obtain ⟨rfl, -⟩ := h; rfl
  | isDir | walk | now => obtain rfl := h; rfl

theorem faultyStep_locked {o : Outside} {failsAt : Option ℕ} (n : ℕ) (L : Ledger) (r : Req)
    (out : r.Ans × Ledger) (h : locked o failsAt n L r = some out) :
    FaultyStep L r out.1 out.2 := by
  have hreply : ∀ out', (o.reply ⟨L.store, [], []⟩ r = some out') →
      FaultyStep L r out'.1 ⟨out'.2.store, L.events ++ [⟨r, out'.1⟩]⟩ := fun out' h' =>
    ⟨faulty_of_answers (o.answers_of_reply h'), rfl⟩
  unfold locked at h
  split at h
  · split_ifs at h
    · cases h
      exact ⟨.inr ⟨rfl, _, rfl, AnyError.plain_msg _⟩, rfl⟩
    · obtain ⟨out', ho, rfl⟩ := Option.map_eq_some_iff.1 h
      exact hreply out' ho
  · obtain ⟨out', ho, rfl⟩ := Option.map_eq_some_iff.1 h
    exact hreply out' ho

theorem runs_locked {o : Outside} {failsAt : Option ℕ} {p : Act α} {out : Except AnyError α × Ledger}
    (h : Proc.play (locked o failsAt) p 0 L = some out) : Proc.Runs FaultyStep p L out.1 out.2 :=
  Proc.runs_play faultyStep_locked h

/-! ## The law -/

/-- The job is kept exactly if no access failed after the removal. -/
def Settled (entry : JobQueueEntry) (result : Except AnyError Unit) (L : Ledger) : Prop :=
  Kept entry result L ↔ NoFailureAfterRemoval entry.id L.events

theorem Held.settled (h : Held entry L) {e : AnyError} (he : embeddingRetryAfterSecs e = none) :
    Settled entry (.error e) L := by
  simp only [Settled, Kept, he]
  exact iff_of_true h.1 h.noFailure

theorem Removed.settled (h : Removed entry L) : Settled entry (.ok ()) L :=
  iff_of_true h.1.1 h.2

theorem Broken.settled (h : Broken entry L) {e : AnyError} (he : e.Plain) :
    Settled entry (.error e) L := by
  simp only [Settled, Kept, he.retry]
  exact iff_of_false (fun hmem => h.1.1 entry hmem rfl) h.2

/-- A connection, or an error that leaves everything as it is. -/
theorem held_connect (text : String) (h : Held entry L) :
    Task.Sat faulty (context text connect) (fun x L' =>
      match x with
      | .ok _ => Held entry L' ∧ L'.store = L.store ∧ L'.events = L.events ++ [⟨.connect, .ok ()⟩]
      | .error e => Held entry L' ∧ e.Plain) L := by
  rw [Act.context, Task.sat_mapError, sat_connect]
  rintro L₁ rfl a L₂ hs
  refine ⟨trivial, ?_⟩
  have h₂ : Held entry L₂ := h.step (r := .connect) trivial hs
  cases a with
  | ok u => exact ⟨h₂, hs.1.1, hs.2⟩
  | error e => exact ⟨h₂, (hs.1.2 e rfl).context text⟩

theorem sat_completeJobAct (h : Held entry L ∨ Removed entry L) :
    Task.Sat faulty (completeJobAct entry.id) (Settled entry) L := by
  unfold completeJobAct
  rw [Task.sat_bind]
  rcases h with h | h
  · refine (held_connect _ h).mono ?_
    intro x L hx
    cases x with
    | error e => exact hx.1.settled hx.2.retry
    | ok _ =>
      refine (sat_completeJob _ hx.1).mono ?_
      intro x L hx
      cases x with
      | ok _ => exact hx.settled
      | error e => exact hx.1.settled hx.2.retry
  · refine (steady_connect.context _ L h).mono ?_
    intro x L hx
    cases x with
    | error e => exact hx.1.settled hx.2
    | ok _ =>
      refine ((steady_db _).context _ L hx).mono ?_
      intro x L hx
      cases x with
      | ok _ => exact hx.settled
      | error e => exact hx.1.settled hx.2

/-- Putting the job off: it becomes claimable after the delay, or stays as it was claimed. -/
theorem sat_deferred {err : AnyError} {r : ℕ} (h : Held entry L)
    (hr : embeddingRetryAfterSecs err = some r) (text : String) :
    Task.Sat faulty (do
      let now ← unixNow
      deferJobRetry entry.id now r
      Task.fail (.context text err)) (Settled entry) L := by
  rw [Task.sat_bind]
  rintro L₁ rfl now L₂ hnow
  have h₂ : Held entry L₂ := h.step (r := .now) trivial hnow
  refine ⟨trivial, ?_⟩
  show Task.Sat faulty (deferJobRetry entry.id now r >>= _) _ L₂
  rw [Task.sat_bind, deferJobRetry, Task.sat_bind]
  refine (held_connect _ h₂).mono ?_
  intro x L₃ hx
  cases x with
  | error e => exact hx.1.settled hx.2.retry
  | ok _ =>
    obtain ⟨h₃, -, hev₃⟩ := hx
    rw [Task.rest_ok, Act.context, Task.sat_mapError, sat_db]
    rintro L₄ rfl a L₅ ⟨hs, hev⟩
    refine ⟨trivial, ?_⟩
    have hstay : (∀ ev ∈ L₅.events, ev.removes entry.id = false) := by
      intro ev hev'
      rw [hev] at hev'
      rcases List.mem_append.1 hev' with hev' | hev'
      · exact h₃.2 ev hev'
      · rw [List.mem_singleton.1 hev']; rfl
    obtain ⟨v, rfl, hok⟩ | ⟨hst, e, rfl, he⟩ := hs
    · have hst := ok_exec_ok.1 hok
      show Settled entry (.error (.context text err)) L₅
      simp only [Settled, Kept, embeddingRetryAfterSecs_context, hr]
      refine iff_of_true ⟨now, deferredClaimedAt now r, L.events, ?_, ?_, fun t => ?_⟩
        (List.pairwise_of_forall_mem_list fun ev hev _ _ hrem => by rw [hstay ev hev] at hrem; cases hrem)
      · rw [hev, hev₃, hnow.2]; simp
      · rw [hst]
        exact mem_deferJobForRetry.2 (.inr ⟨entry, h₃.1, rfl, rfl⟩)
      · rw [claimable_iff]
        simp only [Option.some.injEq, forall_eq']
        exact deferredClaimedAt_lt_iff
    · refine Held.settled (L := L₅) ⟨by rw [hst]; exact h₃.1, hstay⟩ ?_
      simpa using he.retry

theorem sat_finishJob {x : Except AnyError Unit} (h : After entry x L) :
    Task.Sat faulty (finishJob entry x) (Settled entry) L := by
  cases x with
  | ok _ => exact sat_completeJobAct h
  | error err =>
    cases hr : embeddingRetryAfterSecs err with
    | some r =>
      simp only [finishJob, hr]
      obtain h | ⟨-, hplain⟩ := h
      · exact sat_deferred h hr _
      · rw [hplain.retry] at hr; cases hr
    | none =>
      simp only [finishJob, hr]
      obtain h | ⟨h, hplain⟩ := h
      · exact h.settled (by simpa using hr)
      · exact h.settled (hplain.context _)

/-- **A failed dispatch keeps the job** exactly if no access fails after the dispatch has
    removed the job from the queue itself. -/
theorem dispatch_keeps_job (E : Env) (entry : JobQueueEntry) (modelId : ℤ) (s : Store)
    (result : Except AnyError Unit) (L : Ledger) (hentry : entry ∈ s.jobs.rows)
    (h : Proc.Runs FaultyStep (dispatchJob E entry modelId) ⟨s, []⟩ result L) :
    Kept entry result L ↔ NoFailureAfterRemoval entry.id L.events := by
  have hsat : Task.Sat faulty (dispatchJob E entry modelId) (Settled entry) ⟨s, []⟩ := by
    rw [dispatchJob_eq, Task.sat_andThen]
    exact (after_process modelId ⟨hentry, by simp⟩).mono fun x L hx => sat_finishJob hx
  exact (Proc.Runs.sat (C := faulty) (fun _ => rfl) (fun h => h) h hsat).2

/-- The dispatch of the sample job after `/r/f` was rewritten, with one failure. -/
def replanRun (failsAt : Option ℕ) : Option (Except AnyError Unit × Ledger) :=
  Proc.play (locked (sampleOutside (some [0x62]) 20) failsAt) (dispatchJob sampleEnv sampleEntry 1) 0
    ⟨sampleStore, []⟩

/-- A dispatch without a failure: the job is gone, and nothing failed after its removal. -/
theorem dispatch_keeps_job_replanned :
    ∃ L, Kept sampleEntry (.ok ()) L ∧ NoFailureAfterRemoval sampleEntry.id L.events := by
  have hrun : (replanRun none).any (fun out => out.1.isOk &&
      decide (∀ e ∈ out.2.store.jobs.rows, e.id ≠ sampleEntry.id)) = true := by decide +kernel
  obtain ⟨⟨result, L⟩, hplay, hout⟩ := (Option.any_eq_true _ _).1 hrun
  rw [Bool.and_eq_true, decide_eq_true_eq] at hout
  cases result with
  | error e => cases hout.1
  | ok u =>
    exact ⟨L, hout.2, (dispatch_keeps_job sampleEnv sampleEntry 1 sampleStore (.ok ()) L
      (by decide +kernel) (runs_locked hplay)).1 hout.2⟩

/-- A dispatch whose replan finds the database locked: the job is gone although it failed. -/
theorem failed_replan_loses_job :
    ¬∀ (E : Env) (entry : JobQueueEntry) (modelId : ℤ) (s : Store) (result : Except AnyError Unit)
      (L : Ledger), entry ∈ s.jobs.rows →
        Proc.Runs FaultyStep (dispatchJob E entry modelId) ⟨s, []⟩ result L → Kept entry result L := by
  intro hall
  have hrun : (replanRun (some 15)).any (fun out =>
      match out.1 with
      | .ok _ => false
      | .error e => decide (embeddingRetryAfterSecs e = none) &&
        decide (sampleEntry ∉ out.2.store.jobs.rows)) = true := by decide +kernel
  obtain ⟨⟨result, L⟩, hplay, hout⟩ := (Option.any_eq_true _ _).1 hrun
  have hkept := hall sampleEnv sampleEntry 1 sampleStore result L (by decide +kernel)
    (runs_locked hplay)
  cases result with
  | ok u => cases hout
  | error e =>
    simp only [Bool.and_eq_true, decide_eq_true_eq] at hout
    simp only [Kept, hout.1] at hkept
    exact hout.2 hkept

end Ask
