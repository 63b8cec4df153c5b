/-
  How far the dispatch of an embed job has got.

  A dispatch has its last look at its pair when it finds no document, lists no
  pending or stale row, or commits what it has made of the pair.  It then only
  completes its job, whatever others do to the pair.
-/
import Ask.DispatchFacts

namespace Ask

open Lib Act

/-! ## Phases -/

/-- How far a dispatch of an embed job has got: it still has to look at its pair; it has found
    another hash recorded than that of the file at the path; it has removed its job's row to plan
    that file again; or it has had its last look. -/
inductive Phase where
  | working
  | outdated (path fileHash : String)
  | replanning (path fileHash : String)
  | settled
  deriving DecidableEq

/-- The phase after a database access that works. -/
def Phase.after (E : Env) (view : View) (phase : Phase) : (op : DbReq) → op.Val → Phase
  | .findDocument _, none => .settled
  | .findDocument _, some document =>
    match view document.filepath with
    | some file =>
      if E.hash file = document.fileHash then phase else .outdated document.filepath (E.hash file)
    | none => phase
  | .listRecoverable _ _, [] => .settled
  | .completeJob _, _ =>
    match phase with
    | .outdated path fileHash => .replanning path fileHash
    | _ => phase
  | .deleteDocument _, _ => .settled
  | .replaceEmbeddings _ _ _ _, _ => .settled
  | .upsertDocument _ _ _ _, _ => .settled
  | _, _ => phase

/-- The phase after an access. -/
def Phase.next (E : Env) (view : View) (phase : Phase) : (r : Req) → r.Ans → Phase
  | .db op, .ok v => phase.after E view op v
  | _, _ => phase

/-- What a dispatch of a job of the pair asks in a phase. -/
def Asks (p : Pair) (phase : Phase) : Req → Prop
  | .db (.findDocument docId) => docId = p.1
  | .db (.listRecoverable docId modelId) => (docId, modelId) = p
  | .db (.deleteDocument docId) => docId = p.1
  | .db (.replaceEmbeddings docId modelId _ _) => (docId, modelId) = p
  | .db (.upsertDocument doc _ _ _) => phase = .replanning doc.filepath doc.fileHash
  | _ => True

/-- The phases of a dispatch that sees the files of `view`, where no database access fails. -/
def phased (E : Env) (view : View) (p : Pair) : Setting Phase Req Req.Ans where
  step phase r a phase' := phase' = phase.next E view r a ∧ ∃ w w', Answers view False w r a w'
  rely phase phase' := phase' = phase
  guar phase r _ _ := Asks p phase r

/-- A program that ends well has settled. -/
abbrev Settles (E : Env) (view : View) (p : Pair) {α : Type} (prog : Act α) (phase : Phase) : Prop :=
  Task.Sat (phased E view p) prog (fun x phase => ∀ a, x = .ok a → phase = .settled) phase

/-! ## Rules -/

variable {E : Env} {view : View} {p : Pair} {phase : Phase} {entry : JobQueueEntry} {α β : Type}

/-- Every outcome of the program on the files of `view` satisfies `V`. -/
abbrev Returns (E : Env) (view : View) (prog : Act α) (V : Except AnyError α → Prop) : Prop :=
  Yields E view False (fun _ _ => True) ⟨0, .embedDocument, "", none, 0⟩ prog V

theorem next_file {r : Req} (hr : FileReq r) (a : r.Ans) : phase.next E view r a = phase := by
  cases r with
  | db op => exact hr.elim
  | _ => rfl

/-- An answer that does not come from the database may come in any world. -/
theorem answers_anywhere {r : Req} (hr : FileReq r) {a : r.Ans} {w₁ w₂ : World}
    (h : Answers view False w₁ r a w₂) (w : World) : ∃ w', Answers view False w r a w' := by
  cases r with
  | db op => exact hr.elim
  | embed model inputs =>
    obtain ⟨vectors, rfl, -⟩ | ⟨-, he⟩ := h
    · exact ⟨_, .inl ⟨vectors, rfl, rfl⟩⟩
    · exact ⟨w, .inr ⟨rfl, he⟩⟩
  | connect | metadata | openFile | readFile | gitPlan | trackedFiles => exact ⟨w, rfl, h.2⟩
  | isDir | canonicalize | walk | now => exact ⟨w, rfl⟩

/-- A part without database accesses leaves the phase. -/
theorem phased_file {prog : Act α} {V : Except AnyError α → Prop} (hp : Task.Calls FileReq prog)
    {w : World} (hv : Task.Sat (dispatching E view False (fun _ _ => True) entry) prog
      (fun x _ => V x) w) :
    Task.Sat (phased E view p) prog (fun x phase' => V x ∧ phase' = phase) phase := by
  unfold Task.Sat at hv ⊢
  unfold Task.Calls at hp
  induction prog generalizing w with
  | ret x => exact ⟨hv, rfl⟩
  | call r k ih =>
    rintro _ rfl a _ ⟨rfl, w₁, w₂, ha⟩
    obtain ⟨w', ha'⟩ := answers_anywhere hp.1 ha w
    rw [next_file hp.1]
    refine ⟨?_, ih a (hp.2 a) (hv w trivial a w' ha').2⟩
    cases r with
    | db op => exact hp.1.elim
    | _ => trivial

theorem settles_file_bind {prog : Act α} {f : α → Act β} {V : Except AnyError α → Prop}
    (hp : Task.Calls FileReq prog) (hv : Returns E view prog V)
    (hf : ∀ a, V (.ok a) → Settles E view p (f a) phase) : Settles E view p (prog >>= f) phase := by
  rw [Settles, Task.sat_bind]
  refine (phased_file hp (hv ⟨.empty, [], []⟩)).mono ?_
  rintro (e | a) phase' ⟨hx, rfl⟩
  · intro b hb
    cases hb
  · exact hf a hx

/-- Go on after a part whose outcome does not matter. -/
theorem settles_step {prog : Act α} {f : α → Act β} (hp : Task.Calls FileReq prog)
    (hf : ∀ a, Settles E view p (f a) phase) : Settles E view p (prog >>= f) phase :=
  settles_file_bind hp (yields_any hp) fun a _ => hf a

theorem settles_fail {e : AnyError} : Settles E view p (Task.fail e : Act α) phase := fun _ h => by
  cases h

/-- A program that fails at last may end in any phase. -/
theorem settles_bind_fail {prog : Act α} {P : Req → Prop} {e : AnyError} (hp : Task.Calls P prog)
    (hP : ∀ r phase, P r → Asks p phase r) :
    Settles E view p (prog >>= fun _ => (Task.fail e : Act β)) phase := by
  rw [Settles, Task.sat_bind]
  refine (Proc.Calls.sat (I := fun _ => True) hp (fun _ _ _ _ => trivial)
    (fun _ r _ _ hr _ _ => ⟨hP r _ hr, trivial⟩) trivial).mono ?_
  rintro (e' | a) phase' -
  · intro b hb
    cases hb
  · exact fun b hb => by cases hb

theorem settles_context {prog : Act α} {text : String} (h : Settles E view p prog phase) :
    Settles E view p (context text prog) phase := by
  rw [Settles, Act.context, Task.sat_mapError]
  refine h.mono ?_
  rintro (e | a) phase' hx
  · intro b hb
    cases hb
  · exact hx

theorem settles_db_bind {op : DbReq} {f : op.Val → Act β} (ha : Asks p phase (.db op))
    (hf : ∀ v s s', op.run.Ok s v s' → Settles E view p (f v) (phase.after E view op v)) :
    Settles E view p (db op >>= f) phase := by
  rw [Settles, Task.sat_bind, sat_db]
  rintro _ rfl a _ ⟨rfl, w, w', ⟨v, store, rfl, hok, -⟩ | ⟨hfail, -⟩⟩
  · exact ⟨ha, hf v w.store store hok⟩
  · exact hfail.elim

theorem settles_context_db_bind {op : DbReq} {text : String} {f : op.Val → Act β}
    (ha : Asks p phase (.db op))
    (hf : ∀ v s s', op.run.Ok s v s' → Settles E view p (f v) (phase.after E view op v)) :
    Settles E view p (context text (db op) >>= f) phase := by
  rw [Settles, Task.sat_bind, Act.context, Task.sat_mapError, sat_db]
  rintro _ rfl a _ ⟨rfl, w, w', ⟨v, store, rfl, hok, -⟩ | ⟨hfail, -⟩⟩
  · exact ⟨ha, hf v w.store store hok⟩
  · exact hfail.elim

/-- A last access of the database. -/
theorem settles_db {op : DbReq} (ha : Asks p phase (.db op))
    (hf : ∀ v, phase.after E view op v = .settled) : Settles E view p (db op) phase := by
  rw [Settles, sat_db]
  rintro _ rfl a _ ⟨rfl, w, w', ⟨v, store, rfl, -⟩ | ⟨hfail, -⟩⟩
  · exact ⟨ha, fun _ _ => hf v⟩
  · exact hfail.elim

/-! ## The embed handler -/

variable {document : Document} {model : EmbeddingModel} {file : Bytes}

theorem settles_embedRows {rows : List DocumentEmbedding} (hp : (document.id, model.id) = p) :
    Settles E view p (embedRows document model rows) phase := by
  refine settles_step (calls_context (calls_prepareEmbeddedChunks _ _ _)) fun prepared => ?_
  refine settles_step (Task.calls_ask trivial) fun answer => ?_
  refine settles_step (calls_context Task.calls_ofExcept) fun vectors => ?_
  split_ifs
  · exact settles_fail
  · refine settles_step (calls_context (calls_connect trivial)) fun _ => ?_
    refine settles_step (Task.calls_ask trivial) fun now => ?_
    exact settles_context (settles_db hp fun _ => rfl)

/-- The replan writes the hash of the file that the dispatch sees. -/
theorem settles_replanDocumentFromPath {now : ℤ} (hfile : view document.filepath = some file)
    (hphase : phase = .replanning document.filepath (E.hash file)) :
    Settles E view p (replanDocumentFromPath E document model now) phase := by
  refine settles_step (calls_context (calls_metadata _)) fun metadata => ?_
  refine settles_file_bind (calls_context (calls_hashFile E _)) (fromFile_context (yields_hashFile _))
    fun fileHash hhash => ?_
  obtain ⟨file', hfile', rfl⟩ := hhash
  obtain rfl : file = file' := Option.some.inj (hfile.symm.trans hfile')
  refine settles_step (calls_context (calls_readPrefixWithBudget _ _)) fun contentPlan => ?_
  exact settles_db_bind hphase fun _ _ _ _ _ _ => rfl

theorem settles_embedFile (hp : (document.id, model.id) = p)
    (hphase : ∀ file, view document.filepath = some file → phase =
      if E.hash file = document.fileHash then .working else .outdated document.filepath (E.hash file)) :
    Settles E view p (embedFile E entry document model) phase := by
  refine settles_file_bind (calls_context (calls_hashFile E _)) (fromFile_context (yields_hashFile _))
    fun currentHash hhash => ?_
  obtain ⟨file, hfile, rfl⟩ := hhash
  replace hphase := hphase file hfile
  split_ifs with hne
  · rw [if_neg hne] at hphase
    subst hphase
    refine settles_step (calls_context (calls_connect trivial)) fun _ => ?_
    refine settles_context_db_bind trivial fun _ _ _ _ => ?_
    refine settles_step (Task.calls_ask trivial) fun now => ?_
    exact settles_context (settles_replanDocumentFromPath hfile rfl)
  · refine settles_step (calls_context (calls_connect trivial)) fun _ => ?_
    refine settles_db_bind hp fun rows s s' _ => ?_
    split_ifs with hnil
    · subst hnil
      exact fun _ _ => rfl
    · exact settles_embedRows hp

theorem settles_embedDocumentProcess (modelId : ℤ)
    (hp : ∀ payload, E.decodeEmbedPayload entry.payload = .ok payload →
      (payload.documentId, payload.modelId) = p) :
    Settles E view p (embedDocumentProcess E ⟨entry, modelId⟩) .working := by
  refine settles_file_bind (calls_context Task.calls_ofExcept)
    (yields_context (V := fun x => ∀ payload, x = .ok payload →
      E.decodeEmbedPayload entry.payload = .ok payload) (fun _ _ h => h) fun _ _ _ h => by cases h)
    fun payload hpayload => ?_
  obtain rfl := hp payload (hpayload payload rfl)
  refine settles_step (calls_context (calls_connect trivial)) fun _ => ?_
  refine settles_db_bind rfl fun found s s' hfound => ?_
  cases found with
  | none => exact settles_context (settles_db trivial fun _ => rfl)
  | some document =>
    obtain ⟨-, hid⟩ := AutoTable.get?_eq_some.1 (Except.ok.inj (Tx.ok_query.1 hfound).1)
    refine settles_db_bind trivial fun found s s' hfound => ?_
    cases found with
    | none => exact settles_fail
    | some model =>
      obtain ⟨-, hmid⟩ := AutoTable.get?_eq_some.1 (Except.ok.inj (Tx.ok_query.1 hfound).1)
      show Settles E view _ (tryMetadata document.filepath >>= _) _
      refine settles_step (Task.calls_ask trivial) fun found => ?_
      cases found with
      | ok metadata =>
        refine settles_embedFile (by rw [hid, hmid]) fun file hfile => ?_
        simp only [Phase.after, hfile]
      | error err =>
        dsimp only
        split_ifs
        · refine settles_step (calls_context (calls_connect trivial)) fun _ => ?_
          exact settles_context (settles_db hid fun _ => rfl)
        · exact settles_context settles_fail

/-- **The dispatch of an embed job goes through the phases**: what it looks at and what it writes is
    its pair, an upsert is the replan of the outdated document, and it ends well only when it has
    settled. -/
theorem settles_dispatchJob (hty : entry.jobType = .embedDocument) (modelId : ℤ)
    (hp : ∀ payload, E.decodeEmbedPayload entry.payload = .ok payload →
      (payload.documentId, payload.modelId) = p) :
    Settles E view p (dispatchJob E entry modelId) .working := by
  rw [dispatchJob_eq, hty, Settles, Task.sat_andThen]
  refine (settles_embedDocumentProcess modelId hp).mono ?_
  rintro (err | _) phase' hx
  · cases hr : embeddingRetryAfterSecs err with
    | none =>
      simp only [finishJob, hr]
      exact settles_fail
    | some secs =>
      simp only [finishJob, hr]
      refine settles_step (Task.calls_ask trivial) fun now => ?_
      refine settles_bind_fail (P := fun r => ∀ phase, Asks p phase r) ?_ fun _ _ h => h _
      exact Task.calls_bind (calls_context (calls_connect fun _ => trivial)) fun _ =>
        calls_context (calls_db fun _ => trivial)
  · rw [hx () rfl]
    refine settles_step (calls_context (calls_connect trivial)) fun _ => ?_
    exact settles_context (settles_db trivial fun _ => rfl)

end Ask
