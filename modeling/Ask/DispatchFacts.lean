/-
  What a dispatch asks of the database, and on what grounds.

  Between two accesses of a dispatch other workers may change the database, as
  far as a relation `R` allows; what a dispatch has read was true at some
  earlier moment (`Past`).
-/
import Ask.Worker

namespace Ask

open Lib Lib.OsStr Act

/-! ## The others -/

/-- What the others may do between two accesses of a dispatch. -/
structure Admissible (R : World → World → Prop) : Prop where
  refl : ∀ w, R w w
  trans : ∀ {w w' w''}, R w w' → R w' w'' → R w w''
  call : ∀ w c, R w { w with calls := c :: w.calls }
  models : ∀ {w w'}, R w w' → ∀ m ∈ w.store.models.rows, m ∈ w'.store.models.rows
  calls : ∀ {w w'}, R w w' → ∀ c ∈ w.calls, c ∈ w'.calls

/-- It was so at an earlier moment. -/
def Past (R : World → World → Prop) (P : World → Prop) (w : World) : Prop := ∃ w₀, R w₀ w ∧ P w₀

/-- What stays true whatever the others do. -/
def Stable (R : World → World → Prop) (I : World → Prop) : Prop := ∀ w w', R w w' → I w → I w'

section
variable {R : World → World → Prop}

theorem Admissible.past (hR : Admissible R) (P : World → Prop) : Stable R (Past R P) :=
  fun _ _ h ⟨w₀, h₀, hp⟩ => ⟨w₀, hR.trans h₀ h, hp⟩

theorem Admissible.model (hR : Admissible R) (m : EmbeddingModel) :
    Stable R fun w => m ∈ w.store.models.rows := fun _ _ h => hR.models h m

theorem Admissible.called (hR : Admissible R) (c : EmbedCall) :
    Stable R fun w => c ∈ w.calls := fun _ _ h => hR.calls h c

theorem Stable.and {I J : World → Prop} (hI : Stable R I) (hJ : Stable R J) :
    Stable R fun w => I w ∧ J w := fun w w' h hw => ⟨hI w w' h hw.1, hJ w w' h hw.2⟩

end

/-! ## The grounds of a write -/

section
variable (E : Env) (view : View) (mayFail : Prop) (R : World → World → Prop) (entry : JobQueueEntry)

/-- On what grounds the embed handler replaces the rows of a pair. -/
structure ReplaceFacts (w : World) (docId modelId : ℤ) (chunks : List EmbeddedChunk)
    (document : Document) (model : EmbeddingModel) (file : Bytes) (rows : List DocumentEmbedding)
    (prepared : List PreparedChunk) (vectors : List Vector32) : Prop where
  jobType : entry.jobType = .embedDocument
  payload : E.decodeEmbedPayload entry.payload = .ok ⟨docId, modelId⟩
  document_id : document.id = docId
  document_mem : Past R (fun w => document ∈ w.store.documents.rows) w
  model_id : model.id = modelId
  model_mem : model ∈ w.store.models.rows
  view_eq : view document.filepath = some file
  hash_eq : E.hash file = document.fileHash
  rows_ne : rows ≠ []
  rows_mem : Past R (fun w => ∀ r, r ∈ rows ↔ r ∈ w.store.embeddings.rows ∧
    r.pair = (docId, modelId) ∧ r.state ≠ .embedded) w
  prepares : prepareEmbeddedChunks document.filepath docId rows (fun budget =>
    (.ok (readContentPrefixWithBudget file budget) : Except AnyError _)) = .ok prepared
  call_mem : ⟨view, model, prepared.map (·.input), vectors⟩ ∈ w.calls
  length_eq : vectors.length = prepared.length
  chunks_eq : chunks = embeddedChunks prepared vectors

/-- The file is at a path that is recorded as this text. -/
def SeenAs (view : View) (text : String) (file : Bytes) : Prop :=
  ∃ path, (text = path ∨ text = toStringLossy path) ∧ view path = some file

/-- On what grounds a handler upserts a document: the file's hash and its plan. -/
structure UpsertFacts (w : World) (doc : Document) (modelId : ℤ) (chunks : List ChunkRef)
    (model : EmbeddingModel) (file : Bytes) (contentPlan : ContentReadPlan) : Prop where
  model_id : model.id = modelId
  model_mem : model ∈ w.store.models.rows
  seen : SeenAs view doc.filepath file
  hash_eq : doc.fileHash = E.hash file
  read : contentPlan = readContentPrefix file ∨ mayFail ∧ contentPlan = .filenameOnly
  chunks_eq : chunks = (planPendingEmbeddingsForReadPlan E.f64 contentPlan model).chunks

/-- Every access of a dispatch with what is known there. -/
def Grounds (w : World) : Req → Prop
  | .db (.completeJob jobId) => jobId = entry.id
  | .db (.deferJob jobId _ _) => jobId = entry.id
  | .db (.replaceEmbeddings docId modelId chunks _) =>
    ∃ document model file rows prepared vectors, ReplaceFacts E view R entry w docId modelId chunks
      document model file rows prepared vectors
  | .db (.upsertDocument doc modelId chunks _) =>
    ∃ model file contentPlan, UpsertFacts E view mayFail w doc modelId chunks model file contentPlan
  | _ => True

/-- A dispatch of `entry` that sees the files of `view`. -/
def dispatching : Setting World Req Req.Ans :=
  ⟨Answers view mayFail, R, fun w r _ _ => Grounds E view mayFail R entry w r⟩

end

/-! ## Rules -/

variable {E : Env} {view : View} {mayFail : Prop} {R : World → World → Prop} {entry : JobQueueEntry}
  {I J : World → Prop} {w : World} {α β : Type}

/-- The accesses are grounded, and `J` holds at the end, whatever the outcome. -/
abbrev Grounded (E : Env) (view : View) (mayFail : Prop) (R : World → World → Prop)
    (entry : JobQueueEntry) (J : World → Prop) (p : Act α) (w : World) : Prop :=
  Task.Sat (dispatching E view mayFail R entry) p (fun _ => J) w

/-- Every outcome of the program satisfies `V`. -/
abbrev Yields (E : Env) (view : View) (mayFail : Prop) (R : World → World → Prop)
    (entry : JobQueueEntry) (p : Act α) (V : Except AnyError α → Prop) : Prop :=
  ∀ w, Task.Sat (dispatching E view mayFail R entry) p (fun x _ => V x) w

theorem answers_file {r : Req} (hr : FileReq r) {a : r.Ans} {w w' : World}
    (h : Answers view mayFail w r a w') : w' = w ∨ ∃ c, w' = { w with calls := c :: w.calls } := by
  cases h.changes with
  | committed hok => exact hr.elim
  | called _ c => exact .inr ⟨c, rfl⟩
  | same => exact .inl rfl

theorem grounds_file {r : Req} (hr : FileReq r) {w : World} : Grounds E view mayFail R entry w r := by
  cases r with
  | db op => exact hr.elim
  | _ => trivial

/-- What the others leave, a part without database accesses leaves too. -/
theorem sat_file (hR : Admissible R) (hI : Stable R I) {p : Act α} (hp : Task.Calls FileReq p)
    (h : I w) : Task.Sat (dispatching E view mayFail R entry) p (fun _ => I) w :=
  Proc.Calls.sat hp hI (fun w r a w' hr hs hw => by
    refine ⟨grounds_file hr, ?_⟩
    obtain rfl | ⟨c, rfl⟩ := answers_file hr hs
    · exact hw
    · exact hI w _ (hR.call w c) hw) h

theorem yields_any {p : Act α} (hp : Task.Calls FileReq p) :
    Yields E view mayFail R entry p fun _ => True := fun _ =>
  Proc.Calls.sat (I := fun _ => True) hp (fun _ _ _ _ => trivial)
    (fun _ _ _ _ hr _ _ => ⟨grounds_file hr, trivial⟩) trivial

theorem yields_bind {p : Act α} {f : α → Act β} {V : Except AnyError α → Prop}
    {V' : Except AnyError β → Prop} (hp : Yields E view mayFail R entry p V)
    (hf : ∀ a, V (.ok a) → Yields E view mayFail R entry (f a) V')
    (he : ∀ e, V (.error e) → V' (.error e)) : Yields E view mayFail R entry (p >>= f) V' := by
  intro w
  rw [Task.sat_bind]
  refine (hp w).mono ?_
  intro x w hx
  cases x with
  | ok a => exact hf a hx w
  | error e => exact he e hx

/-- Go on after a part without database accesses. -/
theorem file_bind (hR : Admissible R) (hI : Stable R I) {p : Act α} {V : Except AnyError α → Prop}
    {f : α → Act β} (hJ : ∀ w, I w → J w) (hp : Task.Calls FileReq p)
    (hv : Yields E view mayFail R entry p V) (h : I w)
    (hf : ∀ a w, V (.ok a) → I w → Grounded E view mayFail R entry J (f a) w) :
    Grounded E view mayFail R entry J (p >>= f) w := by
  rw [Grounded, Task.sat_bind]
  refine ((sat_file hR hI hp h).and (hv w)).mono ?_
  intro x w hx
  cases x with
  | ok a => exact hf a w hx.2 hx.1
  | error e => exact hJ w hx.1

/-- The value comes from the file at `path`; there is an error only where there is none. -/
def FromFile (view : View) (mayFail : Prop) (path : String) (G : Bytes → α → Prop) :
    Except AnyError α → Prop
  | .ok a => ∃ file, view path = some file ∧ G file a
  | .error _ => view path = none ∨ mayFail

theorem yields_context {p : Act α} {V : Except AnyError α → Prop} {text : String}
    (hp : Yields E view mayFail R entry p V) (hV : ∀ e, V (.error e) → V (.error (.context text e))) :
    Yields E view mayFail R entry (context text p) V := by
  intro w
  rw [Act.context, Task.sat_mapError]
  refine (hp w).mono ?_
  intro x w hx
  cases x with
  | ok a => exact hx
  | error e => exact hV e hx

theorem fromFile_context {p : Act α} {path text : String} {G : Bytes → α → Prop}
    (hp : Yields E view mayFail R entry p (FromFile view mayFail path G)) :
    Yields E view mayFail R entry (context text p) (FromFile view mayFail path G) :=
  yields_context hp fun _ h => h

theorem yields_openFile (path : String) :
    Yields E view mayFail R entry (openFile path) (FromFile view mayFail path fun _ _ => True) := by
  rintro w w₁ - a w₂ ⟨rfl, ⟨file, hf, rfl⟩ | ⟨hno, e, rfl⟩⟩
  · exact ⟨trivial, file, hf, trivial⟩
  · exact ⟨trivial, hno⟩

theorem yields_readFile (path : String) :
    Yields E view mayFail R entry (readFile path) (FromFile view mayFail path fun file a => a = file) := by
  rintro w w₁ - a w₂ ⟨rfl, ⟨file, hf, rfl⟩ | ⟨hno, e, rfl⟩⟩
  · exact ⟨trivial, file, hf, rfl⟩
  · exact ⟨trivial, hno⟩

theorem yields_metadata (path : String) : Yields E view mayFail R entry (metadata path) fun x =>
    (∃ e, x = .error e) → view path = none ∨ mayFail := by
  rintro w w₁ - a w₂ ⟨rfl, ⟨file, m, hf, rfl, -⟩ | ⟨hnone, -⟩ | ⟨hfail, -⟩⟩
  · exact ⟨trivial, fun ⟨e, he⟩ => by cases he⟩
  · exact ⟨trivial, fun _ => .inl hnone⟩
  · exact ⟨trivial, fun _ => .inr hfail⟩

theorem yields_hashFile (path : String) : Yields E view mayFail R entry (hashFile E path)
    (FromFile view mayFail path fun file hash => hash = E.hash file) :=
  yields_bind (fromFile_context (yields_openFile path))
    (fun _ _ => yields_bind (fromFile_context (yields_readFile path))
      (fun _ ⟨file, hf, hb⟩ _ => ⟨file, hf, congrArg E.hash hb⟩) fun _ h => h) fun _ h => h

theorem yields_readPrefixWithBudget (path : String) (budget : ℕ) :
    Yields E view mayFail R entry (readPrefixWithBudget path budget)
      (FromFile view mayFail path fun file plan => plan = readContentPrefixWithBudget file budget) :=
  yields_bind (yields_context (yields_metadata path) fun e h _ => h ⟨e, rfl⟩)
    (fun _ _ => yields_bind (fromFile_context (yields_openFile path))
      (fun _ _ => yields_bind (fromFile_context (yields_readFile path))
        (fun _ ⟨file, hf, hb⟩ _ => ⟨file, hf, congrArg (readContentPrefixWithBudget · budget) hb⟩)
        fun _ h => h) fun _ h => h) fun e h => h ⟨e, rfl⟩

/-- Preparing reads the file of the view. -/
theorem yields_prepareEmbeddedChunks {path : String} {file : Bytes} (hfile : view path = some file)
    (docId : ℤ) (rows : List DocumentEmbedding) :
    Yields E view mayFail R entry (prepareEmbeddedChunks path docId rows (readPrefixWithBudget path))
      fun x => ∀ prepared, x = .ok prepared →
        prepareEmbeddedChunks path docId rows (fun budget =>
          (.ok (readContentPrefixWithBudget file budget) : Except AnyError _)) = .ok prepared := by
  refine yields_bind (V := fun x => ∀ content, x = .ok content →
      readContentFor rows (fun budget =>
        (.ok (readContentPrefixWithBudget file budget) : Except AnyError _)) = .ok content) ?_ ?_ ?_
  · unfold readContentFor
    cases maxContentEnd rows with
    | none => exact fun w content h => h
    | some m =>
      dsimp only
      refine yields_bind (V := fun x => x = usizeTryFrom m "content chunk_end must fit into usize")
        (fun _ => rfl) (fun n hn => ?_) fun e _ content h => by cases h
      rw [← hn]
      refine yields_bind (yields_readPrefixWithBudget path n) (fun plan hp w content h => ?_)
        fun e _ content h => by cases h
      obtain ⟨file', hf', rfl⟩ := hp
      rw [hfile] at hf'
      cases hf'
      exact h
  · intro content hc w prepared hp
    unfold prepareEmbeddedChunks
    rw [hc content rfl]
    exact hp
  · intro e _ prepared hp
    cases hp

/-! ## The handlers -/

theorem grounded_bind {p : Act α} {f : α → Act β} (hp : Grounded E view mayFail R entry J p w)
    (hf : ∀ a w, J w → Grounded E view mayFail R entry J (f a) w) :
    Grounded E view mayFail R entry J (p >>= f) w := by
  rw [Grounded, Task.sat_bind]
  refine hp.mono ?_
  intro x w hx
  cases x with
  | ok a => exact hf a w hx
  | error e => exact hx

theorem grounded_context {p : Act α} {text : String} (hp : Grounded E view mayFail R entry J p w) :
    Grounded E view mayFail R entry J (context text p) w := by
  rw [Grounded, Act.context, Task.sat_mapError]
  exact hp

/-- A database access whose result does not matter. -/
theorem grounded_db {op : DbReq} (hg : ∀ w₁, R w w₁ → Grounds E view mayFail R entry w₁ (.db op))
    (hJ : ∀ w₁, R w w₁ → J w₁ ∧ ∀ v store, op.run.Ok w₁.store v store →
      J { w₁ with store := store, planned := op.planned v ++ w₁.planned }) :
    Grounded E view mayFail R entry J (db op) w := by
  rw [Grounded, sat_db]
  rintro w₁ h₁ a w₂ (⟨v, store, rfl, hok, rfl⟩ | ⟨-, rfl, e, rfl, -⟩)
  · exact ⟨hg w₁ h₁, (hJ w₁ h₁).2 v store hok⟩
  · exact ⟨hg _ h₁, (hJ _ h₁).1⟩

/-- A read: what it returns was true at some moment, and the world is as it was. -/
theorem grounded_read {op : DbReq} {f : op.Val → Act β}
    (hg : ∀ w₁, Grounds E view mayFail R entry w₁ (.db op)) (hplanned : ∀ v, op.planned v = [])
    (hsame : ∀ {s v s'}, op.run.Ok s v s' → s' = s) (hJ : ∀ w₁, R w w₁ → J w₁)
    (hf : ∀ w₁, R w w₁ → ∀ v, op.run.Ok w₁.store v w₁.store →
      Grounded E view mayFail R entry J (f v) w₁) :
    Grounded E view mayFail R entry J (db op >>= f) w := by
  rw [Grounded, Task.sat_bind, sat_db]
  rintro w₁ h₁ a w₂ (⟨v, store, rfl, hok, rfl⟩ | ⟨-, rfl, e, rfl, -⟩)
  · obtain rfl := hsame hok
    rw [hplanned v]
    exact ⟨hg w₁, hf w₁ h₁ v hok⟩
  · exact ⟨hg _, hJ _ h₁⟩

/-- The document and the model as the embed handler loaded them. -/
def Loaded (R : World → World → Prop) (document : Document) (model : EmbeddingModel) (w : World) :
    Prop :=
  Past R (fun w => document ∈ w.store.documents.rows) w ∧ model ∈ w.store.models.rows

/-- And the rows it found to be embedded. -/
def Listed (R : World → World → Prop) (document : Document) (model : EmbeddingModel)
    (rows : List DocumentEmbedding) (w : World) : Prop :=
  Loaded R document model w ∧ Past R (fun w => ∀ r, r ∈ rows ↔ r ∈ w.store.embeddings.rows ∧
    r.pair = (document.id, model.id) ∧ r.state ≠ .embedded) w

variable (hR : Admissible R) {document : Document} {model : EmbeddingModel} {file : Bytes}
include hR

theorem stable_loaded : Stable R (Loaded R document model) := (hR.past _).and (hR.model model)

theorem stable_listed {rows : List DocumentEmbedding} : Stable R (Listed R document model rows) :=
  (stable_loaded hR).and (hR.past _)

theorem grounded_embedRows {rows : List DocumentEmbedding} (hty : entry.jobType = .embedDocument)
    (hpayload : E.decodeEmbedPayload entry.payload = .ok ⟨document.id, model.id⟩)
    (hfile : view document.filepath = some file) (hhash : E.hash file = document.fileHash)
    (hne : rows ≠ []) (h : Listed R document model rows w) :
    Grounded E view mayFail R entry (fun _ => True) (embedRows document model rows) w := by
  have hstable : Stable R (Listed R document model rows) := stable_listed hR
  refine file_bind hR hstable (fun _ _ => trivial) (calls_context (calls_prepareEmbeddedChunks _ _ _))
    (yields_context (yields_prepareEmbeddedChunks hfile document.id rows) fun e _ p hp => by cases hp)
    h ?_
  intro prepared w hprep h
  rw [Grounded, Task.sat_bind]
  rintro w₁ h₁ a w₂ (⟨vectors, rfl, rfl⟩ | ⟨rfl, e, rfl⟩)
  · refine ⟨trivial, ?_⟩
    have hlisted := hstable _ _ (hR.call w₁ ⟨view, model, prepared.map (·.input), vectors⟩)
      (hstable _ _ h₁ h)
    have hcalled := hstable.and (hR.called ⟨view, model, prepared.map (·.input), vectors⟩)
    show Grounded E view mayFail R entry _ (if vectors.length ≠ prepared.length then _ else _) _
    split_ifs with hlen
    · trivial
    · refine file_bind hR hcalled (fun _ _ => trivial) (calls_context (calls_connect trivial))
        (yields_any (calls_context (calls_connect trivial))) ⟨hlisted, List.mem_cons_self⟩ ?_
      intro _ w _ h
      refine file_bind hR hcalled (fun _ _ => trivial) (Task.calls_ask trivial)
        (yields_any (Task.calls_ask trivial)) h ?_
      intro now w _ h
      refine grounded_context (grounded_db (fun w₁ h₁ => ?_) fun _ _ => ⟨trivial, fun _ _ _ => trivial⟩)
      obtain ⟨⟨⟨hdoc, hmodel⟩, hrows⟩, hcall⟩ := hcalled _ _ h₁ h
      exact ⟨document, model, file, rows, prepared, vectors, hty, hpayload, rfl, hdoc, rfl, hmodel,
        hfile, hhash, hne, hrows, hprep prepared rfl, hcall, not_not.1 hlen, rfl⟩
  · exact ⟨trivial, trivial⟩

omit hR in
theorem models_of_ok {op : DbReq} {s s' : Store} {v : op.Val} (h : op.run.Ok s v s') :
    s'.models = s.models := by
  cases op with
  | findDocument | findModel | listRecoverable => exact (congrArg Store.models h.2).symm
  | completeJob | deferJob => rw [ok_exec_ok.1 h]
  | deleteDocument => rw [ok_deleteDocument h]
  | replaceEmbeddings => exact (ok_replaceEmbeddingsForDocumentModel h).models
  | upsertDocument =>
    obtain ⟨-, rfl, -⟩ | ⟨-, s₁, hi⟩ := ok_upsertDocumentAndReplacePendingEmbeddings h
    · rfl
    · exact hi.models

/-- An upsert of what was planned from the file. -/
theorem grounded_upsert {doc : Document} {now : ℤ} {contentPlan : ContentReadPlan}
    (hseen : SeenAs view doc.filepath file) (hhash : doc.fileHash = E.hash file)
    (hread : contentPlan = readContentPrefix file ∨ mayFail ∧ contentPlan = .filenameOnly)
    (h : model ∈ w.store.models.rows) :
    Grounded E view mayFail R entry (fun w => model ∈ w.store.models.rows)
      (db (.upsertDocument doc model.id
        (planPendingEmbeddingsForReadPlan E.f64 contentPlan model).chunks now)) w := by
  refine grounded_db (fun w₁ h₁ => ?_) fun w₁ h₁ => ⟨hR.models h₁ model h, fun v store hok => ?_⟩
  · exact ⟨model, file, contentPlan, rfl, hR.models h₁ model h, hseen, hhash, hread, rfl⟩
  · show model ∈ store.models.rows
    rw [models_of_ok hok]
    exact hR.models h₁ model h

theorem grounded_replanDocumentFromPath {now : ℤ} (h : model ∈ w.store.models.rows) :
    Grounded E view mayFail R entry (fun w => model ∈ w.store.models.rows)
      (replanDocumentFromPath E document model now) w := by
  refine file_bind hR (hR.model model) (fun _ h => h) (calls_context (calls_metadata _))
    (yields_any (calls_context (calls_metadata _))) h ?_
  intro metadata w _ h
  refine file_bind hR (hR.model model) (fun _ h => h) (calls_context (calls_hashFile E _))
    (fromFile_context (yields_hashFile _)) h ?_
  intro fileHash w hhash h
  refine file_bind hR (hR.model model) (fun _ h => h) (calls_context (calls_readPrefixWithBudget _ _))
    (fromFile_context (yields_readPrefixWithBudget _ _)) h ?_
  intro contentPlan w hplan h
  obtain ⟨file, hfile, rfl⟩ := hhash
  obtain ⟨file', hfile', rfl⟩ := hplan
  rw [hfile] at hfile'
  cases hfile'
  exact grounded_bind (grounded_upsert hR ⟨_, .inl rfl, hfile⟩ rfl (.inl rfl) h) fun _ w h => h

theorem grounded_embedFile (hty : entry.jobType = .embedDocument)
    (hpayload : E.decodeEmbedPayload entry.payload = .ok ⟨document.id, model.id⟩)
    (h : Loaded R document model w) :
    Grounded E view mayFail R entry (fun _ => True) (embedFile E entry document model) w := by
  have hstable : Stable R (Loaded R document model) := stable_loaded hR
  unfold embedFile
  refine file_bind hR hstable (fun _ _ => trivial) (calls_context (calls_hashFile E _))
    (fromFile_context (yields_hashFile _)) h ?_
  intro currentHash w hhash h
  obtain ⟨file, hfile, rfl⟩ := hhash
  have hconnect : ∀ (text : String) (f : Unit → Act Unit) (w : World), Loaded R document model w →
      (∀ w, Loaded R document model w → Grounded E view mayFail R entry (fun _ => True) (f ()) w) →
      Grounded E view mayFail R entry (fun _ => True) (context text connect >>= f) w :=
    fun text f w h hf => file_bind hR hstable (fun _ _ => trivial) (calls_context (calls_connect trivial))
      (yields_any (calls_context (calls_connect trivial))) h fun _ w _ h => hf w h
  split_ifs with hne
  · refine hconnect _ _ w h ?_
    intro w h
    refine Proc.Sat.mono (Q := fun _ w => model ∈ w.store.models.rows) ?_ fun _ _ _ => trivial
    refine grounded_bind (grounded_context (grounded_db (fun _ _ => rfl) fun w₁ h₁ =>
      ⟨hR.models h₁ model h.2, fun v store hok => ?_⟩)) fun _ w h => ?_
    · show model ∈ store.models.rows
      rw [models_of_ok hok]
      exact hR.models h₁ model h.2
    · refine file_bind hR (hR.model model) (fun _ h => h) (Task.calls_ask trivial)
        (yields_any (Task.calls_ask trivial)) h ?_
      intro now w _ h
      exact grounded_context (grounded_replanDocumentFromPath hR h)
  · refine hconnect _ _ w h ?_
    intro w h
    refine grounded_read (fun _ => trivial) (fun _ => rfl) (fun hok => hok.2.symm)
      (fun _ _ => trivial) ?_
    intro w₁ h₁ rows hok
    split_ifs with hnil
    · trivial
    · refine grounded_embedRows hR hty hpayload hfile (not_not.1 hne) hnil
        ⟨hstable _ _ h₁ h, w₁, hR.refl w₁, fun r => ?_⟩
      obtain ⟨hrows, -⟩ := Tx.ok_query.1 hok
      cases hrows
      simp

theorem grounded_embedDocumentProcess (hty : entry.jobType = .embedDocument) (ingestModelId : ℤ)
    (w : World) : Grounded E view mayFail R entry (fun _ => True)
      (embedDocumentProcess E ⟨entry, ingestModelId⟩) w := by
  unfold embedDocumentProcess
  have htrue : Stable R fun _ => True := fun _ _ _ _ => trivial
  refine file_bind hR htrue (fun _ _ => trivial) (calls_context Task.calls_ofExcept)
    (V := fun x => ∀ payload, x = .ok payload → E.decodeEmbedPayload entry.payload = .ok payload)
    (yields_context (V := fun x => ∀ payload, x = .ok payload →
      E.decodeEmbedPayload entry.payload = .ok payload) (fun _ _ h => h) fun _ _ _ h => by cases h)
    trivial ?_
  intro payload w hpayload _
  replace hpayload := hpayload payload rfl
  refine file_bind hR htrue (fun _ _ => trivial) (calls_context (calls_connect trivial))
    (yields_any (calls_context (calls_connect trivial))) trivial ?_
  intro _ w _ _
  refine grounded_read (fun _ => trivial) (fun _ => rfl) (fun hok => hok.2.symm)
    (fun _ _ => trivial) ?_
  intro w₁ h₁ found hfound
  cases found with
  | none =>
    exact grounded_context (grounded_db (fun _ _ => rfl) fun _ _ => ⟨trivial, fun _ _ _ => trivial⟩)
  | some document =>
    obtain ⟨hmem, hid⟩ := AutoTable.get?_eq_some.1 (Except.ok.inj (Tx.ok_query.1 hfound).1)
    refine grounded_read (fun _ => trivial) (fun _ => rfl) (fun hok => hok.2.symm)
      (fun _ _ => trivial) ?_
    intro w₂ h₂ found hfound
    have hpast : Past R (fun w => document ∈ w.store.documents.rows) w₂ := ⟨w₁, h₂, hmem⟩
    cases found with
    | none => trivial
    | some model =>
      obtain ⟨hmodel, hmid⟩ := AutoTable.get?_eq_some.1 (Except.ok.inj (Tx.ok_query.1 hfound).1)
      have hloaded : Loaded R document model w₂ := ⟨hpast, hmodel⟩
      have hstable : Stable R (Loaded R document model) := stable_loaded hR
      show Grounded E view mayFail R entry _ (tryMetadata document.filepath >>= _) w₂
      refine file_bind hR hstable (fun _ _ => trivial) (Task.calls_ask trivial)
        (yields_any (Task.calls_ask trivial)) hloaded ?_
      intro found w _ h
      cases found with
      | ok _ => exact grounded_embedFile hR hty (by rw [hpayload, hid, hmid]) h
      | error err =>
        dsimp only
        split_ifs
        · exact file_bind hR htrue (fun _ _ => trivial) (calls_context (calls_connect trivial))
            (yields_any (calls_context (calls_connect trivial))) trivial fun _ w _ _ =>
              grounded_context (grounded_db (fun _ _ => trivial) fun _ _ => ⟨trivial, fun _ _ _ => trivial⟩)
        · trivial

/-! Ingest: every part keeps the model registered. -/

theorem grounded_attempt {p : Act α} {G : Bytes → α → Prop} {path : String}
    {f : Except AnyError α → Act β} (hp : Task.Calls FileReq p)
    (hv : Yields E view mayFail R entry p (FromFile view mayFail path G))
    (h : model ∈ w.store.models.rows)
    (hf : ∀ x w, FromFile view mayFail path G x → model ∈ w.store.models.rows →
      Grounded E view mayFail R entry (fun w => model ∈ w.store.models.rows) (f x) w) :
    Grounded E view mayFail R entry (fun w => model ∈ w.store.models.rows) (attempt p >>= f) w := by
  rw [Grounded, Task.sat_bind, attempt, Task.sat_andThen]
  exact ((sat_file hR (hR.model model) hp h).and (hv w)).mono fun x w hx => hf x w hx.2 hx.1

theorem grounded_ingestFile {path : String} {metadata : Metadata} (h : model ∈ w.store.models.rows) :
    Grounded E view mayFail R entry (fun w => model ∈ w.store.models.rows)
      (ingestFile E path metadata model) w := by
  unfold ingestFile
  refine file_bind hR (hR.model model) (fun _ h => h) (Task.calls_ask trivial)
    (yields_any (Task.calls_ask trivial)) h ?_
  intro now w _ h
  refine grounded_attempt hR (calls_hashFile E path) (yields_hashFile path) h ?_
  intro hashed w hhash h
  cases hashed with
  | error e => exact h
  | ok fileHash =>
    obtain ⟨file, hfile, rfl⟩ := hhash
    refine grounded_attempt hR (calls_readPrefixWithBudget path _) (yields_readPrefixWithBudget path _)
      h ?_
    intro read w hread h
    refine file_bind hR (hR.model model) (fun _ h => h) (calls_context (calls_connect trivial))
      (yields_any (calls_context (calls_connect trivial))) h ?_
    intro _ w _ h
    refine grounded_bind (grounded_context (grounded_upsert hR ⟨path, .inr rfl, hfile⟩ rfl ?_ h)) fun _ w h => h
    cases read with
    | ok contentPlan =>
      obtain ⟨file', hfile', rfl⟩ := hread
      rw [hfile] at hfile'
      cases hfile'
      exact .inl rfl
    | error e =>
      obtain hnone | hfail := hread
      · rw [hfile] at hnone; cases hnone
      · exact .inr ⟨hfail, rfl⟩

theorem grounded_ingestCandidateFile {requestRoot path : String} {isMatch : String → Bool}
    {applyGitFilters : Bool} (h : model ∈ w.store.models.rows) :
    Grounded E view mayFail R entry (fun w => model ∈ w.store.models.rows)
      (ingestCandidateFile E requestRoot path isMatch model applyGitFilters) w := by
  unfold ingestCandidateFile
  split
  · exact h
  · split_ifs
    · exact h
    · exact h
    · refine file_bind hR (hR.model model) (fun _ h => h) (Task.calls_ask trivial)
        (yields_any (Task.calls_ask trivial)) h ?_
      intro canonical w _ h
      cases canonical with
      | error e => exact h
      | ok canonicalPath =>
        refine file_bind hR (hR.model model) (fun _ h => h) (Task.calls_ask trivial)
          (yields_any (Task.calls_ask trivial)) h ?_
        intro found w _ h
        cases found with
        | error e => exact h
        | ok metadata =>
          dsimp only
          split_ifs
          · exact h
          · exact grounded_ingestFile hR h

theorem grounded_ingestWalkRoot {requestRoot walkRoot : String} {isMatch : String → Bool}
    {skippedRoots : List String} {applyGitFilters : Bool} (h : model ∈ w.store.models.rows) :
    Grounded E view mayFail R entry (fun w => model ∈ w.store.models.rows)
      (ingestWalkRoot E requestRoot walkRoot isMatch model skippedRoots applyGitFilters) w := by
  refine file_bind hR (hR.model model) (fun _ h => h) (Task.calls_ask trivial)
    (yields_any (Task.calls_ask trivial)) h ?_
  intro walker w _ h
  refine Task.sat_each (fun visited _ w h => ?_) h
  unfold ingestWalkEntry
  split
  · exact h
  · split_ifs
    · exact grounded_ingestCandidateFile hR h
    · exact h

omit hR in
/-- The model that ingest plans for is a registered one. -/
theorem sat_loadIngestModel (ctx : JobContext) (w : World) :
    Task.Sat (dispatching E view mayFail R entry) (loadIngestModel ctx)
      (fun x w => ∀ model, x = .ok model → model ∈ w.store.models.rows) w := by
  unfold loadIngestModel
  rw [Task.sat_bind, Act.context, Task.sat_mapError, sat_connect]
  rintro w₁ - a w₂ -
  refine ⟨trivial, ?_⟩
  cases a with
  | error e => exact fun m hm => by cases hm
  | ok _ =>
    show Task.Sat _ (db (.findModel ctx.ingestModelId) >>= _) _ w₂
    rw [Task.sat_bind, sat_db]
    rintro w₃ - a w₄ (⟨found, store, rfl, hok, rfl⟩ | ⟨-, rfl, e, rfl, -⟩)
    · refine ⟨trivial, ?_⟩
      cases found with
      | none => exact fun m hm => by cases hm
      | some model =>
        intro m hm
        cases hm
        obtain ⟨hget, hst⟩ := Tx.ok_query.1 hok
        subst hst
        exact (AutoTable.get?_eq_some.1 (Except.ok.inj hget)).1
    · exact ⟨trivial, fun m hm => by cases hm⟩

/-- The start of an ingest finds the model; the rest keeps it registered. -/
theorem grounded_withIngestRoot {ctx : JobContext}
    {body : IngestFolderPayload → (String → Bool) → EmbeddingModel → Act Unit}
    (hbody : ∀ payload isMatch model w, model ∈ w.store.models.rows →
      Grounded E view mayFail R entry (fun w => model ∈ w.store.models.rows)
        (body payload isMatch model) w) (w : World) :
    Grounded E view mayFail R entry (fun _ => True) (withIngestRoot E ctx body) w := by
  have htrue : Stable R fun _ => True := fun _ _ _ _ => trivial
  refine file_bind hR htrue (fun _ _ => trivial) (calls_context Task.calls_ofExcept)
    (yields_any (calls_context Task.calls_ofExcept)) trivial ?_
  intro payload w _ _
  refine file_bind hR htrue (fun _ _ => trivial) (calls_context (calls_context Task.calls_ofExcept))
    (yields_any (calls_context (calls_context Task.calls_ofExcept))) trivial ?_
  intro isMatch w _ _
  refine file_bind hR htrue (fun _ _ => trivial) (Task.calls_ask trivial)
    (yields_any (Task.calls_ask trivial)) trivial ?_
  intro isDir w _ _
  split_ifs
  · trivial
  · rw [Grounded, Task.sat_bind]
    refine (sat_loadIngestModel ctx w).mono ?_
    intro x w hx
    cases x with
    | error e => trivial
    | ok model => exact (hbody payload isMatch model w (hx model rfl)).mono fun _ _ _ => trivial

theorem grounded_ingestFolderProcess (ctx : JobContext) (w : World) :
    Grounded E view mayFail R entry (fun _ => True) (ingestFolderProcess E ctx) w :=
  grounded_withIngestRoot hR (fun _ _ _ _ h => grounded_ingestWalkRoot hR h) w

theorem grounded_ingestFolderGitProcess (ctx : JobContext) (w : World) :
    Grounded E view mayFail R entry (fun _ => True) (ingestFolderGitProcess E ctx) w := by
  refine grounded_withIngestRoot hR (fun payload isMatch model w h => ?_) w
  refine file_bind hR (hR.model model) (fun _ h => h) (Task.calls_ask trivial)
    (yields_any (Task.calls_ask trivial)) h ?_
  intro answer w _ h
  refine file_bind hR (hR.model model) (fun _ h => h) (calls_context Task.calls_ofExcept)
    (yields_any (calls_context Task.calls_ofExcept)) h ?_
  intro plan w _ h
  refine grounded_bind (Task.sat_each (fun repoRoot _ w h => ?_) h) fun _ w h => ?_
  · refine file_bind hR (hR.model model) (fun _ h => h) (Task.calls_ask trivial)
      (yields_any (Task.calls_ask trivial)) h ?_
    intro answer w _ h
    refine file_bind hR (hR.model model) (fun _ h => h) (calls_context Task.calls_ofExcept)
      (yields_any (calls_context Task.calls_ofExcept)) h ?_
    intro tracked w _ h
    exact Task.sat_each (fun path _ w h => grounded_ingestCandidateFile hR h) h
  · split
    · exact grounded_ingestWalkRoot hR h
    · exact h

theorem grounded_process (modelId : ℤ) (w : World) :
    Grounded E view mayFail R entry (fun _ => True)
      ((resolveHandler E entry.jobType).process ⟨entry, modelId⟩) w := by
  cases hty : entry.jobType with
  | embedDocument => exact grounded_embedDocumentProcess hR hty modelId w
  | ingestFolder => exact grounded_ingestFolderProcess hR _ w
  | ingestFolderGit => exact grounded_ingestFolderGitProcess hR _ w

theorem grounded_finishJob (x : Except AnyError Unit) (w : World) :
    Grounded E view mayFail R entry (fun _ => True) (finishJob entry x) w := by
  have htrue : Stable R fun _ => True := fun _ _ _ _ => trivial
  have hconnect : ∀ {β : Type} (text : String) (f : Unit → Act β) (w : World),
      (∀ w, Grounded E view mayFail R entry (fun _ => True) (f ()) w) →
      Grounded E view mayFail R entry (fun _ => True) (context text connect >>= f) w :=
    fun text f w hf => file_bind hR htrue (fun _ _ => trivial) (calls_context (calls_connect trivial))
      (yields_any (calls_context (calls_connect trivial))) trivial fun _ w _ _ => hf w
  cases x with
  | ok _ =>
    exact hconnect _ _ w fun w => grounded_context
      (grounded_db (fun _ _ => rfl) fun _ _ => ⟨trivial, fun _ _ _ => trivial⟩)
  | error err =>
    cases hr : embeddingRetryAfterSecs err with
    | none =>
      simp only [finishJob, hr]
      trivial
    | some r =>
      simp only [finishJob, hr]
      refine file_bind hR htrue (fun _ _ => trivial) (Task.calls_ask trivial)
        (yields_any (Task.calls_ask trivial)) trivial ?_
      intro now w _ _
      refine grounded_bind (hconnect _ _ w fun w => grounded_context
        (grounded_db (fun _ _ => rfl) fun _ _ => ⟨trivial, fun _ _ _ => trivial⟩)) fun _ w _ => trivial

/-- **Every access of a dispatch is grounded**, whatever the others do in between. -/
theorem grounded_dispatchJob (modelId : ℤ) (w : World) :
    Grounded E view mayFail R entry (fun _ => True) (dispatchJob E entry modelId) w := by
  rw [dispatchJob_eq, Grounded, Task.sat_andThen]
  exact (grounded_process hR modelId w).mono fun x w _ => grounded_finishJob hR x w

end Ask
