/-
  Several workers over one database, interleaved at their accesses.

  A dispatch takes one request at a time, while other workers claim jobs and
  take theirs; each dispatch sees its own version of the files.
-/
import Ask.History
import Ask.Phase

namespace Ask

open Lib

/-! ## The system -/

/-- A dispatch of a worker: its job, the files as it sees them, how far it has got and what is left
    of it. -/
structure Dispatch where
  entry : JobQueueEntry
  view : View
  phase : Phase
  rest : Proc Req Req.Ans (Except AnyError Unit)

/-- The dispatch has not ended. -/
def Dispatch.active (t : Dispatch) : Bool :=
  match t.rest with
  | .call _ _ => true
  | .ret _ => false

/-- The request that comes next. -/
def Dispatch.next? (t : Dispatch) : Option Req :=
  match t.rest with
  | .call r _ => some r
  | .ret _ => none

/-- The world and the dispatches under way. -/
structure System where
  world : World
  dispatches : List Dispatch

/-- The database. -/
def System.store (sys : System) : Store := sys.world.store

/-- No worker has begun. -/
def System.start (s : Store) : System := ⟨⟨s, [], []⟩, []⟩

/-- What may happen next: an enqueue, a claim, an access of a dispatch. -/
inductive SystemOp where
  | enqueue (jobType : JobType) (payload : String) (now : ℤ)
  | claim (view : View) (modelId now : ℤ)
  | access (i : ℕ)
  | markStale (docIds : List ℤ) (now : ℤ)

/-- One step: an enqueue, a worker claims a job, a worker takes its next request, or documents are
    marked stale.  Only with `mayFail` an access fails or a dispatch ends with an error. -/
inductive SystemStep (E : Env) (mayFail : Prop) : System → SystemOp → System → Prop
  | enqueue {w : World} {ts : List Dispatch} {s' : Store} {jobType : JobType} {payload : String}
      {now : ℤ} :
      (enqueueJobDb jobType payload now).Ok w.store () s' →
      SystemStep E mayFail ⟨w, ts⟩ (.enqueue jobType payload now) ⟨{ w with store := s' }, ts⟩
  | claim {w : World} {ts : List Dispatch} {view : View} {entry : JobQueueEntry} {modelId now : ℤ} :
      (claimJob w.store.jobs now).1 = some entry →
      SystemStep E mayFail ⟨w, ts⟩ (.claim view modelId now)
        ⟨{ w with store := { w.store with jobs := (claimJob w.store.jobs now).2 } },
          ts ++ [⟨entry, view, .working, dispatchJob E entry modelId⟩]⟩
  | access {w w' : World} {ts : List Dispatch} {i : ℕ} {entry : JobQueueEntry} {view : View}
      {phase : Phase} {r : Req} {k : r.Ans → Proc Req Req.Ans (Except AnyError Unit)} {a : r.Ans} :
      ts[i]? = some ⟨entry, view, phase, .call r k⟩ → Answers view mayFail w r a w' →
      (∀ e, k a = .ret (.error e) → mayFail) →
      SystemStep E mayFail ⟨w, ts⟩ (.access i)
        ⟨w', ts.set i ⟨entry, view, phase.next E view r a, k a⟩⟩
  | markStale {w : World} {ts : List Dispatch} {s' : Store} {docIds : List ℤ} {now : ℤ} :
      (markDocumentsStale docIds now).Ok w.store () s' →
      SystemStep E mayFail ⟨w, ts⟩ (.markStale docIds now) ⟨{ w with store := s' }, ts⟩

/-! ## What every step leaves of the past -/

/-- The rows of the queue keep their ids and keys. -/
structure Renewed (q q' : JobQueue) : Prop where
  seq_le : q.seq ≤ q'.seq
  old : ∀ e' ∈ q'.rows, e'.id ≤ q.seq → ∃ e ∈ q.rows, e.id = e'.id ∧ e.uniqueKey = e'.uniqueKey

/-- A document keeps its path, and no id is used twice. -/
structure Later (w w' : World) : Prop where
  seq_le : w.store.documents.seq ≤ w'.store.documents.seq
  path : ∀ doc' ∈ w'.store.documents.rows, doc'.id ≤ w.store.documents.seq →
    ∃ doc ∈ w.store.documents.rows, doc.id = doc'.id ∧ doc.filepath = doc'.filepath
  models : ∀ m ∈ w.store.models.rows, m ∈ w'.store.models.rows
  calls : ∀ c ∈ w.calls, c ∈ w'.calls
  jobs : Renewed w.store.jobs w'.store.jobs

variable {E : Env} {mayFail : Prop} {view : View} {w w' w'' : World} {s' : Store} {q q' q'' : JobQueue}
  {now : ℤ}

theorem Renewed.refl (q : JobQueue) : Renewed q q := ⟨le_rfl, fun e he _ => ⟨e, he, rfl, rfl⟩⟩

theorem Renewed.trans (h : Renewed q q') (h' : Renewed q' q'') : Renewed q q'' where
  seq_le := h.seq_le.trans h'.seq_le
  old e'' he'' hle := by
    obtain ⟨e', he', hid', hkey'⟩ := h'.old e'' he'' (hle.trans h.seq_le)
    obtain ⟨e, he, hid, hkey⟩ := h.old e' he' (hid' ▸ hle)
    exact ⟨e, he, hid.trans hid', hkey.trans hkey'⟩

theorem Seeded.renewed (h : Seeded q q') : Renewed q q' := ⟨h.seq_le, h.old⟩

theorem renewed_enqueueJob (jobType : JobType) (payload : String) :
    Renewed q (enqueueJob q jobType payload now).2 where
  seq_le := seq_enqueueJob ..
  old e' he' hle := by
    obtain he | ⟨-, -, -, hid | ⟨e₀, he₀, c, hid, hkey, -⟩⟩ := mem_of_mem_enqueueJob _ _ _ _ he'
    · exact ⟨e', he, rfl, rfl⟩
    · omega
    · exact ⟨e₀, he₀, hid, hkey⟩

theorem renewed_claimJob : Renewed q (claimJob q now).2 where
  seq_le := seq_claimJob.ge
  old _ he' _ := exists_mem_of_mem_claimJob he'

theorem renewed_deferJobForRetry {jobId : ℤ} {r : ℕ} : Renewed q (deferJobForRetry q jobId now r) where
  seq_le := le_rfl
  old _ he' _ := exists_mem_of_mem_deferJobForRetry he'

theorem renewed_completeJob {jobId : ℤ} : Renewed q (completeJob q jobId) where
  seq_le := le_rfl
  old e' he' _ := ⟨e', (mem_completeJob.1 he').1, rfl, rfl⟩

theorem Later.refl (w : World) : Later w w :=
  ⟨le_rfl, fun doc h _ => ⟨doc, h, rfl, rfl⟩, fun _ h => h, fun _ h => h, .refl _⟩

theorem Later.trans (h : Later w w') (h' : Later w' w'') : Later w w'' where
  seq_le := h.seq_le.trans h'.seq_le
  path doc'' hdoc'' hle := by
    obtain ⟨doc', hdoc', hid', hpath'⟩ := h'.path doc'' hdoc'' (hle.trans h.seq_le)
    obtain ⟨doc, hdoc, hid, hpath⟩ := h.path doc' hdoc' (hid' ▸ hle)
    exact ⟨doc, hdoc, hid.trans hid', hpath.trans hpath'⟩
  models m hm := h'.models m (h.models m hm)
  calls c hc := h'.calls c (h.calls c hc)
  jobs := h.jobs.trans h'.jobs

/-- Only the queue and the embeddings change. -/
theorem Later.of_jobs {planned : List Pair} (hd : s'.documents = w.store.documents)
    (hm : s'.models = w.store.models) (hj : Renewed w.store.jobs s'.jobs) :
    Later w { w with store := s', planned := planned } :=
  ⟨by rw [hd], fun doc h _ => ⟨doc, hd ▸ h, rfl, rfl⟩, fun m h => by rwa [hm], fun _ h => h, hj⟩

theorem admissible_later : Admissible Later where
  refl := Later.refl
  trans := Later.trans
  call _ c := ⟨le_rfl, fun doc h _ => ⟨doc, h, rfl, rfl⟩, fun _ h => h,
    fun _ h => List.mem_cons_of_mem c h, .refl _⟩
  models h := h.models
  calls h := h.calls

theorem later_of_ok {op : DbReq} {v : op.Val} {planned : List Pair} (h : op.run.Ok w.store v s') :
    Later w { w with store := s', planned := planned } := by
  cases op with
  | findDocument | findModel | listRecoverable => exact h.2 ▸ .of_jobs rfl rfl (.refl _)
  | completeJob => rw [ok_exec_ok.1 h]; exact .of_jobs rfl rfl renewed_completeJob
  | deferJob => rw [ok_exec_ok.1 h]; exact .of_jobs rfl rfl renewed_deferJobForRetry
  | deleteDocument =>
    rw [ok_deleteDocument h]
    exact ⟨le_rfl, fun doc hdoc _ => ⟨doc, (AutoTable.mem_delete.1 hdoc).1, rfl, rfl⟩, fun _ h => h,
      fun _ h => h, .refl _⟩
  | replaceEmbeddings =>
    have hrep := ok_replaceEmbeddingsForDocumentModel h
    exact .of_jobs hrep.documents hrep.models (hrep.jobs ▸ .refl _)
  | upsertDocument doc modelId chunks now =>
    obtain ⟨id, changed⟩ := v
    obtain ⟨-, rfl, -⟩ | ⟨-, s₁, hi⟩ := ok_upsertDocumentAndReplacePendingEmbeddings h
    · exact .of_jobs rfl rfl (.refl _)
    · refine ⟨hi.documents ▸ hi.written.seq_le, fun doc' hdoc' hle => ?_, fun m hm => ?_, fun _ h => h,
        hi.seeded.renewed⟩
      · replace hdoc' : doc' ∈ s'.documents.rows := hdoc'
        rw [hi.documents, hi.written.mem] at hdoc'
        rcases hdoc' with rfl | ⟨hdoc', -⟩
        · -- the id was given out before, so the row is an updated one
          obtain ⟨hnew, -⟩ | ⟨⟨d, hd, hid, hpath, -⟩, -⟩ := hi.written.case
          · have : id ≤ w.store.documents.seq := hle
            omega
          · exact ⟨d, hd, hid, hpath⟩
        · exact ⟨doc', hdoc', rfl, rfl⟩
      · show m ∈ s'.models.rows
        rwa [hi.models]

theorem later_of_answers {r : Req} {a : r.Ans} (h : Answers view mayFail w r a w') : Later w w' := by
  cases h.changes with
  | committed hok => exact later_of_ok hok
  | called _ c => exact admissible_later.call w c
  | same => exact .refl w

variable {sys sys' : System} {op : SystemOp}

theorem later_of_step (h : SystemStep E mayFail sys op sys') : Later sys.world sys'.world := by
  cases h with
  | enqueue h => rw [ok_enqueueJobDb h]; exact .of_jobs rfl rfl (renewed_enqueueJob ..)
  | claim => exact .of_jobs rfl rfl renewed_claimJob
  | access _ h => exact later_of_answers h
  | markStale h =>
    obtain ⟨-, rfl⟩ | ⟨hne, h⟩ := ok_markDocumentsStale h
    · exact .refl _
    · obtain ⟨q, hq, -, rfl⟩ := ok_markDocumentsStaleInQueueTime hne h
      exact .of_jobs rfl rfl hq.renewed

/-! ## What is known of every dispatch -/

/-- A dispatch that ends well ends by completing its job. -/
def Completes : Req → Prop
  | .db (.completeJob _) => True
  | _ => False

theorem endsBy_finishJob (entry : JobQueueEntry) :
    ∀ x, Proc.EndsBy Completes (finishJob entry x) ∧ ∀ b, finishJob entry x ≠ Proc.ret (.ok b) := by
  intro x
  cases x with
  | ok u =>
    refine ⟨?_, fun b h => by cases h⟩
    rintro (e | _)
    · refine ⟨?_, trivial⟩
      rintro ⟨b, h⟩
      cases h
    · refine ⟨?_, fun a => ⟨fun _ => trivial, ?_⟩⟩
      · rintro ⟨b, h⟩
        cases h
      · cases a <;> trivial
  | error err =>
    cases hr : embeddingRetryAfterSecs err with
    | none =>
      simp only [finishJob, hr]
      exact ⟨trivial, fun b h => by cases h⟩
    | some secs =>
      simp only [finishJob, hr]
      refine ⟨fun now => ⟨?_, ?_⟩, fun b h => by cases h⟩
      · rintro ⟨b, h⟩
        cases h
      · exact Task.endsBy_fail (deferJobRetry entry.id now secs) _

theorem endsBy_dispatchJob (entry : JobQueueEntry) (modelId : ℤ) :
    Proc.EndsBy Completes (dispatchJob E entry modelId) := by
  rw [dispatchJob_eq]
  exact Proc.endsBy_bind (fun x => (endsBy_finishJob entry x).1) fun x => (endsBy_finishJob entry x).2

/-- A dispatch on its way: its accesses are grounded, it ends by completing its job, and the job
    was in the queue once. -/
structure Dispatching (E : Env) (mayFail : Prop) (w : World) (t : Dispatch) : Prop where
  grounded : t.rest.Sat (dispatching E t.view mayFail Later t.entry) (fun _ _ => True) w
  ends : t.rest.EndsBy Completes
  claimed : Past Later (fun w => t.entry ∈ w.store.jobs.rows) w

theorem Dispatching.later {t : Dispatch} (h : Dispatching E mayFail w t) (hw : Later w w') :
    Dispatching E mayFail w' t where
  grounded := h.grounded.later (fun h h' => Later.trans h h') hw
  ends := h.ends
  claimed := admissible_later.past _ _ _ hw h.claimed

/-- The request a dispatch takes next is grounded. -/
theorem Dispatching.grounds {entry : JobQueueEntry} {phase : Phase} {r : Req}
    {k : r.Ans → Proc Req Req.Ans (Except AnyError Unit)} {a : r.Ans}
    (h : Dispatching E mayFail w ⟨entry, view, phase, .call r k⟩) (ha : Answers view mayFail w r a w') :
    Grounds E view mayFail Later entry w r := (h.grounded w (.refl w) a w' ha).1

/-- The row of the dispatch's job still has its key, if it is there. -/
theorem Dispatching.key {t : Dispatch} (h : Dispatching E mayFail w t) {e : JobQueueEntry}
    (he : e ∈ w.store.jobs.rows) (hid : e.id = t.entry.id) : e.uniqueKey = t.entry.uniqueKey := by
  obtain ⟨w₀, hw, hmem⟩ := h.claimed
  obtain ⟨e₀, he₀, hid₀, hkey₀⟩ := hw.jobs.old e he (hid ▸ w₀.store.jobs.le_seq _ hmem)
  rw [← hkey₀, AutoTable.eq_of_key he₀ hmem (hid₀.trans hid)]

theorem dispatching_step (h : SystemStep E mayFail sys op sys')
    (ht : ∀ t ∈ sys.dispatches, Dispatching E mayFail sys.world t) :
    ∀ t ∈ sys'.dispatches, Dispatching E mayFail sys'.world t := by
  have hlater := later_of_step h
  cases h with
  | enqueue | markStale => exact fun t hmem => (ht t hmem).later hlater
  | @claim w ts view entry modelId now hentry =>
    intro t hmem
    rcases List.mem_append.1 hmem with hmem | hmem
    · exact (ht t hmem).later hlater
    · rw [List.mem_singleton.1 hmem]
      refine ⟨grounded_dispatchJob admissible_later modelId _, endsBy_dispatchJob entry modelId,
        _, .refl _, ?_⟩
      obtain ⟨hnone, -⟩ | ⟨e₀, he₀, -, -, hsome, hrows, -⟩ := claimJob_cases w.store.jobs now
      · rw [hnone] at hentry; cases hentry
      · rw [hsome] at hentry
        cases hentry
        show _ ∈ (claimJob w.store.jobs now).2.rows
        rw [hrows]
        exact List.mem_map.2 ⟨e₀, he₀, if_pos rfl⟩
  | @access w w' ts i entry view phase r k a hi ha _ =>
    intro t hmem
    obtain hold | rfl := List.mem_or_eq_of_mem_set hmem
    · exact (ht t hold).later hlater
    · have h := ht _ (List.mem_of_getElem? hi)
      refine ⟨(h.grounded w (.refl w) a w' ha).2, (h.ends a).2, ?_⟩
      exact admissible_later.past _ _ _ hlater h.claimed

theorem intact_systemStep (h : SystemStep E mayFail sys op sys') (hs : Intact sys.store) :
    Intact sys'.store := by
  cases h with
  | enqueue h => rw [System.store, ok_enqueueJobDb h]; exact hs.congr rfl rfl rfl
  | claim => exact hs.congr rfl rfl rfl
  | access _ h => exact intact_of_answers h hs
  | markStale h => exact intact_markDocumentsStale h hs

/-- What the steps keep in an interleaving, where every dispatch is on its way and the rows are
    intact. -/
theorem system_invariant {C : System → SystemOp → Prop} {I : System → Prop} {s : Store}
    {tr : List SystemOp} (h : Run (When C (SystemStep E mayFail)) (.start s) tr sys)
    (hs : Intact s) (h₀ : I (.start s))
    (hstep : ∀ sys op sys', SystemStep E mayFail sys op sys' → C sys op → Intact sys.store →
      (∀ t ∈ sys.dispatches, Dispatching E mayFail sys.world t) → I sys → I sys') : I sys := by
  refine (h.invariant (I := fun sys => (Intact sys.store ∧
    ∀ t ∈ sys.dispatches, Dispatching E mayFail sys.world t) ∧ I sys) (fun sys op sys' _ hop hsys => ?_)
    ⟨⟨hs, fun t ht => absurd ht List.not_mem_nil⟩, h₀⟩).2
  obtain ⟨⟨hs, ht⟩, hI⟩ := hsys
  exact ⟨⟨intact_systemStep hop.1 hs, dispatching_step hop.1 ht⟩, hstep sys op sys' hop.1 hop.2 hs ht hI⟩

/-! ## Interleavings played -/

section
variable (E : Env) (C : System → SystemOp → Prop) [∀ sys op, Decidable (C sys op)] (o : Outside)

/-- Whether the dispatch has ended with an error. -/
def failed : Proc Req Req.Ans (Except AnyError Unit) → Bool
  | .ret (.error _) => true
  | _ => false

/-- Take one step on the walks, the provider and the clock of `o`; nothing where a part of it
    fails or the condition is not met. -/
def playSystemOp (sys : System) (op : SystemOp) : Option System :=
  if C sys op then
    match op with
    | .enqueue jobType payload now =>
      (finish (enqueueJobDb jobType payload now) sys.world.store).map fun out =>
        ⟨{ sys.world with store := out.2 }, sys.dispatches⟩
    | .claim view modelId now =>
      (claimJob sys.world.store.jobs now).1.map fun entry =>
        ⟨{ sys.world with
            store := { sys.world.store with jobs := (claimJob sys.world.store.jobs now).2 } },
          sys.dispatches ++ [⟨entry, view, .working, dispatchJob E entry modelId⟩]⟩
    | .access i =>
      match sys.dispatches[i]? with
      | some ⟨entry, view, phase, .call r k⟩ =>
        match { o with view := view }.reply sys.world r with
        | some (a, w') =>
          if failed (k a) then none
          else some ⟨w', sys.dispatches.set i ⟨entry, view, phase.next E view r a, k a⟩⟩
        | none => none
      | _ => none
    | .markStale docIds now =>
      (finish (markDocumentsStale docIds now) sys.world.store).map fun out =>
        ⟨{ sys.world with store := out.2 }, sys.dispatches⟩
  else none

/-- Several steps, one after the other. -/
def playSystem : List SystemOp → System → Option System
  | [], sys => some sys
  | op :: ops, sys => (playSystemOp E C o sys op).bind fun sys => playSystem ops sys

end

section
variable {C : System → SystemOp → Prop} [∀ sys op, Decidable (C sys op)] {o : Outside}

theorem step_of_playSystemOp (h : playSystemOp E C o sys op = some sys') :
    When C (SystemStep E mayFail) sys op sys' := by
  unfold playSystemOp at h
  split_ifs at h with hc
  refine ⟨?_, hc⟩
  obtain ⟨w, ts⟩ := sys
  cases op with
  | enqueue jobType payload now =>
    obtain ⟨out, hout, rfl⟩ := Option.map_eq_some_iff.1 h
    exact .enqueue (ok_of_finish hout)
  | claim view modelId now =>
    obtain ⟨entry, hentry, rfl⟩ := Option.map_eq_some_iff.1 h
    exact .claim hentry
  | access i =>
    dsimp only at h
    split at h
    · rename_i entry view phase r k hi
      split at h
      · rename_i a w' hreply
        split_ifs at h with hfail
        cases h
        refine .access hi (Outside.answers_of_reply _ hreply).mayFail ?_
        intro e he
        rw [he] at hfail
        exact absurd rfl hfail
      · cases h
    · cases h
  | markStale docIds now =>
    obtain ⟨out, hout, rfl⟩ := Option.map_eq_some_iff.1 h
    exact .markStale (ok_of_finish hout)

theorem run_of_playSystem {ops : List SystemOp} (h : playSystem E C o ops sys = some sys') :
    Run (When C (SystemStep E mayFail)) sys ops sys' :=
  .of_play step_of_playSystemOp (fun _ => rfl) (fun _ _ _ => rfl) h

end

/-- The first model is registered. -/
def registeredStore : Store := (insertModel sampleModel 0 .empty).state

/-- The next requests of a dispatch. -/
def accesses (i n : ℕ) : List SystemOp := List.replicate n (.access i)

/-- An ingest of `/r/f` to its end, then a worker claims the embed job. -/
def ingestOps (file : Bytes) : List SystemOp :=
  .enqueue .ingestFolder sampleIngest 0 :: .claim (sampleView file) 1 10 :: accesses 0 16 ++
    [.claim (sampleView file) 1 20]

/-- Another ingest of `/r/f` to its end, by the third dispatch. -/
def reingestOps (file : Bytes) : List SystemOp :=
  .enqueue .ingestFolder sampleIngest 30 :: .claim (sampleView file) 1 40 :: accesses 2 16

/-- No condition on the steps. -/
abbrev AnyStep : System → SystemOp → Prop := fun _ _ => True

end Ask
