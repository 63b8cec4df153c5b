/-
  No embedding work is orphaned, as long as no commit makes work for a pair
  whose job is held by a dispatch that has had its last look at the pair.
-/
import Ask.System
import Ask.WellFormed

namespace Ask

open Lib

/-! ## What the others must not do -/

/-- What serde reads from a payload that the server wrote is the pair it was written for. -/
def ReadsBack (E : Env) : Prop := ∀ p payload, E.decodeEmbedPayload (embedPayloadJson p) = .ok payload →
  (payload.documentId, payload.modelId) = p

/-- The row of the dispatch's job is in the queue. -/
def Dispatch.Holds (t : Dispatch) (q : JobQueue) : Prop := ∃ e ∈ q.rows, e.id = t.entry.id

/-- The id of the document row that an upsert writes; none where the hash is the recorded one. -/
def Store.writes (s : Store) (doc : Document) : Option ℤ :=
  match s.documents.rows.find? fun d => d.filepath = doc.filepath with
  | some d => if d.fileHash = doc.fileHash then none else some d.id
  | none => some (s.documents.seq + 1)

/-- The pairs of the documents that have rows. -/
def Store.pairsOf (s : Store) (docIds : List ℤ) : List Pair :=
  (s.embeddings.rows.map (·.pair)).filter fun p => p.1 ∈ docIds

/-- No dispatch that has had its last look at the pair still holds its job. -/
def Unsettled (sys : System) (p : Pair) : Prop := ∀ t ∈ sys.dispatches, t.Holds sys.store.jobs →
  t.entry.uniqueKey = embedJobKey p → t.phase ≠ .settled

/-- An upsert that records a new version of a document: no dispatch that holds a job of one of its
    pairs has had its last look, or is about to plan that very version itself. -/
def InTime (sys : System) : Req → Prop
  | .db (.upsertDocument doc modelId _ _) => ∀ docId ∈ sys.store.writes doc,
    (∀ p ∈ (docId, modelId) :: sys.store.pairsOf [docId], Unsettled sys p) ∧
      ∀ t ∈ sys.dispatches, t.Holds sys.store.jobs → t.phase ≠ .outdated doc.filepath doc.fileHash
  | _ => True

/-- Every step is free, but new versions are recorded and documents are marked stale in time. -/
def Undisturbed (sys : System) : SystemOp → Prop
  | .access i => ∀ t ∈ sys.dispatches[i]?, ∀ r ∈ t.next?, InTime sys r
  | .markStale docIds _ => ∀ p ∈ sys.store.pairsOf docIds, Unsettled sys p
  | _ => True

/-! ## What is true of a pair in each phase of its dispatches -/

/-- The store has another hash for the path, or no document. -/
def Unrecorded (s : Store) (path fileHash : String) : Prop :=
  ∀ d ∈ s.documents.rows, d.filepath = path → d.fileHash ≠ fileHash

/-- A dispatch in the phase will still take up the pair's work. -/
def Phase.Awake (s : Store) : Phase → Prop
  | working => True
  | outdated path fileHash => Unrecorded s path fileHash
  | replanning path fileHash => Unrecorded s path fileHash
  | settled => False

/-- As long as a dispatch in the phase holds the job, it leaves no work of the pair behind. -/
def Phase.Abreast (s : Store) (p : Pair) : Phase → Prop
  | working => True
  | outdated path fileHash => Unrecorded s path fileHash
  | replanning _ _ => False
  | settled => p ∉ s.recoverablePairs

/-- The pair's job is in the queue, or a dispatch of it will take up the pair's work. -/
def Covered (sys : System) (p : Pair) : Prop :=
  (∃ e ∈ sys.store.jobs.rows, e.uniqueKey = embedJobKey p) ∨
    ∃ t ∈ sys.dispatches, t.entry.uniqueKey = embedJobKey p ∧ t.active = true ∧ t.phase.Awake sys.store

/-- A dispatch of the pair's job on its way. -/
structure InHand (E : Env) (s : Store) (t : Dispatch) (p : Pair) : Prop where
  settles : Settles E t.view p t.rest t.phase
  abreast : t.Holds s.jobs → t.phase.Abreast s p

/-- Every dispatch is on its way, and every pair with work is covered. -/
structure LookedAfter (E : Env) (sys : System) : Prop where
  paths : ∀ d ∈ sys.store.documents.rows, ∀ d' ∈ sys.store.documents.rows,
    d.filepath = d'.filepath → d = d'
  inHand : ∀ t ∈ sys.dispatches, ∀ p, t.entry.uniqueKey = embedJobKey p → InHand E sys.store t p
  covered : ∀ p ∈ sys.store.recoverablePairs, Covered sys p

variable {E : Env} {view : View} {w w' : World} {s s' s₁ : Store} {ts : List Dispatch} {i : ℕ}
  {entry : JobQueueEntry} {p : Pair} {now docId modelId : ℤ} {t t' : Dispatch} {phase phase' : Phase}
  {path fileHash : String} {doc : Document} {chunks : List ChunkRef}

/-! ## Quiet steps -/

/-- The step makes no work and writes no document. -/
structure Quiet (s s' : Store) : Prop where
  work : ∀ p ∈ s'.recoverablePairs, p ∈ s.recoverablePairs
  documents : ∀ d ∈ s'.documents.rows, d ∈ s.documents.rows

theorem Quiet.of_rows
    (hrows : ∀ r ∈ s'.embeddings.rows, r.state ≠ .embedded → r ∈ s.embeddings.rows)
    (hd : ∀ d ∈ s'.documents.rows, d ∈ s.documents.rows) : Quiet s s' where
  work p hp := by
    obtain ⟨r, hr, hpair, hst⟩ := Store.mem_recoverablePairs.1 hp
    exact Store.mem_recoverablePairs.2 ⟨r, hrows r hr (recoverable_iff.1 hst), hpair, hst⟩
  documents := hd

theorem Quiet.of_eq (he : s'.embeddings = s.embeddings) (hd : s'.documents = s.documents) :
    Quiet s s' := .of_rows (fun _ hr _ => he ▸ hr) fun _ h => hd ▸ h

theorem Unrecorded.quiet (h : Unrecorded s path fileHash) (hq : Quiet s s') :
    Unrecorded s' path fileHash := fun d hd => h d (hq.documents d hd)

theorem Phase.Awake.quiet (h : phase.Awake s) (hq : Quiet s s') : phase.Awake s' := by
  cases phase with
  | working => trivial
  | outdated | replanning => exact Unrecorded.quiet h hq
  | settled => exact h

theorem Phase.Abreast.quiet (h : phase.Abreast s p) (hq : Quiet s s') : phase.Abreast s' p := by
  cases phase with
  | working => trivial
  | outdated => exact Unrecorded.quiet h hq
  | replanning => exact h
  | settled => exact fun hp => h (hq.work p hp)

/-- A dispatch that holds the job of a pair with work will take it up. -/
theorem Phase.Abreast.awake (h : phase.Abreast s p) (hp : p ∈ s.recoverablePairs) : phase.Awake s := by
  cases phase with
  | working => trivial
  | outdated => exact h
  | replanning => exact h.elim
  | settled => exact h hp

/-- No id of the queue is used twice. -/
theorem Dispatching.holds (h : Dispatching E False w t) (hw : Later w w') (hh : t.Holds w'.store.jobs) :
    t.Holds w.store.jobs := by
  obtain ⟨w₀, hw₀, hmem⟩ := h.claimed
  obtain ⟨e, he, hid⟩ := hh
  have hle : e.id ≤ w.store.jobs.seq :=
    hid ▸ (w₀.store.jobs.le_seq _ hmem).trans hw₀.jobs.seq_le
  obtain ⟨e', he', hid', -⟩ := hw.jobs.old e he hle
  exact ⟨e', he', hid'.trans hid⟩

theorem InHand.quiet (h : InHand E s t p) (hq : Quiet s s')
    (hh : t.Holds s'.jobs → t.Holds s.jobs) : InHand E s' t p :=
  ⟨h.settles, fun hheld => (h.abreast (hh hheld)).quiet hq⟩

/-! ## What an access does -/

/-- A row of the queue keeps its key, or it is the row of a job that is completed. -/
def Keeps (r : Req) (q q' : JobQueue) : Prop := ∀ e ∈ q.rows,
  (∃ e' ∈ q'.rows, e'.uniqueKey = e.uniqueKey) ∨ r = .db (.completeJob e.id)

/-- An access is quiet, or it ingests a new version and queues a job for each pair with work. -/
theorem quiet_or_ingested {r : Req} {a : r.Ans} (h : Answers view False w r a w') :
    (Quiet w.store w'.store ∧ Keeps r w.store.jobs w'.store.jobs) ∨
      ∃ doc modelId chunks now docId s₁, r = .db (.upsertDocument doc modelId chunks now) ∧
        Ingested w.store doc docId modelId chunks now s₁ w'.store := by
  have hsame : w'.store = w.store →
      Quiet w.store w'.store ∧ Keeps r w.store.jobs w'.store.jobs := by
    intro hst
    rw [hst]
    exact ⟨.of_eq rfl rfl, fun e he => .inl ⟨e, he, rfl⟩⟩
  cases h.changes with
  | @committed op v store hok =>
    cases op with
    | findDocument | findModel | listRecoverable => exact .inl (hsame hok.2.symm)
    | completeJob jobId =>
      rw [ok_exec_ok.1 hok]
      refine .inl ⟨.of_eq rfl rfl, fun e he => ?_⟩
      by_cases hid : e.id = jobId
      · exact .inr (by rw [hid])
      · exact .inl ⟨e, mem_completeJob.2 ⟨he, hid⟩, rfl⟩
    | deferJob jobId now r =>
      rw [ok_exec_ok.1 hok]
      refine .inl ⟨.of_eq rfl rfl, fun e he => ?_⟩
      by_cases hid : e.id = jobId
      · exact .inl ⟨_, mem_deferJobForRetry.2 (.inr ⟨e, he, hid, rfl⟩), rfl⟩
      · exact .inl ⟨e, mem_deferJobForRetry.2 (.inl ⟨he, hid⟩), rfl⟩
    | deleteDocument =>
      rw [ok_deleteDocument hok]
      exact .inl ⟨.of_rows (fun r hr _ => (AutoTable.mem_delete.1 hr).1)
        fun d hd => (AutoTable.mem_delete.1 hd).1, fun e he => .inl ⟨e, he, rfl⟩⟩
    | replaceEmbeddings =>
      have hrep := ok_replaceEmbeddingsForDocumentModel hok
      refine .inl ⟨.of_rows (fun r hr hst => ?_) fun d hd => hrep.documents ▸ hd,
        fun e he => .inl ⟨e, hrep.jobs ▸ he, rfl⟩⟩
      obtain ⟨hr, -⟩ | ⟨-, c, -, he⟩ := hrep.mem_embeddings hr
      · exact hr
      · rw [he] at hst; exact absurd rfl hst
    | upsertDocument doc modelId chunks now =>
      obtain ⟨-, rfl, -⟩ | ⟨-, s₁, hi⟩ := ok_upsertDocumentAndReplacePendingEmbeddings hok
      · exact .inl (hsame rfl)
      · exact .inr ⟨doc, modelId, chunks, now, _, s₁, rfl, hi⟩
  | called => exact .inl (hsame rfl)
  | same => exact .inl (hsame rfl)

/-- How an access moves a dispatch of the pair from one phase to another. -/
inductive MovesOn (s s' : Store) (p : Pair) (held : Prop) : Phase → Phase → Prop
  | same {phase : Phase} : Quiet s s' → MovesOn s s' p held phase phase
  | looked {phase : Phase} : p ∉ s'.recoverablePairs → MovesOn s s' p held phase .settled
  | found {phase : Phase} {path fileHash : String} : Unrecorded s' path fileHash →
      MovesOn s s' p held phase (.outdated path fileHash)
  | removed {path fileHash : String} : Quiet s s' → ¬held →
      MovesOn s s' p held (.outdated path fileHash) (.replanning path fileHash)
  | replanned {path fileHash : String} :
      ¬Unrecorded s path fileHash ∨
        (∀ p ∈ s'.recoverablePairs, ∃ e ∈ s'.jobs.rows, e.uniqueKey = embedJobKey p) →
      MovesOn s s' p held (.replanning path fileHash) .settled

theorem not_recoverable_of_rows (h : ∀ r ∈ s.embeddings.rows, r.pair = p → r.state = .embedded) :
    p ∉ s.recoverablePairs := by
  intro hp
  obtain ⟨r, hr, hpair, hst⟩ := Store.mem_recoverablePairs.1 hp
  exact recoverable_iff.1 hst (h r hr hpair)

/-- A document without a row has no work. -/
theorem not_recoverable_of_documents (hfk : ForeignKeys s) (h : ∀ d ∈ s.documents.rows, d.id ≠ p.1) :
    p ∉ s.recoverablePairs := by
  refine not_recoverable_of_rows fun r hr hpair => ?_
  obtain ⟨⟨d, hd, hid⟩, -⟩ := hasPair_iff.1 (hfk r hr)
  exact absurd (hid.trans (congrArg Prod.fst hpair)) (h d hd)

theorem movesOn_of_ok {op : DbReq} {v : op.Val} (hok : op.run.Ok s v s')
    (ha : Asks p phase (.db op)) (hs : Intact s)
    (hpaths : ∀ d ∈ s.documents.rows, ∀ d' ∈ s.documents.rows, d.filepath = d'.filepath → d = d')
    {held : Prop} (hheld : ∀ jobId, op = .completeJob jobId → ¬held) :
    MovesOn s s' p held phase (phase.after E view op v) := by
  cases op with
  | findDocument docId =>
    obtain ⟨hget, rfl⟩ := hok
    replace hget : s.documents.get? docId = v := Except.ok.inj hget
    cases v with
    | none =>
      refine .looked (not_recoverable_of_documents hs.foreignKeys fun d hd hid => ?_)
      have hsome := AutoTable.get?_eq_some.2 ⟨hd, hid.trans (Eq.symm ha)⟩
      cases hsome.symm.trans hget
    | some d =>
      obtain ⟨hd, -⟩ := AutoTable.get?_eq_some.1 hget
      cases hview : view d.filepath with
      | none =>
        simp only [Phase.after, hview]
        exact .same (.of_eq rfl rfl)
      | some file =>
        simp only [Phase.after, hview]
        split_ifs with hhash
        · exact .same (.of_eq rfl rfl)
        · refine .found fun d' hd' hp' heq => hhash ?_
          rw [← heq, hpaths d' hd' d hd hp']
  | findModel => exact .same (.of_eq (congrArg Store.embeddings hok.2.symm)
      (congrArg Store.documents hok.2.symm))
  | listRecoverable docId modelId =>
    obtain ⟨rfl, hrows⟩ := ok_listRecoverableEmbeddingsForModel hok
    cases v with
    | nil =>
      refine .looked (not_recoverable_of_rows fun r hr hpair => ?_)
      by_contra hst
      exact absurd ((hrows r).2 ⟨hr, hpair.trans (Eq.symm ha), hst⟩) List.not_mem_nil
    | cons r rows => exact .same (.of_eq rfl rfl)
  | completeJob jobId =>
    have hquiet : Quiet s s' := by
      rw [ok_exec_ok.1 hok]
      exact .of_eq rfl rfl
    cases phase with
    | outdated path fileHash => exact .removed hquiet (hheld jobId rfl)
    | working | replanning | settled => exact .same hquiet
  | deferJob =>
    rw [ok_exec_ok.1 hok]
    exact .same (.of_eq rfl rfl)
  | deleteDocument docId =>
    have hs' := intact_deleteDocument hok hs
    refine .looked (not_recoverable_of_documents hs'.foreignKeys fun d hd hid => ?_)
    rw [ok_deleteDocument hok] at hd
    exact absurd (hid.trans ha.symm) (by simpa using (AutoTable.mem_delete.1 hd).2)
  | replaceEmbeddings docId modelId chunks now =>
    have hrep := ok_replaceEmbeddingsForDocumentModel hok
    refine .looked (not_recoverable_of_rows fun r hr hpair => ?_)
    obtain ⟨-, hne⟩ | ⟨-, c, -, he⟩ := hrep.mem_embeddings hr
    · exact absurd (hpair.trans ha.symm) hne
    · rw [he]
      rfl
  | upsertDocument doc modelId chunks now =>
    obtain rfl : phase = .replanning doc.filepath doc.fileHash := ha
    refine .replanned ?_
    obtain ⟨-, rfl, d, hd, -, hpath, hhash⟩ | ⟨-, s₁, hi⟩ :=
      ok_upsertDocumentAndReplacePendingEmbeddings hok
    · exact .inl fun h => h d hd hpath hhash
    · exact .inr hi.queued

theorem movesOn_of_answers {r : Req} {a : r.Ans} (h : Answers view False w r a w')
    (ha : Asks p phase r) (hs : Intact w.store)
    (hpaths : ∀ d ∈ w.store.documents.rows, ∀ d' ∈ w.store.documents.rows,
      d.filepath = d'.filepath → d = d')
    {held : Prop} (hheld : ∀ jobId, r = .db (.completeJob jobId) → ¬held) :
    MovesOn w.store w'.store p held phase (phase.next E view r a) := by
  cases r with
  | db op =>
    obtain ⟨v, store, rfl, hok, rfl⟩ | ⟨hfail, -⟩ := h
    · exact movesOn_of_ok hok ha hs hpaths fun jobId hop => hheld jobId (congrArg Req.db hop)
    · exact hfail.elim
  | _ =>
    refine .same (.of_eq ?_ ?_) <;>
    · cases h.changes <;> rfl

/-- What a dispatch that will take up the pair's work makes of it. -/
theorem Phase.Awake.movesOn {held : Prop} (h : phase.Awake s) (ha : MovesOn s s' p held phase phase')
    (hp : p ∈ s'.recoverablePairs) :
    phase'.Awake s' ∨ ∃ e ∈ s'.jobs.rows, e.uniqueKey = embedJobKey p := by
  cases ha with
  | same hq => exact .inl (h.quiet hq)
  | looked hnone => exact absurd hp hnone
  | found hun => exact .inl hun
  | removed hq => exact .inl (Unrecorded.quiet h hq)
  | replanned hrec => exact hrec.elim (fun hno => absurd h hno) fun hq => .inr (hq p hp)

theorem Phase.Abreast.movesOn {held : Prop} (h : phase.Abreast s p)
    (ha : MovesOn s s' p held phase phase') (hheld : held) : phase'.Abreast s' p := by
  cases ha with
  | same hq => exact h.quiet hq
  | looked hnone => exact hnone
  | found hun => exact hun
  | removed hq hnot => exact hnot hheld
  | replanned => exact h.elim

/-! ## New versions -/

/-- An upsert that records a new version writes the document that `Store.writes` names. -/
theorem writes_of_written (h : DocumentWritten s doc docId s₁)
    (hpaths : ∀ d ∈ s.documents.rows, ∀ d' ∈ s.documents.rows, d.filepath = d'.filepath → d = d') :
    s.writes doc = some docId := by
  unfold Store.writes
  obtain ⟨hid, hnone, -⟩ | ⟨⟨d, hd, rfl, hpath, hhash⟩, -⟩ := h.case
  · rw [List.find?_eq_none.2 fun d hd => by simpa using hnone d hd, hid]
  · cases hf : s.documents.rows.find? fun d => d.filepath = doc.filepath with
    | none => exact absurd (by simpa using hpath) (List.find?_eq_none.1 hf d hd)
    | some d' =>
      have hpath' : d'.filepath = doc.filepath := by simpa using List.find?_some hf
      obtain rfl := hpaths d' (List.mem_of_find?_eq_some hf) d hd (hpath'.trans hpath.symm)
      exact if_neg hhash

theorem mem_pairsOf {docIds : List ℤ} {r : DocumentEmbedding} (hr : r ∈ s.embeddings.rows)
    (hd : r.documentId ∈ docIds) : r.pair ∈ s.pairsOf docIds :=
  List.mem_filter.2 ⟨List.mem_map.2 ⟨r, hr, rfl⟩, decide_eq_true hd⟩

/-- An ingest makes work for the planned pair and the pairs of the document that have rows. -/
theorem recoverable_of_ingested (h : Ingested s doc docId modelId chunks now s₁ s')
    (hfk : ForeignKeys s) (hp : p ∈ s'.recoverablePairs) :
    p ∈ s.recoverablePairs ∨ p ∈ (docId, modelId) :: s.pairsOf [docId] := by
  obtain ⟨r, hr, rfl, hst⟩ := Store.mem_recoverablePairs.1 hp
  obtain ⟨hr₀, -⟩ | ⟨r₀, hr₀, hid, -, rfl⟩ | ⟨c, -, he, -⟩ := h.mem_embeddings hfk hr
  · exact .inl (Store.mem_recoverablePairs.2 ⟨r, hr₀, rfl, hst⟩)
  · rw [staleOf_pair]
    exact .inr (List.mem_cons_of_mem _ (mem_pairsOf hr₀ (List.mem_singleton.2 hid)))
  · rw [he]
    exact .inr List.mem_cons_self

theorem InHand.ingested (h : InHand E s t p) (hi : Ingested s doc docId modelId chunks now s₁ s')
    (hfk : ForeignKeys s) (hheld : t.Holds s'.jobs → t.Holds s.jobs)
    (hunsettled : t.Holds s.jobs → ∀ p' ∈ (docId, modelId) :: s.pairsOf [docId],
      t.entry.uniqueKey = embedJobKey p' → t.phase ≠ .settled)
    (houtdated : t.Holds s.jobs → t.phase ≠ .outdated doc.filepath doc.fileHash)
    (hkey : t.entry.uniqueKey = embedJobKey p) : InHand E s' t p := by
  refine ⟨h.settles, fun hh => ?_⟩
  have habreast := h.abreast (hheld hh)
  cases hphase : t.phase with
  | working => trivial
  | outdated path fileHash =>
    rw [hphase] at habreast
    intro d hd hpath heq
    rw [hi.documents, hi.written.mem] at hd
    obtain rfl | ⟨hd, -⟩ := hd
    · exact houtdated (hheld hh) (by rw [hphase, ← hpath, ← heq])
    · exact habreast d hd hpath heq
  | replanning => rw [hphase] at habreast; exact habreast
  | settled =>
    rw [hphase] at habreast
    intro hp
    obtain hp | hp := recoverable_of_ingested hi hfk hp
    · exact habreast hp
    · exact hunsettled (hheld hh) p hp hkey hphase

/-! ## The steps -/

theorem active_or_ended (t : Dispatch) : t.active = true ∨ ∃ x, t.rest = .ret x := by
  unfold Dispatch.active
  cases t.rest with
  | ret x => exact .inr ⟨x, rfl⟩
  | call r k => exact .inl rfl

theorem Phase.Awake.ne_settled (h : phase.Awake s) : phase ≠ .settled := by
  rintro rfl
  exact h

/-- A dispatch that has not settled goes on. -/
theorem InHand.active (h : InHand E s t p) (hok : ∀ e, t.rest = .ret (.error e) → False)
    (hphase : t.phase ≠ .settled) : t.active = true := by
  obtain hact | ⟨x, hx⟩ := active_or_ended t
  · exact hact
  · have hends : Proc.Sat _ t.rest _ t.phase := h.settles
    rw [hx] at hends
    cases x with
    | ok a => exact absurd (hends a rfl) hphase
    | error e => exact (hok e hx).elim

/-- The dispatch that takes the access. -/
theorem InHand.access {r : Req} {k : r.Ans → Proc Req Req.Ans (Except AnyError Unit)} {a : r.Ans}
    (h : InHand E w.store ⟨entry, view, phase, .call r k⟩ p)
    (ht : Dispatching E False w ⟨entry, view, phase, .call r k⟩) (ha : Answers view False w r a w')
    (hs : Intact w.store) (hpaths : ∀ d ∈ w.store.documents.rows, ∀ d' ∈ w.store.documents.rows,
      d.filepath = d'.filepath → d = d') :
    InHand E w'.store ⟨entry, view, phase.next E view r a, k a⟩ p ∧
      MovesOn w.store w'.store p (∃ e ∈ w'.store.jobs.rows, e.id = entry.id) phase
        (phase.next E view r a) := by
  obtain ⟨hasks, hrest⟩ := h.settles phase rfl a _ ⟨rfl, w, w', ha⟩
  have hadv : MovesOn w.store w'.store p (∃ e ∈ w'.store.jobs.rows, e.id = entry.id) phase
      (phase.next E view r a) := by
    refine movesOn_of_answers ha hasks hs hpaths ?_
    rintro jobId rfl ⟨e, he, hid⟩
    obtain rfl : jobId = entry.id := ht.grounds ha
    obtain ⟨v, store, -, hok, rfl⟩ | ⟨hfail, -⟩ := ha
    · rw [ok_exec_ok.1 hok] at he
      exact (mem_completeJob.1 he).2 hid
    · exact hfail.elim
  refine ⟨⟨hrest, fun hh => ?_⟩, hadv⟩
  exact (h.abreast (ht.holds (later_of_answers ha) hh)).movesOn hadv hh

theorem covered_access {r : Req} {k : r.Ans → Proc Req Req.Ans (Except AnyError Unit)} {a : r.Ans}
    (hi : ts[i]? = some ⟨entry, view, phase, .call r k⟩) (ha : Answers view False w r a w')
    (hok : ∀ e, k a = .ret (.error e) → False)
    (ht : Dispatching E False w ⟨entry, view, phase, .call r k⟩) (hs : Intact w.store)
    (h : LookedAfter E ⟨w, ts⟩) (hp : p ∈ w'.store.recoverablePairs) :
    Covered ⟨w', ts.set i ⟨entry, view, phase.next E view r a, k a⟩⟩ p := by
  obtain ⟨hlt, hget⟩ := List.getElem?_eq_some_iff.1 hi
  have hself : (⟨entry, view, phase.next E view r a, k a⟩ : Dispatch) ∈
      ts.set i ⟨entry, view, phase.next E view r a, k a⟩ :=
    List.mem_of_getElem? (List.getElem?_set_self hlt)
  obtain ⟨hquiet, hkeeps⟩ | ⟨doc, modelId, chunks, now, docId, s₁, -, hing⟩ := quiet_or_ingested ha
  · -- the dispatch itself goes on and will take up the work
    have hown : entry.uniqueKey = embedJobKey p → phase.Awake w.store →
        Covered ⟨w', ts.set i ⟨entry, view, phase.next E view r a, k a⟩⟩ p := by
      intro hkey hawake
      obtain ⟨hunder, hadv⟩ :=
        (h.inHand _ (List.mem_of_getElem? hi) p hkey).access ht ha hs h.paths
      obtain hawake | hjob := hawake.movesOn hadv hp
      · exact .inr ⟨_, hself, hkey, hunder.active hok hawake.ne_settled, hawake⟩
      · exact .inl hjob
    have hwork := hquiet.work p hp
    obtain ⟨e, he, hkey⟩ | ⟨t, hmem, hkey, hact, hawake⟩ := h.covered p hwork
    · obtain ⟨e', he', hkey'⟩ | rfl := hkeeps e he
      · exact .inl ⟨e', he', hkey'.trans hkey⟩
      · -- the job's row goes: the dispatch has not had its last look
        have hid : e.id = entry.id := ht.grounds ha
        have hkey' : entry.uniqueKey = embedJobKey p := (ht.key he hid).symm.trans hkey
        have hunder := h.inHand _ (List.mem_of_getElem? hi) p hkey'
        exact hown hkey' ((hunder.abreast ⟨e, he, hid⟩).awake hwork)
    · obtain ⟨j, hj⟩ := List.mem_iff_getElem?.1 hmem
      by_cases hji : j = i
      · subst hji
        obtain rfl := Option.some.inj (hj.symm.trans hi)
        exact hown hkey hawake
      · have hmem' : t ∈ ts.set i ⟨entry, view, phase.next E view r a, k a⟩ :=
          List.mem_of_getElem? ((List.getElem?_set_ne (Ne.symm hji)).trans hj)
        exact .inr ⟨t, hmem', hkey, hact, hawake.quiet hquiet⟩
  · exact .inl (hing.queued p hp)

theorem lookedAfter_access {r : Req} {k : r.Ans → Proc Req Req.Ans (Except AnyError Unit)} {a : r.Ans}
    (hi : ts[i]? = some ⟨entry, view, phase, .call r k⟩) (ha : Answers view False w r a w')
    (hok : ∀ e, k a = .ret (.error e) → False) (ht : ∀ t ∈ ts, Dispatching E False w t)
    (hs : Intact w.store) (hc : InTime ⟨w, ts⟩ r) (h : LookedAfter E ⟨w, ts⟩) :
    LookedAfter E ⟨w', ts.set i ⟨entry, view, phase.next E view r a, k a⟩⟩ := by
  have hthis := ht _ (List.mem_of_getElem? hi)
  have hlater := later_of_answers ha
  refine ⟨?_, fun t hmem p hkey => ?_, fun p hp => covered_access hi ha hok hthis hs h hp⟩
  · obtain ⟨hquiet, -⟩ | ⟨doc, modelId, chunks, now, docId, s₁, -, hing⟩ := quiet_or_ingested ha
    · exact fun d hd d' hd' => h.paths d (hquiet.documents d hd) d' (hquiet.documents d' hd')
    · show ∀ d ∈ w'.store.documents.rows, ∀ d' ∈ w'.store.documents.rows, _
      rw [hing.documents]
      exact hing.written.paths h.paths
  · obtain hold | rfl := List.mem_or_eq_of_mem_set hmem
    · have hheld : t.Holds w'.store.jobs → t.Holds w.store.jobs := (ht t hold).holds hlater
      obtain ⟨hquiet, -⟩ | ⟨doc, modelId, chunks, now, docId, s₁, rfl, hing⟩ := quiet_or_ingested ha
      · exact (h.inHand t hold p hkey).quiet hquiet hheld
      · obtain ⟨hunsettled, houtdated⟩ := hc docId (writes_of_written hing.written h.paths)
        exact (h.inHand t hold p hkey).ingested hing hs.foreignKeys hheld
          (fun hh p' hp' => hunsettled p' hp' t hold hh) (houtdated t hold) hkey
    · exact ((h.inHand _ (List.mem_of_getElem? hi) p hkey).access hthis ha hs h.paths).1

/-- A step that is no access keeps what is known of the dispatches, if it is quiet. -/
theorem LookedAfter.quiet (h : LookedAfter E ⟨w, ts⟩) (ht : ∀ t ∈ ts, Dispatching E False w t)
    (hlater : Later w w') (hq : Quiet w.store w'.store)
    (hkeeps : ∀ e ∈ w.store.jobs.rows, ∃ e' ∈ w'.store.jobs.rows, e'.uniqueKey = e.uniqueKey) :
    LookedAfter E ⟨w', ts⟩ where
  paths d hd d' hd' := h.paths d (hq.documents d hd) d' (hq.documents d' hd')
  inHand t hmem p hkey := (h.inHand t hmem p hkey).quiet hq ((ht t hmem).holds hlater)
  covered p hp := by
    obtain ⟨e, he, hkey⟩ | ⟨t, hmem, hkey, hact, hawake⟩ := h.covered p (hq.work p hp)
    · obtain ⟨e', he', hkey'⟩ := hkeeps e he
      exact .inl ⟨e', he', hkey'.trans hkey⟩
    · exact .inr ⟨t, hmem, hkey, hact, hawake.quiet hq⟩

theorem lookedAfter_step (hread : ReadsBack E) {sys sys' : System} {op : SystemOp}
    (h : SystemStep E False sys op sys') (hc : Undisturbed sys op) (hs : Intact sys.store)
    (ht : ∀ t ∈ sys.dispatches, Dispatching E False sys.world t) (hw : LookedAfter E sys) :
    LookedAfter E sys' := by
  have hlater := later_of_step h
  cases h with
  | enqueue h =>
    obtain rfl := ok_enqueueJobDb h
    refine hw.quiet ht hlater (.of_eq rfl rfl) fun e he => ?_
    obtain ⟨e', he', -, hkey'⟩ := exists_mem_enqueueJob_of_mem _ _ _ _ he
    exact ⟨e', he', hkey'⟩
  | @claim w ts view entry modelId now hentry =>
    have hquiet := hw.quiet ht hlater (.of_eq rfl rfl) fun e he => by
      obtain ⟨e', he', -, hkey'⟩ := exists_mem_claimJob_of_mem he
      exact ⟨e', he', hkey'⟩
    refine ⟨hquiet.paths, fun t hmem p hkey => ?_, fun p hp => ?_⟩
    · obtain hmem | hmem := List.mem_append.1 hmem
      · exact hquiet.inHand t hmem p hkey
      · obtain rfl := List.mem_singleton.1 hmem
        obtain ⟨hty, hpayload⟩ := Prod.mk.inj hkey
        refine ⟨settles_dispatchJob hty modelId fun payload hdecode => ?_, fun _ => trivial⟩
        exact hread p payload (hpayload ▸ hdecode)
    · refine (hquiet.covered p hp).imp_right ?_
      rintro ⟨t, hmem, hrest⟩
      exact ⟨t, List.mem_append_left _ hmem, hrest⟩
  | access hi ha hok => exact lookedAfter_access hi ha hok ht hs (hc _ hi _ rfl) hw
  | @markStale w ts s' docIds now h =>
    obtain ⟨-, rfl⟩ | ⟨hne, h⟩ := ok_markDocumentsStale h
    · exact hw
    · obtain ⟨q, -, hq, rfl⟩ := ok_markDocumentsStaleInQueueTime hne h
      refine ⟨hw.paths, fun t hmem p hkey => ?_, fun p hp => .inl (hq p hp)⟩
      have hunder := hw.inHand t hmem p hkey
      refine ⟨hunder.settles, fun hh => ?_⟩
      have hheld := (ht t hmem).holds hlater hh
      have habreast := hunder.abreast hheld
      cases hphase : t.phase with
      | settled =>
        rw [hphase] at habreast
        intro hp
        obtain ⟨r, hr, rfl, hst⟩ := Store.mem_recoverablePairs.1 hp
        obtain ⟨r₀, hr₀, rfl⟩ := (mem_markStale hs.foreignKeys).1 hr
        by_cases hd : r₀.documentId ∈ docIds
        · rw [if_pos hd, staleOf_pair] at hkey
          exact hc _ (mem_pairsOf hr₀ hd) t hmem hheld hkey hphase
        · rw [if_neg hd] at habreast hst
          exact habreast (Store.mem_recoverablePairs.2 ⟨r₀, hr₀, rfl, hst⟩)
      | _ => rw [hphase] at habreast; exact habreast

/-- **No embedding work is orphaned**, in any interleaving where new versions are recorded and
    documents are marked stale in time: every pair with pending or stale rows has its job in the queue
    or a worker in the middle of dispatching it. -/
theorem no_work_orphaned {tr : List SystemOp} {sys : System} (hread : ReadsBack E)
    (h : Run (When Undisturbed (SystemStep E False)) (.start s) tr sys) (hs : WellFormed s)
    (hqueued : ∀ p ∈ s.recoverablePairs, ∃ e ∈ s.jobs.rows, e.uniqueKey = embedJobKey p)
    (hp : p ∈ sys.store.recoverablePairs) :
    (∃ e ∈ sys.store.jobs.rows, e.jobType = .embedDocument ∧ e.payload = embedPayloadJson p) ∨
      ∃ t ∈ sys.dispatches, t.active = true ∧ t.entry.jobType = .embedDocument ∧
        t.entry.payload = embedPayloadJson p := by
  have hattended : LookedAfter E sys := system_invariant h hs.intact
    ⟨hs.paths, fun t ht => absurd ht List.not_mem_nil, fun p hp => .inl (hqueued p hp)⟩
    fun _ _ _ hstep hc hs ht hw => lookedAfter_step hread hstep hc hs ht hw
  have hkey : ∀ {e : JobQueueEntry}, e.uniqueKey = embedJobKey p →
      e.jobType = .embedDocument ∧ e.payload = embedPayloadJson p := fun h => Prod.mk.inj h
  obtain ⟨e, he, hk⟩ | ⟨t, ht, hk, hact, -⟩ := hattended.covered p hp
  · exact .inl ⟨e, he, hkey hk⟩
  · exact .inr ⟨t, ht, hact, hkey hk⟩

/-! ## Two interleavings -/

instance (t : Dispatch) (q : JobQueue) : Decidable (t.Holds q) :=
  inferInstanceAs (Decidable (∃ e ∈ q.rows, e.id = t.entry.id))

instance (sys : System) (p : Pair) : Decidable (Unsettled sys p) :=
  inferInstanceAs (Decidable (∀ t ∈ sys.dispatches, t.Holds sys.store.jobs →
    t.entry.uniqueKey = embedJobKey p → t.phase ≠ .settled))

instance (sys : System) (r : Req) : Decidable (InTime sys r) :=
  match r with
  | .db (.upsertDocument doc modelId _ _) =>
    inferInstanceAs (Decidable (∀ docId ∈ sys.store.writes doc,
      (∀ p ∈ (docId, modelId) :: sys.store.pairsOf [docId], Unsettled sys p) ∧
        ∀ t ∈ sys.dispatches, t.Holds sys.store.jobs → t.phase ≠ .outdated doc.filepath doc.fileHash))
  | .connect | .metadata _ | .openFile _ | .readFile _ | .isDir _ | .canonicalize _ | .walk _
  | .gitPlan _ | .trackedFiles _ | .embed _ _ | .now | .db (.findDocument _) | .db (.findModel _)
  | .db (.listRecoverable _ _) | .db (.completeJob _) | .db (.deferJob _ _ _)
  | .db (.deleteDocument _) | .db (.replaceEmbeddings _ _ _ _) => isTrue trivial

instance (sys : System) (op : SystemOp) : Decidable (Undisturbed sys op) :=
  match op with
  | .access i =>
    inferInstanceAs (Decidable (∀ t ∈ sys.dispatches[i]?, ∀ r ∈ t.next?, InTime sys r))
  | .markStale docIds _ =>
    inferInstanceAs (Decidable (∀ p ∈ sys.store.pairsOf docIds, Unsettled sys p))
  | .enqueue _ _ _ | .claim _ _ _ => isTrue trivial

theorem readsBack_sampleEnv : ReadsBack sampleEnv := by
  intro p payload h
  dsimp only [sampleEnv] at h
  split at h
  · rename_i q hf
    cases h
    exact embedPayloadJson_injective (by simpa using List.find?_some hf)
  · cases h

theorem wellFormed_registeredStore : WellFormed registeredStore := by
  have hdocuments : registeredStore.documents.rows = [] := by decide +kernel
  have hrows : registeredStore.embeddings.rows = [] := by decide +kernel
  have hjobs : registeredStore.jobs.rows = [] := by decide +kernel
  refine ⟨?_, ?_, ?_, ?_, ?_, ?_⟩
  · exact fun r hr => absurd (hrows ▸ hr) List.not_mem_nil
  · exact fun d hd => absurd (hdocuments ▸ hd) List.not_mem_nil
  · exact fun r hr => absurd (hrows ▸ hr) List.not_mem_nil
  · exact fun r hr => absurd (hrows ▸ hr) List.not_mem_nil
  · exact indexed_none
  · exact fun e he => absurd (hjobs ▸ he) List.not_mem_nil

/-- A worker has claimed the embed job of `a` when another one ingests `abcd`.  Then the first finds
    the document outdated, plans its own version again and completes its job; a third embeds this
    plan, and the document is marked stale. -/
def overtakenOps : List SystemOp :=
  ingestOps [0x61] ++ accesses 1 1 ++ reingestOps fourBytes ++ accesses 1 17 ++
    .claim (sampleView [0x61]) 1 50 :: accesses 3 17 ++ [.markStale [1] 60]

theorem no_work_orphaned_overtaken : ∃ sys, Run (When Undisturbed (SystemStep sampleEnv False))
    (.start registeredStore) overtakenOps sys ∧ (∀ t ∈ sys.dispatches, t.active = false) ∧
      (1, 1) ∈ sys.store.recoverablePairs ∧
        ((∃ e ∈ sys.store.jobs.rows, e.jobType = .embedDocument ∧ e.payload = embedPayloadJson (1, 1)) ∨
          ∃ t ∈ sys.dispatches, t.active = true ∧ t.entry.jobType = .embedDocument ∧
            t.entry.payload = embedPayloadJson (1, 1)) := by
  have hplay : ((playSystem sampleEnv Undisturbed (sampleOutside none 5) overtakenOps
      (.start registeredStore)).any fun sys => sys.dispatches.all (fun t => decide (t.active = false)) &&
        decide ((1, 1) ∈ sys.store.recoverablePairs)) = true := by
    decide +kernel
  obtain ⟨sys, hsys, hcheck⟩ := (Option.any_eq_true _ _).1 hplay
  simp only [Bool.and_eq_true, List.all_eq_true, decide_eq_true_eq] at hcheck
  have hrun : Run (When Undisturbed (SystemStep sampleEnv False)) (.start registeredStore)
    overtakenOps sys := run_of_playSystem hsys
  refine ⟨sys, hrun, hcheck.1, hcheck.2, no_work_orphaned readsBack_sampleEnv hrun
    wellFormed_registeredStore (fun p hp => ?_) hcheck.2⟩
  obtain ⟨r, hr, -⟩ := Store.mem_recoverablePairs.1 hp
  have hrows : registeredStore.embeddings.rows = [] := by decide +kernel
  exact absurd (hrows ▸ hr) List.not_mem_nil

/-- Another worker ingests a new version when the embed dispatch has replaced its rows but not yet
    completed its job: the pair's job is skipped as claimed, and then it is deleted. -/
theorem claimed_job_skipped_and_deleted : ∃ sys, Run (SystemStep sampleEnv False)
    (.start registeredStore) (ingestOps [0x61] ++ accesses 1 16 ++ reingestOps [0x62] ++ accesses 1 1)
    sys ∧ (1, 1) ∈ sys.store.recoverablePairs ∧
      (∀ e ∈ sys.store.jobs.rows, e.payload ≠ embedPayloadJson (1, 1)) ∧
        ∀ t ∈ sys.dispatches, t.active = false := by
  have hplay : ((playSystem sampleEnv AnyStep (sampleOutside none 5)
      (ingestOps [0x61] ++ accesses 1 16 ++ reingestOps [0x62] ++ accesses 1 1)
      (.start registeredStore)).any fun sys =>
        decide ((1, 1) ∈ sys.store.recoverablePairs) &&
        sys.store.jobs.rows.all (fun e => decide (e.payload ≠ embedPayloadJson (1, 1))) &&
        sys.dispatches.all fun t => decide (t.active = false)) = true := by
    decide +kernel
  obtain ⟨sys, hsys, hcheck⟩ := (Option.any_eq_true _ _).1 hplay
  simp only [Bool.and_eq_true, List.all_eq_true, decide_eq_true_eq] at hcheck
  obtain ⟨⟨hp, hjobs⟩, hts⟩ := hcheck
  exact ⟨sys, (run_of_playSystem hsys).mono fun _ _ _ h => h.1, hp, hjobs, hts⟩

end Ask
