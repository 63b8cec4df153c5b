/-
  What seeding does to every job of the queue, and that it always succeeds.
-/
import Ask.Effects
import Ask.Lib.Json

namespace Ask

open Lib

/-! ## Payloads -/

theorem toList_append₅ (a d b m c : String) : (a ++ d ++ b ++ m ++ c).toList =
    a.toList ++ (d.toList ++ (b.toList ++ (m.toList ++ c.toList))) := by
  simp only [String.toList_append, List.append_assoc]

/-- The payload is an object with two members. -/
theorem embedPayloadJson_eq (p : Pair) :
    embedPayloadJson p = Json.writeObject [("document_id", p.1), ("model_id", p.2)] := by
  refine String.toList_inj.1 ((toList_append₅ _ _ _ _ _).trans ?_)
  rw [Json.writeObject, String.toList_ofList]
  simp [Json.writeMembers, Json.writeMember]

theorem readObject_embedPayloadJson (p : Pair) :
    Json.readObject (embedPayloadJson p) = some [("document_id", p.1), ("model_id", p.2)] := by
  rw [embedPayloadJson_eq]
  refine Json.readObject_writeObject (by simp) ?_
  simp only [List.forall_mem_cons, List.not_mem_nil, IsEmpty.forall_iff, implies_true, and_true]
  decide

/-- The payload names its pair. -/
theorem embedPayloadJson_injective : Function.Injective embedPayloadJson := by
  intro p q h
  have h' := congrArg Json.readObject h
  rw [readObject_embedPayloadJson, readObject_embedPayloadJson] at h'
  simp only [Option.some.injEq, List.cons.injEq, Prod.mk.injEq, true_and, and_true] at h'
  exact Prod.ext h'.1 h'.2

theorem embedJobKey_injective : Function.Injective embedJobKey := fun _ _ h =>
  embedPayloadJson_injective (congrArg Prod.snd h)

/-! ## Seeding always succeeds -/

variable {s s' : Store} {now : ℤ} {q q' q'' : JobQueue} {pairs pairs' : List Pair} {p : Pair}
  {e : JobQueueEntry}

/-- The refusal of an enqueue is recognized by its text. -/
theorem isJobAlreadyQueuedError_refusal (jobType payload : String) :
    isJobAlreadyQueuedError (.msg ("a job with type '" ++ jobType ++ "' and payload '" ++ payload ++
      "' is already queued or in progress")) = true := by
  have hend : "' is already queued or in progress".toList =
      "' is ".toList ++ "already queued or in progress".toList := by simp
  refine decide_eq_true ?_
  show _ <:+: String.toList ("a job with type '" ++ jobType ++ "' and payload '" ++ payload ++
    "' is already queued or in progress")
  rw [toList_append₅, hend, ← List.append_assoc, ← List.append_assoc, ← List.append_assoc,
    ← List.append_assoc]
  exact (List.suffix_append _ _).isInfix

theorem succeeds_seedEmbedJob (p : Pair) (s : Store) : Tx.Succeeds (seedEmbedJob p now) s := by
  have hcase := enqueueJob_cases s.jobs .embedDocument (embedPayloadJson p) now
  generalize hout : enqueueJob s.jobs .embedDocument (embedPayloadJson p) now = out at hcase
  obtain ⟨result, q⟩ := out
  obtain ⟨rfl, -⟩ | ⟨-, -, -, -, -, -, rfl, -⟩ | ⟨-, -, -, -, rfl, -⟩ := hcase
  · exact ⟨1, { s with jobs := q }, by rw [seedEmbedJob, Tx.ok_exec, hout]⟩
  · exact ⟨1, { s with jobs := q }, by rw [seedEmbedJob, Tx.ok_exec, hout]⟩
  · refine ⟨0, { s with jobs := q }, ?_⟩
    rw [seedEmbedJob, Tx.ok_exec, hout]
    exact if_pos (isJobAlreadyQueuedError_refusal ..)

theorem succeeds_seedEmbedJobs (s : Store) : Tx.Succeeds (seedEmbedJobs now) s := by
  have hpairs : ∀ (pairs : List Pair) (n : ℕ) (s : Store), Tx.Succeeds (seedPairs now pairs n) s := by
    intro pairs
    induction pairs with
    | nil => exact fun n s => Tx.succeeds_pure
    | cons p pairs ih =>
      exact fun n s => Tx.succeeds_bind (succeeds_seedEmbedJob p s) fun _ s₁ _ => ih _ s₁
  exact Tx.succeeds_bind ⟨_, s, rfl, rfl⟩ fun pairs s₁ _ => hpairs pairs 0 s₁

/-! ## What becomes of every job -/

/-- A job after the pairs were seeded: one of theirs whose claim ran out waits again. -/
def JobQueueEntry.renewed (pairs : List Pair) (now : ℤ) (e : JobQueueEntry) : JobQueueEntry :=
  if e.uniqueKey ∈ pairs.map embedJobKey ∧ e.claimedBefore (now - staleJobAgeSecs) = true then
    { e with claimedAt := none, createdAt := now }
  else e

/-- A job for a pair, as seeding adds it. -/
def newEmbedJob (p : Pair) (now id : ℤ) : JobQueueEntry :=
  ⟨id, .embedDocument, embedPayloadJson p, none, now⟩

namespace JobQueueEntry

@[simp] theorem renewed_id : (e.renewed pairs now).id = e.id := by
  unfold renewed
  split <;> rfl

@[simp] theorem renewed_uniqueKey : (e.renewed pairs now).uniqueKey = e.uniqueKey := by
  unfold renewed
  split <;> rfl

theorem renewed_of_claimedAt (h : e.claimedBefore (now - staleJobAgeSecs) = false) :
    e.renewed pairs now = e := if_neg fun h' => by simp [h] at h'

theorem renewed_of_not_mem (h : e.uniqueKey ∉ pairs.map embedJobKey) : e.renewed pairs now = e :=
  if_neg fun h' => h h'.1

theorem renewed_append : e.renewed (pairs ++ pairs') now = (e.renewed pairs now).renewed pairs' now := by
  by_cases hold : e.claimedBefore (now - staleJobAgeSecs) = true
  · by_cases hmem : e.uniqueKey ∈ pairs.map embedJobKey
    · have hall : e.uniqueKey ∈ (pairs ++ pairs').map embedJobKey := by
        rw [List.map_append]
        exact List.mem_append_left _ hmem
      have hone : e.renewed pairs now = { e with claimedAt := none, createdAt := now } :=
        if_pos ⟨hmem, hold⟩
      have hboth : e.renewed (pairs ++ pairs') now = { e with claimedAt := none, createdAt := now } :=
        if_pos ⟨hall, hold⟩
      rw [hone, hboth, renewed_of_claimedAt rfl]
    · rw [renewed_of_not_mem hmem, renewed, renewed, List.map_append]
      simp only [List.mem_append, hmem, false_or]
  · rw [Bool.not_eq_true] at hold
    rw [renewed_of_claimedAt hold, renewed_of_claimedAt hold, renewed_of_claimedAt hold]

end JobQueueEntry

/-- Seeding for the pairs takes the job's claim back. -/
def renewable (pairs : List Pair) (now : ℤ) (e : JobQueueEntry) : Bool :=
  decide (e.uniqueKey ∈ pairs.map embedJobKey) && e.claimedBefore (now - staleJobAgeSecs)

theorem renewable_iff : renewable pairs now e = true ↔
    e.uniqueKey ∈ pairs.map embedJobKey ∧ e.claimedBefore (now - staleJobAgeSecs) = true := by
  rw [renewable, Bool.and_eq_true, decide_eq_true_eq]

theorem renewable_false (h : e.claimedBefore (now - staleJobAgeSecs) = false) :
    renewable pairs now e = false := by
  rw [renewable, h, Bool.and_false]

theorem renewable_singleton : renewable [p] now e = true ↔
    e.uniqueKey = embedJobKey p ∧ e.claimedBefore (now - staleJobAgeSecs) = true := by
  rw [renewable_iff, List.map_singleton, List.mem_singleton]

/-- The queue `q'` after the pairs were seeded in `q`: every job stays, up to the reset of a claim
    that ran out, and the pairs without a job have a new one. -/
structure SeededWith (pairs : List Pair) (now : ℤ) (q q' : JobQueue) : Prop where
  seq_le : q.seq ≤ q'.seq
  kept : ∀ e ∈ q.rows, e.renewed pairs now ∈ q'.rows
  sound : ∀ e' ∈ q'.rows, (∃ e ∈ q.rows, e' = e.renewed pairs now) ∨
    q.seq < e'.id ∧ ∃ p ∈ pairs, e' = newEmbedJob p now e'.id ∧
      ∀ e ∈ q.rows, e.uniqueKey ≠ embedJobKey p
  queued : ∀ p ∈ pairs, ∃ e ∈ q'.rows, e.uniqueKey = embedJobKey p

namespace SeededWith

theorem nil (q : JobQueue) : SeededWith [] now q q where
  seq_le := le_rfl
  kept e he := by
    rw [JobQueueEntry.renewed_of_not_mem (by simp)]
    exact he
  sound e he := .inl ⟨e, he, (JobQueueEntry.renewed_of_not_mem (by simp)).symm⟩
  queued p hp := absurd hp List.not_mem_nil

theorem append (h : SeededWith pairs now q q') (h' : SeededWith pairs' now q' q'') :
    SeededWith (pairs ++ pairs') now q q'' where
  seq_le := h.seq_le.trans h'.seq_le
  kept e he := by
    rw [JobQueueEntry.renewed_append]
    exact h'.kept _ (h.kept e he)
  sound e'' he'' := by
    obtain ⟨e', he', rfl⟩ | ⟨hlt, p, hp, hnew, hfree⟩ := h'.sound e'' he''
    · obtain ⟨e, he, rfl⟩ | ⟨hlt, p, hp, hnew, hfree⟩ := h.sound e' he'
      · exact .inl ⟨e, he, JobQueueEntry.renewed_append.symm⟩
      · -- the first pass added it, and its claim is free
        refine .inr ?_
        rw [JobQueueEntry.renewed_of_claimedAt (by rw [hnew]; rfl)]
        exact ⟨hlt, p, List.mem_append_left _ hp, hnew, hfree⟩
    · refine .inr ⟨lt_of_le_of_lt h.seq_le hlt, p, List.mem_append_right _ hp, hnew, ?_⟩
      intro e he hkey
      exact hfree _ (h.kept e he) (JobQueueEntry.renewed_uniqueKey.trans hkey)
  queued p hp := by
    rcases List.mem_append.1 hp with hp | hp
    · obtain ⟨e, he, hkey⟩ := h.queued p hp
      exact ⟨_, h'.kept e he, JobQueueEntry.renewed_uniqueKey.trans hkey⟩
    · exact h'.queued p hp

end SeededWith

theorem map_renewed_eq_self {pairs : List Pair} {now : ℤ} {rows : List JobQueueEntry}
    (h : ∀ e ∈ rows, ¬renewable pairs now e = true) : rows.map (·.renewed pairs now) = rows := by
  have hsame : rows.map (·.renewed pairs now) = rows.map id := List.map_congr_left fun e he =>
    if_neg fun hrenew => h e he (renewable_iff.2 hrenew)
  rw [hsame, List.map_id]

/-- One enqueue renews the pair's job or adds it, and succeeds exactly then. -/
theorem rows_enqueueJob_embed (q : JobQueue) (p : Pair) (now : ℤ) :
    ∃ added, (enqueueJob q .embedDocument (embedPayloadJson p) now).2.rows =
        q.rows.map (·.renewed [p] now) ++ added ∧
      (added = [] ∨ added = [newEmbedJob p now (q.seq + 1)] ∧
        ∀ e ∈ q.rows, e.uniqueKey ≠ embedJobKey p) ∧
      ((enqueueJob q .embedDocument (embedPayloadJson p) now).1 = .ok () ∧
          added.length + q.rows.countP (renewable [p] now) = 1 ∨
        (∃ err, (enqueueJob q .embedDocument (embedPayloadJson p) now).1 = .error err) ∧
          added.length + q.rows.countP (renewable [p] now) = 0) := by
  obtain ⟨hok, hfree, hr, -⟩ | ⟨e₀, he₀, c, hk, hc, hlt, hok, hr, -⟩ | ⟨e₀, he₀, hk, hc, herr, hq⟩ :=
    enqueueJob_cases q .embedDocument (embedPayloadJson p) now
  · have hnot : ∀ e ∈ q.rows, ¬renewable [p] now e = true := fun e he h =>
      hfree e he (renewable_singleton.1 h).1
    refine ⟨_, ?_, .inr ⟨rfl, hfree⟩, .inl ⟨hok, ?_⟩⟩
    · rw [hr, map_renewed_eq_self hnot]
      rfl
    · rw [List.countP_eq_zero.2 hnot]
      rfl
  · have hold : e₀.claimedBefore (now - staleJobAgeSecs) = true := by
      refine claimedBefore_iff.2 ⟨c, hc, ?_⟩
      rw [staleJobAgeSecs]
      omega
    have hone : q.rows.countP (renewable [p] now) = 1 := by
      refine AutoTable.countP_eq_one he₀ (renewable_singleton.2 ⟨hk, hold⟩) ?_
      intro e he h
      exact AutoTable.eq_of_index he he₀ ((renewable_singleton.1 h).1.trans hk.symm)
    refine ⟨[], ?_, .inl rfl, .inl ⟨hok, by rw [hone]; rfl⟩⟩
    rw [hr, List.append_nil]
    refine List.map_congr_left ?_
    intro e he
    by_cases hid : e.id = e₀.id
    · obtain rfl := AutoTable.eq_of_key he he₀ hid
      rw [if_pos rfl, JobQueueEntry.renewed, if_pos ⟨by simp [hk, embedJobKey], hold⟩]
    · have hne : e.uniqueKey ∉ [p].map embedJobKey := by
        intro hmem
        have hkey : e.uniqueKey = embedJobKey p := by simpa using hmem
        exact hid (by rw [AutoTable.eq_of_index he he₀ (hkey.trans hk.symm)])
      rw [if_neg hid, JobQueueEntry.renewed_of_not_mem hne]
  · have hnot : ∀ e ∈ q.rows, ¬renewable [p] now e = true := by
      intro e he h
      obtain ⟨hkey, hold⟩ := renewable_singleton.1 h
      obtain rfl := AutoTable.eq_of_index he he₀ (hkey.trans hk.symm)
      obtain ⟨c, hclaim, hlt⟩ := claimedBefore_iff.1 hold
      have := hc c hclaim
      rw [staleJobAgeSecs] at hlt
      omega
    refine ⟨[], ?_, .inl rfl, .inr ⟨⟨_, herr⟩, ?_⟩⟩
    · rw [hq, map_renewed_eq_self hnot, List.append_nil]
    · rw [List.countP_eq_zero.2 hnot]
      rfl

theorem seededWith_enqueueJob (q : JobQueue) (p : Pair) (now : ℤ) :
    SeededWith [p] now q (enqueueJob q .embedDocument (embedPayloadJson p) now).2 := by
  obtain ⟨added, hr, hadded, -⟩ := rows_enqueueJob_embed q p now
  refine ⟨seq_enqueueJob .., ?_, ?_, ?_⟩
  · intro e he
    rw [hr]
    exact List.mem_append_left _ (List.mem_map.2 ⟨e, he, rfl⟩)
  · intro e' he'
    rw [hr] at he'
    rcases List.mem_append.1 he' with he' | he'
    · obtain ⟨e, he, rfl⟩ := List.mem_map.1 he'
      exact .inl ⟨e, he, rfl⟩
    · rcases hadded with rfl | ⟨rfl, hfree⟩
      · exact absurd he' List.not_mem_nil
      · rw [List.mem_singleton.1 he']
        refine .inr ⟨?_, p, List.mem_singleton.2 rfl, rfl, hfree⟩
        show q.seq < q.seq + 1
        omega
  · intro p' hp'
    rw [List.mem_singleton.1 hp']
    exact exists_mem_enqueueJob ..

theorem seededWith_seedPairs : ∀ {pairs : List Pair} {n m : ℕ} {s : Store},
    (seedPairs now pairs n).Ok s m s' → ∃ q, s' = { s with jobs := q } ∧ SeededWith pairs now s.jobs q
  | [], n, m, s, h => by
    obtain ⟨-, rfl⟩ := Tx.ok_pure.1 h
    exact ⟨s.jobs, rfl, .nil _⟩
  | p :: pairs, n, m, s, h => by
    rw [seedPairs, Tx.ok_bind] at h
    obtain ⟨k, s₁, h1, h2⟩ := h
    have hs₁ := ok_seedEmbedJob h1
    obtain ⟨q, rfl, hq⟩ := seededWith_seedPairs h2
    rw [hs₁] at hq ⊢
    exact ⟨q, rfl, (seededWith_enqueueJob s.jobs p now).append hq⟩

/-- Seeding changes only the queue, and there exactly the jobs of the pairs with work left. -/
theorem seededWith_seedEmbedJobs {n : ℕ} (h : (seedEmbedJobs now).Ok s n s') :
    ∃ q, s' = { s with jobs := q } ∧ SeededWith s.recoverablePairs now s.jobs q :=
  seededWith_seedPairs (ok_seedEmbedJobs_iff.1 h)

/-! ## Seeding inside the operations -/

theorem recoverablePairs_congr (h : s.embeddings = s'.embeddings) :
    s.recoverablePairs = s'.recoverablePairs := by
  rw [Store.recoverablePairs, h, Store.recoverablePairs]

theorem seededWith_markDocumentsStaleInQueueTime {docIds : List ℤ} {u : Unit} (hne : docIds ≠ [])
    (h : (markDocumentsStaleInQueueTime docIds now).Ok s u s') :
    SeededWith s'.recoverablePairs now s.jobs s'.jobs := by
  rw [markDocumentsStaleInQueueTime_eq, if_neg hne] at h
  simp only [Tx.ok_bind] at h
  obtain ⟨_, s₁, h1, _, s₂, h2, n, s₃, h3, h4⟩ := h
  obtain rfl := ok_exec_ok.1 h1
  obtain rfl := ok_exec_ok.1 h2
  obtain ⟨q, rfl, hq⟩ := seededWith_seedEmbedJobs h3
  obtain ⟨-, rfl⟩ := Tx.ok_pure.1 h4
  exact hq

/-- Writing a document seeds for every pair with work left, unless the document is new. -/
theorem seededWith_upsertDocumentInTx {doc : Document} {id : ℤ}
    (h : (upsertDocumentInTx doc).Ok s (id, true) s') :
    (s'.jobs = s.jobs ∧ s'.embeddings = s.embeddings ∧
        ∀ d ∈ s.documents.rows, d.filepath ≠ doc.filepath) ∨
      SeededWith s'.recoverablePairs doc.updatedAt s.jobs s'.jobs := by
  unfold upsertDocumentInTx at h
  rw [Tx.ok_bind] at h
  obtain ⟨found, s₁, hl, h⟩ := h
  obtain ⟨rfl, -, hnone⟩ := ok_loadDocumentByPath hl
  cases found with
  | some d =>
    simp only at h
    split_ifs at h with hhash
    · obtain ⟨he, -⟩ := Tx.ok_pure.1 h
      cases he
    · simp only [Tx.ok_bind] at h
      obtain ⟨_, s₂, h1, _, s₃, h2, h3⟩ := h
      obtain rfl := ok_exec_ok.1 h1
      obtain ⟨-, rfl⟩ := Tx.ok_pure.1 h3
      have hseeded := seededWith_markDocumentsStaleInQueueTime (List.cons_ne_nil d.id []) h2
      exact .inr hseeded
  | none =>
    simp only [Tx.ok_bind] at h
    obtain ⟨id', s₂, h1, h2⟩ := h
    obtain ⟨-, rfl⟩ := Tx.ok_pure.1 h2
    rw [insertDocument, Tx.ok_exec] at h1
    split at h1
    · cases h1
      exact .inl ⟨rfl, rfl, hnone rfl⟩
    · cases h1

/-- A transactional ingest with its two seedings: after the document was written, and at the end. -/
theorem seededWith_upsert {doc : Document} {id modelId : ℤ} {chunks : List ChunkRef}
    (h : (upsertDocumentAndReplacePendingEmbeddings doc modelId chunks now).Ok s (id, true) s') :
    ∃ s₁, Ingested s doc id modelId chunks now s₁ s' ∧
      SeededWith s'.recoverablePairs now s₁.jobs s'.jobs ∧
      ((s₁.jobs = s.jobs ∧ s₁.embeddings = s.embeddings ∧
          ∀ d ∈ s.documents.rows, d.filepath ≠ doc.filepath) ∨
        SeededWith s₁.recoverablePairs doc.updatedAt s.jobs s₁.jobs) := by
  obtain ⟨s₁, s₂, n, h1, h2, hemb, hjobs, hi⟩ := ok_upsert_changed h
  obtain ⟨q, rfl, hq⟩ := seededWith_seedEmbedJobs h2
  refine ⟨s₁, hi, ?_, seededWith_upsertDocumentInTx h1⟩
  rw [← hjobs]
  exact hq

/-- Each pair has one job row afterwards. -/
theorem SeededWith.existsUnique (h : SeededWith pairs now q q') (hp : p ∈ pairs) :
    ∃! e, e ∈ q'.rows ∧ e.uniqueKey = embedJobKey p := by
  obtain ⟨e, he, hkey⟩ := h.queued p hp
  refine ⟨e, ⟨he, hkey⟩, ?_⟩
  rintro e' ⟨he', hkey'⟩
  exact AutoTable.eq_of_index he' he (hkey'.trans hkey.symm)

/-- Seeding gives out unclaimed jobs and claims none. -/
theorem SeededWith.unclaimed (h : SeededWith pairs now q q') {k : JobType × String}
    (hq : ∀ e ∈ q.rows, e.uniqueKey = k → e.claimedAt = none) :
    ∀ e ∈ q'.rows, e.uniqueKey = k → e.claimedAt = none := by
  intro e' he' hkey
  obtain ⟨e, he, rfl⟩ | ⟨-, p, -, hnew, -⟩ := h.sound e' he'
  · have hfree := hq e he (JobQueueEntry.renewed_uniqueKey.symm.trans hkey)
    unfold JobQueueEntry.renewed
    split_ifs
    · rfl
    · exact hfree
  · rw [hnew]
    rfl

/-! ## Passes that are stopped -/

/-- What each pair's seeding keeps, seeding keeps. -/
theorem keeps_seedPairs {J : Store → Prop} : ∀ {pairs : List Pair} (n : ℕ),
    (∀ p ∈ pairs, ∀ s q, J s → SeededWith [p] now s.jobs q → J { s with jobs := q }) →
      Tx.Keeps J (seedPairs now pairs n)
  | [], _, _ => Tx.keeps_pure
  | p :: pairs, n, hJ => by
    refine Tx.keeps_bind (Tx.keeps_exec ?_) fun k =>
      keeps_seedPairs _ fun p' hp' => hJ p' (List.mem_cons_of_mem p hp')
    intro s a s' hok hs
    rw [ok_seedEmbedJob hok]
    exact hJ p List.mem_cons_self s _ hs (seededWith_enqueueJob s.jobs p now)

/-- What the job of a pair with work left keeps, a seeding pass keeps. -/
theorem keeps_seedEmbedJobs {J : Store → Prop} (hJ : ∀ t p q, p ∈ t.recoverablePairs → J t →
    SeededWith [p] now t.jobs q → J { t with jobs := q }) : Tx.Keeps J (seedEmbedJobs now) := by
  intro s s' hs h
  obtain h | ⟨pairs, s₁, h1, h2⟩ := Tx.reaches_bind h
  · exact absurd h Tx.commits_query
  · obtain ⟨hp, rfl⟩ := Tx.ok_query.1 h1
    cases hp
    -- the pairs are those of the store at the start
    have hkeep : Tx.Keeps (fun t => J t ∧ t.embeddings = s.embeddings)
        (seedPairs now s.recoverablePairs 0) := by
      refine keeps_seedPairs 0 ?_
      intro p hp t q ht hq
      rw [← recoverablePairs_congr ht.2] at hp
      exact ⟨hJ t p q hp ht.1 hq, ht.2⟩
    exact (hkeep s s' ⟨hs, rfl⟩ h2).1

end Ask
