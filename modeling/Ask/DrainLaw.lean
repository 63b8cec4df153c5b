/-
  A queue of embed jobs that one worker drains, with an outside of which
  nothing fails, and the store that is left.
-/
import Ask.Drain

namespace Ask

open Lib Task

variable {E : Env} {view : View} {vector : EmbeddingModel → Bytes → Vector32} {s s' : Store} {d : Document}
  {m : EmbeddingModel} {docId modelId now : ℤ} {entry : JobQueueEntry}

/-! ## Runs -/

/-- One round of the worker: it claims a job at some time and dispatches it, which gives some result. -/
def Tick (E : Env) (view : View) (vector : EmbeddingModel → Bytes → Vector32) (modelId : ℤ) (s : Store)
    (round : ℤ × Except AnyError Unit) (s' : Store) : Prop :=
  ∃ entry w, (claimJob s.jobs round.1).1 = some entry ∧
    Proc.Runs (Reliable view vector) (dispatchJob E entry modelId)
      ⟨{ s with jobs := (claimJob s.jobs round.1).2 }, [], []⟩ round.2 w ∧ s' = w.store

theorem Drainable.claimed (h : Drainable E view vector m s) (now : ℤ) :
    Drainable E view vector m { s with jobs := (claimJob s.jobs now).2 } := by
  have hattended := h.attended.claimed now
  exact ⟨hattended.wellFormed, hattended.fits, h.ofModel, h.planned,
    fun k hk => h.jobs k ((asked_claimJob s.jobs now).1 hk), hattended.queued⟩

theorem workload_claimed (E : Env) (view : View) (s : Store) (now : ℤ) :
    workload E view { s with jobs := (claimJob s.jobs now).2 } = workload E view s := by
  have hlen : (claimJob s.jobs now).2.rows.length = s.jobs.rows.length := by
    obtain ⟨-, h, -⟩ | ⟨e₀, -, -, -, -, h, -⟩ := claimJob_cases s.jobs now
    · rw [h]
    · rw [h, List.length_map]
  exact congrArg ((outdated E view s).length + ·) hlen

/-- A claimed job is a pair's. -/
theorem Drainable.of_claimed (h : Drainable E view vector m s)
    (hclaim : (claimJob s.jobs now).1 = some entry) :
    entry ∈ (claimJob s.jobs now).2.rows ∧ ∃ docId, entry.uniqueKey = embedJobKey (docId, m.id) ∧
      E.decodeEmbedPayload entry.payload = .ok ⟨docId, m.id⟩ := by
  have hentry := mem_of_claim hclaim
  obtain ⟨docId, hkey, hdecode⟩ := (h.claimed now).jobs _ (mem_asked.2 ⟨entry, hentry, rfl⟩)
  exact ⟨hentry, docId, hkey, hdecode⟩

/-- A round ends well, with one of the outcomes. -/
theorem Drainable.tick {round : ℤ × Except AnyError Unit} (hs : Drainable E view vector m s)
    (h : Tick E view vector modelId s round s') :
    round.2 = .ok () ∧ ∃ entry docId, entry ∈ (claimJob s.jobs round.1).2.rows ∧
      entry.uniqueKey = embedJobKey (docId, m.id) ∧ DispatchOutcome E view vector m entry.id docId
        { s with jobs := (claimJob s.jobs round.1).2 } s' := by
  obtain ⟨entry, w, hclaim, hrun, rfl⟩ := h
  obtain ⟨hentry, docId, hkey, hdecode⟩ := hs.of_claimed hclaim
  have ht := hs.claimed round.1
  have hty : entry.jobType = .embedDocument := congrArg Prod.fst hkey
  have hworks : Works (Reliable view vector) (dispatchJob E entry modelId)
      ⟨{ s with jobs := (claimJob s.jobs round.1).2 }, [], []⟩ :=
    works_dispatchJob hty hdecode ht.fits ht.plannedFor
  obtain ⟨_, hok⟩ := hworks.of_runs hrun
  rw [hok] at hrun
  exact ⟨hok, entry, docId, hentry, hkey, done_outcome ht.wellFormed hty hdecode ht.fits.mem hrun⟩

theorem isSome_vec_of_tick {round : ℤ × Except AnyError Unit} (hs : Drainable E view vector m s)
    (h : Tick E view vector modelId s round s') : s'.vec.isSome = s.vec.isSome := by
  obtain ⟨-, entry, docId, -, -, hout⟩ := hs.tick h
  have hdim := congrArg Option.isSome hout.dimensions
  rwa [Option.isSome_map, Option.isSome_map] at hdim

theorem Drainable.step {round : ℤ × Except AnyError Unit} (hs : Drainable E view vector m s)
    (h : Tick E view vector modelId s round s') :
    Drainable E view vector m s' ∧ workload E view s' < workload E view s := by
  obtain ⟨-, entry, docId, hentry, hkey, hout⟩ := hs.tick h
  have ht := hs.claimed round.1
  refine ⟨hout.drainable ht hentry hkey, ?_⟩
  rw [← workload_claimed E view s round.1]
  exact hout.workload_lt ht.attended hentry hkey

/-- A round can be made whenever a job is claimable. -/
theorem Drainable.exists_tick (hs : Drainable E view vector m s) (modelId : ℤ)
    (hjob : ∃ e ∈ s.jobs.rows, e.claimable now = true) :
    ∃ result s', Tick E view vector modelId s (now, result) s' := by
  obtain ⟨e, he, hclaimable⟩ := hjob
  obtain ⟨-, -, hall⟩ | ⟨e₀, -, -, -, hsome, -⟩ := claimJob_cases s.jobs now
  · rw [hall e he] at hclaimable
    cases hclaimable
  · obtain ⟨-, docId, hkey, hdecode⟩ := hs.of_claimed hsome
    have ht := hs.claimed now
    have hworks : Works (Reliable view vector) (dispatchJob E { e₀ with claimedAt := some now } modelId)
        ⟨{ s with jobs := (claimJob s.jobs now).2 }, [], []⟩ :=
      works_dispatchJob (congrArg Prod.fst hkey) hdecode ht.fits ht.plannedFor
    obtain ⟨_, w, hrun⟩ := hworks.done
    exact ⟨_, w.store, _, w, hsome, hrun, rfl⟩

theorem Drainable.run {rounds : List (ℤ × Except AnyError Unit)} (hs : Drainable E view vector m s)
    (h : Run (Tick E view vector modelId) s rounds s') :
    Drainable E view vector m s' ∧ rounds.length + workload E view s' ≤ workload E view s :=
  h.length_add_le (fun _ _ _ hstep hs => hs.step hstep) hs

theorem Drainable.all_ok {rounds : List (ℤ × Except AnyError Unit)} (hs : Drainable E view vector m s)
    (h : Run (Tick E view vector modelId) s rounds s') : ∀ round ∈ rounds, round.2 = .ok () := by
  induction h with
  | nil => exact List.forall_mem_nil _
  | cons hstep _ ih => exact List.forall_mem_cons.2 ⟨(hs.tick hstep).1, ih (hs.step hstep).1⟩

/-! ## A store that drains -/

/-- The store after the round of that time, if it works. -/
def playTick (E : Env) (o : Outside) (s : Store) (now : ℤ) : Option Store :=
  match claimJob s.jobs now with
  | (some entry, jobs) =>
    match (dispatchJob E entry 1).play (fun _ w r => o.reply w r) 0 ⟨{ s with jobs := jobs }, [], []⟩ with
    | some (.ok (), w) => some w.store
    | _ => none
  | _ => none

theorem tick_of_playTick {o : Outside}
    (hvector : ∀ model inputs, o.embed model inputs = inputs.map (vector model))
    (h : playTick E o s now = some s') : Tick E o.view vector 1 s (now, .ok ()) s' := by
  unfold playTick at h
  split at h
  · rename_i entry jobs hclaim
    split at h
    · rename_i w hplay
      cases h
      refine ⟨entry, w, by rw [hclaim], ?_, rfl⟩
      rw [hclaim]
      refine Proc.runs_play ?_ hplay
      intro _ w r out hr
      refine ⟨o.answers_of_reply hr, ?_⟩
      cases r with
      | embed model inputs =>
        cases hr
        exact congrArg Except.ok (hvector model inputs)
      | metadata path =>
        intro hnone
        dsimp only [Outside.reply] at hr
        rw [hnone] at hr
        cases hr
        exact ⟨_, rfl, rfl⟩
      | _ => trivial
    · cases h
  · cases h

/-- Beside the document whose job is claimed there is one of `/r/g`, embedded and without a job. -/
def besideCalls : List StoreOp :=
  [.reconcile (fun _ => none) sampleModel 0, .activate ⟨1, "m", 1, 4, 0, 0⟩ 0,
    .db (.upsertDocument sampleDocument 1 [(.filename, 0, 0), (.content, 0, 1)] 0),
    .db (.upsertDocument { sampleDocument with filepath := "/r/g" } 1 [(.filename, 0, 0)] 0),
    .db (.replaceEmbeddings 2 1 [⟨.filename, 0, 0, serializeEmbedding [7]⟩] 0), .db (.completeJob 2),
    .claim 10]

/-- The one document has work left, and a job; the other one has neither. -/
def besideStore (s : Store) : Bool :=
  decide (({ sampleDocument with id := 1 } ∈ s.documents.rows ∧ (1, 1) ∈ s.recoverablePairs) ∧
    s.jobs.rows = [sampleEntry] ∧
    { sampleDocument with id := 2, filepath := "/r/g" } ∈ s.documents.rows ∧
    ∃ r ∈ s.embeddings.rows, r.pair = (2, 1) ∧ (r.id, serializeEmbedding [7]) ∈ s.vecRows)

/-- What makes the store of those calls drain, when the file has another hash. -/
def drainsSample (s : Store) : Bool :=
  decide ((⟨1, "m", 1, 4, 0, 0⟩ ∈ s.models.rows ∧ s.vec.isSome = true ∧
      s.vec.all fun v => v.dimensions = 1) ∧
    (∀ r ∈ s.embeddings.rows, r.modelId = 1) ∧
    (∀ d ∈ s.documents.rows, d.filepath = "/r/f" → d.fileHash = sampleEnv.hash [0x61]) ∧
    ∀ k ∈ asked s.jobs, k = embedJobKey (1, 1)) &&
  s.recoverablePairs.all fun p => (asked s.jobs).contains (embedJobKey p)

theorem drainable_sample (hs : WellFormed s) (h : drainsSample s = true) :
    Drainable sampleEnv (sampleOutside (some [0x62]) 20).view (fun _ => sampleVector) ⟨1, "m", 1, 4, 0, 0⟩ s := by
  obtain ⟨hstore, hqueued⟩ := Bool.and_eq_true_iff.1 h
  obtain ⟨⟨hm, -, hdim⟩, hmodel, hdocs, hjobs⟩ := of_decide_eq_true hstore
  refine ⟨hs, ⟨hm, by decide, fun _ => rfl, ?_⟩, hmodel, ?_, ?_,
    fun p hp => List.contains_iff_mem.1 (List.all_eq_true.1 hqueued p hp)⟩
  · intro v hv
    rw [hv, Option.all_some] at hdim
    exact of_decide_eq_true hdim
  · intro d hd file hfile hhash
    dsimp only [sampleOutside] at hfile
    split_ifs at hfile with hpath
    cases hfile
    rw [hdocs d hd hpath] at hhash
    exact absurd hhash (by decide)
  · rintro k hk
    rw [hjobs k hk]
    exact ⟨1, rfl, decode_sampleEntry⟩

/-- Two rounds: the file holds `b` now, so it is planned again and then embedded. -/
theorem sample_rounds : ∃ s s₁ s', Run (StoreStep sampleEnv) .empty besideCalls s ∧
    Drainable sampleEnv (sampleOutside (some [0x62]) 20).view (fun _ => sampleVector) ⟨1, "m", 1, 4, 0, 0⟩ s ∧
    s.vec.isSome = true ∧ besideStore s = true ∧
    Run (Tick sampleEnv (sampleOutside (some [0x62]) 20).view (fun _ => sampleVector) 1) s
      [(90000, .ok ()), (90001, .ok ())] s' ∧
    Run (Tick sampleEnv (sampleOutside (some [0x62]) 20).view (fun _ => sampleVector) 1) s [(90000, .ok ())] s₁ ∧
    (∃ e ∈ s₁.jobs.rows, e.claimable 90001 = true) ∧ s'.jobs.rows = [] := by
  have hplay : ((callStores sampleEnv besideCalls .empty).any fun s =>
      drainsSample s && besideStore s && (playTick sampleEnv (sampleOutside (some [0x62]) 20) s 90000).any fun s₁ =>
          (s₁.jobs.rows.any fun e => e.claimable 90001) &&
            (playTick sampleEnv (sampleOutside (some [0x62]) 20) s₁ 90001).any fun s' => s'.jobs.rows.isEmpty) =
      true := by
    decide +kernel
  obtain ⟨s, hs, hplay⟩ := (Option.any_eq_true _ _).1 hplay
  obtain ⟨hstore, hplay⟩ := Bool.and_eq_true_iff.1 hplay
  obtain ⟨hdrains, hbeside⟩ := Bool.and_eq_true_iff.1 hstore
  obtain ⟨s₁, hs₁, hplay⟩ := (Option.any_eq_true _ _).1 hplay
  obtain ⟨hclaimable, hplay⟩ := Bool.and_eq_true_iff.1 hplay
  obtain ⟨s', hs', hempty⟩ := (Option.any_eq_true _ _).1 hplay
  have hrun := run_of_callStores hs
  have htick := @tick_of_playTick sampleEnv (fun _ => sampleVector) _ _ _ _ (fun _ _ => rfl) hs₁
  have htick' := @tick_of_playTick sampleEnv (fun _ => sampleVector) _ _ _ _ (fun _ _ => rfl) hs'
  exact ⟨s, s₁, s', hrun, drainable_sample (wellFormed_run hrun) hdrains,
    (of_decide_eq_true (Bool.and_eq_true_iff.1 hdrains).1).1.2.1,
    hbeside, .cons htick (.cons htick' (.nil s')), .cons htick (.nil s₁),
    List.any_eq_true.1 hclaimable, List.isEmpty_iff.1 hempty⟩

/-- **The queue drains**: with an outside of which nothing fails, the rounds of a worker all end well,
    there are at most as many as jobs and outdated documents, one more can be made at every time at which
    a job is claimable, and with no job left every row is embedded. -/
theorem queue_drains {rounds : List (ℤ × Except AnyError Unit)} (hs : Drainable E view vector m s)
    (h : Run (Tick E view vector modelId) s rounds s') :
    (∀ round ∈ rounds, round.2 = .ok ()) ∧
      rounds.length ≤ (outdated E view s).length + s.jobs.rows.length ∧
      (∀ now, (∃ e ∈ s'.jobs.rows, e.claimable now = true) →
        ∃ result s'', Tick E view vector modelId s' (now, result) s'') ∧
      (s'.jobs.rows = [] → ∀ r ∈ s'.embeddings.rows, r.state = .embedded) := by
  obtain ⟨hs', hle⟩ := hs.run h
  refine ⟨hs.all_ok h, ?_, fun now hjob => hs'.exists_tick modelId hjob, ?_⟩
  · exact (Nat.le_add_right ..).trans hle
  · intro hnil r hr
    by_contra hst
    have hasked := hs'.queued r.pair (Store.mem_recoverablePairs.2 ⟨r, hr, rfl, recoverable_iff.2 hst⟩)
    rw [asked, hnil] at hasked
    cases hasked

/-- The changed file: after the first round a second one can be made, and after it all is embedded. -/
theorem sample_queue_drains : ∃ (s s₁ s' : Store), Run (StoreStep sampleEnv) .empty besideCalls s ∧
    Run (Tick sampleEnv (sampleOutside (some [0x62]) 20).view (fun _ => sampleVector) 1) s [(90000, .ok ())] s₁ ∧
    (∃ result s'', Tick sampleEnv (sampleOutside (some [0x62]) 20).view (fun _ => sampleVector) 1 s₁ (90001, result)
      s'') ∧
    s'.jobs.rows = [] ∧ ∀ r ∈ s'.embeddings.rows, r.state = .embedded := by
  obtain ⟨s, s₁, s', hrun, hdrains, -, -, hboth, hone, hclaimable, hempty⟩ := sample_rounds
  obtain ⟨-, -, hmore, -⟩ := queue_drains hdrains hone
  obtain ⟨-, -, -, hdone⟩ := queue_drains hdrains hboth
  exact ⟨s, s₁, s', hrun, hone, hmore 90001 hclaimable, hempty, hdone hempty⟩

/-! ## What is left -/

/-- Nothing of the document has changed. -/
structure SameFor (docId : ℤ) (s s' : Store) : Prop where
  documents : ∀ d : Document, d.id = docId → (d ∈ s'.documents.rows ↔ d ∈ s.documents.rows)
  rows : ∀ r : DocumentEmbedding, r.documentId = docId → (r ∈ s'.embeddings.rows ↔ r ∈ s.embeddings.rows)
  vectors : ∀ r ∈ s.embeddings.rows, r.documentId = docId → ∀ bytes,
    (r.id, bytes) ∈ s'.vecRows ↔ (r.id, bytes) ∈ s.vecRows

theorem SameFor.refl (docId : ℤ) (s : Store) : SameFor docId s s :=
  ⟨fun _ _ => Iff.rfl, fun _ _ => Iff.rfl, fun _ _ _ _ => Iff.rfl⟩

theorem SameFor.trans {s'' : Store} (h : SameFor docId s s') (h' : SameFor docId s' s'') :
    SameFor docId s s'' where
  documents d hid := (h'.documents d hid).trans (h.documents d hid)
  rows r hid := (h'.rows r hid).trans (h.rows r hid)
  vectors r hr hid bytes := (h'.vectors r ((h.rows r hid).2 hr) hid bytes).trans (h.vectors r hr hid bytes)

theorem IngestEffect.sameFor {doc : Document} {id : ℤ} {chunks : List ChunkRef}
    (h : IngestEffect s doc id modelId chunks s') (hne : docId ≠ id) : SameFor docId s s' := by
  refine ⟨fun d hid => h.otherDocuments d (hid ▸ hne), fun r hid => h.otherRows r (hid ▸ hne),
    fun r hr hid bytes => (h.otherVectors _).trans (and_iff_left fun r' hr' hid' => ?_)⟩
  rw [AutoTable.eq_of_key hr' hr hid', hid]
  exact hne

/-- The document at the path is as its file: gone with it, or with the rows of its plan, each embedded and
    in the index with the vector of its own input. -/
def TrueToFile (E : Env) (view : View) (vector : EmbeddingModel → Bytes → Vector32) (m : EmbeddingModel)
    (docId : ℤ) (path : String) (s : Store) : Prop :=
  match view path with
  | none => ∀ d ∈ s.documents.rows, d.id ≠ docId
  | some file => (∃ d ∈ s.documents.rows, d.id = docId ∧ d.filepath = path ∧ d.fileHash = E.hash file) ∧
      refsOf s.embeddings (docId, m.id) = {c | c ∈ planRefs E file m} ∧
      ∀ r ∈ s.embeddings.rows, r.pair = (docId, m.id) → r.state = .embedded ∧
        ∃ bytes, bytes = serializeEmbedding (vector m (chunkInput path file r.ref)) ∧
          r.embedding = some bytes ∧ (r.id, bytes) ∈ s.vecRows

/-- The pair has work left, or is done. -/
def Underway (E : Env) (view : View) (vector : EmbeddingModel → Bytes → Vector32) (m : EmbeddingModel)
    (docId : ℤ) (path : String) (s : Store) : Prop :=
  ((docId, m.id) ∈ s.recoverablePairs ∧ ∃ d ∈ s.documents.rows, d.id = docId ∧ d.filepath = path) ∨
    TrueToFile E view vector m docId path s

/-- The document of such a pair is at the path, when it is there. -/
theorem Underway.filepath {path : String} (ht : Underway E view vector m docId path s)
    (hd : d ∈ s.documents.rows) (hid : d.id = docId) : d.filepath = path := by
  obtain ⟨-, d', hd', hid', rfl⟩ | htrue := ht
  · rw [AutoTable.eq_of_key hd hd' (hid.trans hid'.symm)]
  · unfold TrueToFile at htrue
    split at htrue
    · exact absurd hid (htrue d hd)
    · obtain ⟨⟨d', hd', hid', rfl, -⟩, -⟩ := htrue
      rw [AutoTable.eq_of_key hd hd' (hid.trans hid'.symm)]

theorem SameFor.underway {path : String} (h : SameFor docId s s')
    (ht : Underway E view vector m docId path s) : Underway E view vector m docId path s' := by
  have hdoc : ∀ {r : DocumentEmbedding}, r.pair = (docId, m.id) → r.documentId = docId :=
    fun hp => congrArg Prod.fst hp
  obtain ⟨hrec, d, hd, hid, hpath⟩ | htrue := ht
  · obtain ⟨r, hr, hp, hst⟩ := Store.mem_recoverablePairs.1 hrec
    exact .inl ⟨Store.mem_recoverablePairs.2 ⟨r, (h.rows r (hdoc hp)).2 hr, hp, hst⟩, d,
      (h.documents d hid).2 hd, hid, hpath⟩
  · right
    unfold TrueToFile at htrue ⊢
    split at htrue
    · exact fun d hd hid => htrue d ((h.documents d hid).1 hd) hid
    · obtain ⟨⟨d, hd, hid, hpath, hhash⟩, hrefs, hrows⟩ := htrue
      refine ⟨⟨d, (h.documents d hid).2 hd, hid, hpath, hhash⟩, ?_, ?_⟩
      · rw [← hrefs]
        ext c
        exact exists_congr fun r => and_congr_left fun hp => h.rows r (hdoc hp.1)
      · intro r hr hp
        have hr₀ := (h.rows r (hdoc hp)).1 hr
        obtain ⟨hst, bytes, hbytes, hemb, hvec⟩ := hrows r hr₀ hp
        exact ⟨hst, bytes, hbytes, hemb, (h.vectors r hr₀ (hdoc hp) bytes).2 hvec⟩

namespace DispatchOutcome

variable (h : DispatchOutcome E view vector m entry.id docId s s') (hs : WellFormed s)
  (hvec : s.vec.isSome = true)
include h hs hvec

theorem sameFor {docId' : ℤ} (hne : docId' ≠ docId) : SameFor docId' s s' := by
  cases h with
  | gone | idle => exact ⟨fun _ _ => Iff.rfl, fun _ _ => Iff.rfl, fun _ _ _ _ => Iff.rfl⟩
  | deleted _ _ _ hdel =>
    obtain rfl := ok_deleteDocument hdel
    refine ⟨fun d hid => ?_, fun r hid => ?_, fun r hr hid bytes => ?_⟩
    · refine AutoTable.mem_delete.trans (and_iff_left (decide_eq_false fun heq => hne ?_))
      exact hid.symm.trans heq
    · refine AutoTable.mem_delete.trans (and_iff_left (decide_eq_false fun heq => hne ?_))
      exact hid.symm.trans heq
    · refine (mem_vecRows_without (t := s) rfl).trans (and_iff_left fun r' hr' hid' => ?_)
      obtain rfl := AutoTable.eq_of_key hr' hr hid'
      refine decide_eq_false fun heq => hne ?_
      rw [← hid, List.mem_singleton.1 heq]
  | @embedded d file ec _ s₁ _ hid₁ _ _ hsome _ _ hrep =>
    subst hid₁
    have hpair : ∀ {r : DocumentEmbedding}, r.documentId = docId' → r.pair ≠ (d.id, m.id) :=
      fun hid hp => hne (hid.symm.trans (congrArg Prod.fst hp))
    refine ⟨fun d' _ => by rw [← hrep.documents], fun r hid => ?_, fun r hr hid bytes => ?_⟩
    · refine ⟨fun hr => ?_, fun hr => hrep.frame hr (hpair hid)⟩
      obtain ⟨hr₀, -⟩ | ⟨-, c, -, he⟩ := hrep.mem_embeddings hr
      · exact hr₀
      · rw [he] at hid
        exact absurd hid.symm hne
    · -- no row of the pair has this id
      refine (hrep.index hs hvec ?_ (r.id, bytes)).trans (or_iff_left ?_)
      · exact fun r' hr' hp' => hs.workLeft hsome hr' hp'
      · rintro ⟨r', hr', hp', hid', -⟩
        obtain rfl := AutoTable.eq_of_key hr' (hrep.frame hr (hpair hid)) hid'
        exact hpair hid hp'
  | replanned _ _ _ _ _ _ _ hok =>
    obtain ⟨_, hi, -⟩ := seededWith_upsert hok
    have heffect := hi.effect (hs.completed _)
      (wellFormed_upsert hok (hs.completed _)) nodup_planned
    have hsame := heffect.sameFor hne
    exact ⟨hsame.documents, hsame.rows, hsame.vectors⟩

/-- The dispatched pair is done, or planned again. -/
theorem underway_self {path : String} (hplanned : ∀ d ∈ s.documents.rows, ∀ file, view d.filepath = some file →
    E.hash file = d.fileHash → Agrees E s.embeddings d.id m file)
    (ht : Underway E view vector m docId path s) : Underway E view vector m docId path s' := by
  cases h with
  | gone hnone =>
    obtain ⟨-, d, hd, hid, -⟩ | htrue := ht
    · exact absurd hid (hnone d hd)
    · exact .inr htrue
  | @deleted d _ hd hid hfile hdel =>
    obtain rfl := ok_deleteDocument hdel
    right
    unfold TrueToFile
    rw [← ht.filepath hd hid, hfile]
    exact fun d' hd' => by simpa using (AutoTable.mem_delete.1 hd').2
  | @replanned d doc file _ s₁ hd hid hfile hhash hpath hdoc _ hok =>
    obtain ⟨_, hi, -⟩ := seededWith_upsert hok
    have hnew : { doc with id := docId } ∈ s₁.documents.rows := by
      rw [hi.documents]
      exact (hi.written.mem _).2 (.inl rfl)
    have hrec := new_pair_recoverable (List.ne_nil_of_mem filename_mem_planned) hok
    exact .inl ⟨hrec, _, hnew, rfl, hpath.trans (ht.filepath hd hid)⟩
  | idle _ _ _ _ hall =>
    obtain ⟨hrec, -⟩ | htrue := ht
    · obtain ⟨r, hr, hp, hst⟩ := Store.mem_recoverablePairs.1 hrec
      exact absurd (hall r hr hp) (recoverable_iff.1 hst)
    · exact .inr htrue
  | @embedded d file ec _ _ hd hid hfile hhash hsome hrefs hvector hrep =>
    subst hid
    obtain rfl := ht.filepath hd rfl
    right
    unfold TrueToFile
    rw [hfile]
    refine ⟨⟨d, by rwa [← hrep.documents] at hd, rfl, rfl, hhash.symm⟩, ?_, ?_⟩
    · show refsOf _ _ = _
      rw [hs.refsOf_replaced hsome hrefs hrep]
      obtain hempty | hplan := hplanned d hd file hfile hhash
      · obtain ⟨r, hr, hp, -⟩ := hsome
        exact absurd hp (refsOf_eq_empty.1 hempty r hr)
      · exact hplan
    · intro r hr hp
      obtain ⟨-, hne⟩ | ⟨-, c, hc, he⟩ := hrep.mem_embeddings hr
      · exact absurd hp hne
      · have hbytes : r.embedding = some c.embedding := congrArg DocumentEmbedding.embedding he
        refine ⟨by rw [he]; rfl, c.embedding, ?_, hbytes, ?_⟩
        · rw [hvector c hc, he]
          rfl
        · refine (hrep.index hs hvec (fun r' hr' hp' => hs.workLeft hsome hr' hp') _).2 ?_
          exact .inr ⟨r, hr, hp, rfl, hbytes⟩

end DispatchOutcome

theorem Drainable.run_underway {rounds : List (ℤ × Except AnyError Unit)} {path : String}
    (hs : Drainable E view vector m s) (hvec : s.vec.isSome = true)
    (h : Run (Tick E view vector modelId) s rounds s') (ht : Underway E view vector m docId path s) :
    Underway E view vector m docId path s' := by
  induction h with
  | nil => exact ht
  | @cons s s₁ _ round _ hstep _ ih =>
    obtain ⟨-, entry, docId', hentry, hkey, hout⟩ := hs.tick hstep
    have hclaimed := hs.claimed round.1
    refine ih (hs.step hstep).1 ((isSome_vec_of_tick hs hstep).trans hvec) ?_
    by_cases hid : docId = docId'
    · subst hid
      exact hout.underway_self hclaimed.wellFormed hvec hclaimed.planned ht
    · exact (hout.sameFor hclaimed.wellFormed hvec hid).underway ht

theorem Drainable.run_sameFor {rounds : List (ℤ × Except AnyError Unit)}
    (hs : Drainable E view vector m s) (hvec : s.vec.isSome = true)
    (h : Run (Tick E view vector modelId) s rounds s') (hidle : embedJobKey (docId, m.id) ∉ asked s.jobs) :
    SameFor docId s s' := by
  induction h with
  | nil s => exact .refl docId s
  | @cons s s₁ _ round _ hstep _ ih =>
    obtain ⟨-, entry, docId', hentry, hkey, hout⟩ := hs.tick hstep
    have hclaimed := hs.claimed round.1
    have hidle' := mt (asked_claimJob s.jobs round.1).1 hidle
    have hne : docId ≠ docId' := fun heq => hidle' (mem_asked.2 ⟨entry, hentry, heq ▸ hkey⟩)
    have hsame : SameFor docId s s₁ :=
      have hclaim : SameFor docId s { s with jobs := (claimJob s.jobs round.1).2 } :=
        ⟨fun _ _ => Iff.rfl, fun _ _ => Iff.rfl, fun _ _ _ _ => Iff.rfl⟩
      hclaim.trans (hout.sameFor hclaimed.wellFormed hvec hne)
    refine hsame.trans (ih (hs.step hstep).1 ((isSome_vec_of_tick hs hstep).trans hvec) fun hk => ?_)
    exact hidle' (hout.asked_subset hclaimed.attended hentry hkey hk)

/-- A document that is recorded as its file is now, with nothing left to embed, stays as it is. -/
theorem Drainable.run_settled {rounds : List (ℤ × Except AnyError Unit)} (hs : Drainable E view vector m s)
    (hvec : s.vec.isSome = true) (h : Run (Tick E view vector modelId) s rounds s')
    (hd : d ∈ s.documents.rows) (hhash : (view d.filepath).map E.hash = some d.fileHash)
    (hall : ∀ r ∈ s.embeddings.rows, r.pair = (d.id, m.id) → r.state = .embedded) : SameFor d.id s s' := by
  induction h with
  | nil s => exact .refl d.id s
  | @cons s s₁ _ round _ hstep _ ih =>
    obtain ⟨-, entry, docId, -, -, hout⟩ := hs.tick hstep
    have hclaimed := hs.claimed round.1
    have hsame : SameFor d.id { s with jobs := (claimJob s.jobs round.1).2 } s₁ := by
      by_cases hid : d.id = docId
      · subst hid
        cases hout with
        | gone hnone => exact absurd rfl (hnone d hd)
        | deleted hd' hid' hfile =>
          rw [← AutoTable.eq_of_key hd hd' hid'.symm] at hfile
          rw [hfile] at hhash
          cases hhash
        | replanned hd' hid' hfile hne =>
          rw [← AutoTable.eq_of_key hd hd' hid'.symm] at hfile hne
          rw [hfile] at hhash
          exact absurd (Option.some.inj hhash) hne
        | idle => exact ⟨fun _ _ => Iff.rfl, fun _ _ => Iff.rfl, fun _ _ _ _ => Iff.rfl⟩
        | embedded _ _ _ _ hsome =>
          obtain ⟨r, hr, hp, hst⟩ := hsome
          exact absurd (hall r hr hp) hst
      · exact hout.sameFor hclaimed.wellFormed hvec hid
    have hfirst : SameFor d.id s s₁ := ⟨hsame.documents, hsame.rows, hsame.vectors⟩
    refine hfirst.trans (ih (hs.step hstep).1 ((isSome_vec_of_tick hs hstep).trans hvec)
      ((hfirst.documents d rfl).2 hd) fun r hr hp => ?_)
    exact hall r ((hfirst.rows r (congrArg Prod.fst hp)).1 hr) hp

/-- **A drained store is true to the files**: when no job is left, the document of each pair that had work
    left is gone with its file, or recorded with the hash of its file and embedded chunk by chunk as
    planned from it; and documents that no job was for are as before. -/
theorem drained_store {rounds : List (ℤ × Except AnyError Unit)} (hs : Drainable E view vector m s)
    (hvec : s.vec.isSome = true) (h : Run (Tick E view vector modelId) s rounds s')
    (hdone : s'.jobs.rows = []) :
    (∀ d ∈ s.documents.rows, (d.id, m.id) ∈ s.recoverablePairs →
      TrueToFile E view vector m d.id d.filepath s') ∧
    ∀ docId, (∀ e ∈ s.jobs.rows, e.payload ≠ embedPayloadJson (docId, m.id)) → SameFor docId s s' := by
  constructor
  · intro d hd hrec
    obtain ⟨hleft, -⟩ | htrue := hs.run_underway hvec h (.inl ⟨hrec, d, hd, rfl, rfl⟩)
    · have hasked := (hs.run h).1.queued _ hleft
      rw [asked, hdone] at hasked
      cases hasked
    · exact htrue
  · intro docId hfree
    refine hs.run_sameFor hvec h fun hk => ?_
    obtain ⟨e, he, hkey⟩ := mem_asked.1 hk
    exact hfree e he (congrArg Prod.snd hkey)

/-- The changed file, after both rounds, and the other document, which they leave alone. -/
theorem sample_drained_store : ∃ s s' : Store, Run (StoreStep sampleEnv) .empty besideCalls s ∧
    Run (Tick sampleEnv (sampleOutside (some [0x62]) 20).view (fun _ => sampleVector) 1) s
      [(90000, .ok ()), (90001, .ok ())] s' ∧
    TrueToFile sampleEnv (sampleOutside (some [0x62]) 20).view (fun _ => sampleVector) ⟨1, "m", 1, 4, 0, 0⟩ 1 "/r/f"
      s' ∧
    SameFor 2 s s' ∧ { sampleDocument with id := 2, filepath := "/r/g" } ∈ s'.documents.rows ∧
      ∃ r ∈ s'.embeddings.rows, r.pair = (2, 1) ∧ (r.id, serializeEmbedding [7]) ∈ s'.vecRows := by
  obtain ⟨s, s₁, s', hrun, hdrains, hvec, hbeside, hboth, -, -, hempty⟩ := sample_rounds
  obtain ⟨⟨hd, hrec⟩, hjobs, hd', r, hr, hp, hbytes⟩ := of_decide_eq_true hbeside
  obtain ⟨htrue, hsame⟩ := drained_store hdrains hvec hboth hempty
  have hfree : ∀ e ∈ s.jobs.rows, e.payload ≠ embedPayloadJson (2, 1) := by
    intro e he hpayload
    rw [hjobs] at he
    obtain rfl := List.mem_singleton.1 he
    exact absurd (embedPayloadJson_injective hpayload) (by decide)
  have hother := hsame 2 hfree
  have hid : r.documentId = 2 := congrArg Prod.fst hp
  exact ⟨s, s', hrun, hboth, htrue _ hd hrec, hother, (hother.documents _ rfl).2 hd', r, (hother.rows r hid).2 hr,
    hp, (hother.vectors r hr hid _).2 hbytes⟩

end Ask
