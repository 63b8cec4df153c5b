/-
  Migrations commit at most once and in order, however many processes migrate
  the database and wherever they stop.
-/
import Ask.Migrations

namespace Ask

open Lib

variable {σ : Type} {exec : String → σ → Except AnyError σ} {list before after : List Migration}
  {m : Migration} {db db' : Database σ} {w w' : Migrated σ} {schema : σ}

/-! ## The check of the list -/

theorem validateAfter_eq_ok : ∀ {list : List Migration} {previous : Option ℤ},
    validateAfter previous list = .ok () ↔ (∀ v, previous = some v → ∀ m ∈ list, v < m.version) ∧
      list.Pairwise (fun m m' => m.version < m'.version) ∧ ∀ m ∈ list, 0 < m.version
  | [], previous => by simp [validateAfter]
  | m :: rest, previous => by
    have hrest : validateAfter (some m.version) rest = .ok () ↔
        (m :: rest).Pairwise (fun m m' => m.version < m'.version) ∧ ∀ m' ∈ rest, 0 < m'.version := by
      rw [validateAfter_eq_ok, List.pairwise_cons]
      simp only [Option.some.injEq, forall_eq', and_assoc]
    have hhead : validateAfter previous (m :: rest) = .ok () ↔
        (∀ v, previous = some v → v < m.version) ∧ 0 < m.version ∧
          validateAfter (some m.version) rest = .ok () := by
      cases previous with
      | none =>
        by_cases hpos : 0 < m.version
        · simp [validateAfter, hpos]
        · simp [validateAfter, hpos, throw, throwThe, MonadExceptOf.throw, bind, Except.bind]
      | some v =>
        by_cases hlt : v < m.version
        · by_cases hpos : 0 < m.version
          · simp [validateAfter, hlt, hpos]
          · simp [validateAfter, hlt, hpos, throw, throwThe, MonadExceptOf.throw, bind, Except.bind]
        · simp [validateAfter, hlt, throw, throwThe, MonadExceptOf.throw, bind, Except.bind]
    rw [hhead, hrest]
    constructor
    · rintro ⟨hprev, hpos, hpair, hrest⟩
      refine ⟨fun v hv m' hm' => ?_, hpair, fun m' hm' => ?_⟩
      · rcases List.mem_cons.1 hm' with rfl | hm'
        · exact hprev v hv
        · exact (hprev v hv).trans ((List.pairwise_cons.1 hpair).1 m' hm')
      · rcases List.mem_cons.1 hm' with rfl | hm'
        · exact hpos
        · exact hrest m' hm'
    · rintro ⟨hprev, hpair, hpos⟩
      exact ⟨fun v hv => hprev v hv m List.mem_cons_self, hpos m List.mem_cons_self, hpair,
        fun m' hm' => hpos m' (List.mem_cons_of_mem m hm')⟩

/-- The check accepts the lists of strictly increasing, positive versions. -/
theorem validateMigrations_eq_ok : validateMigrations list = .ok () ↔
    list.Pairwise (fun m m' => m.version < m'.version) ∧ ∀ m ∈ list, 0 < m.version := by
  rw [validateMigrations, validateAfter_eq_ok]
  simp

example (includeStr : String → String) : validateMigrations (migrations includeStr) = .ok () := by
  rfl

/-! ## What a request does -/

theorem recorded_createMigrationsTable {u : Unit} (h : createMigrationsTable.Ok db u db') :
    db'.recorded = db.recorded ∧ db'.schema = db.schema := by
  obtain ⟨-, rfl⟩ := Prod.mk.inj (Except.ok.inj (Tx.ok_exec.1 (Tx.ok_mapError.1 h)))
  cases hdb : db.migrations with
  | none => simp [Database.recorded, hdb, MigrationsTable.empty]
  | some t => simp [Database.recorded, hdb]

theorem ok_loadAppliedVersions {versions : Finset ℤ} (h : loadAppliedVersions.Ok db versions db') :
    db' = db ∧ ∀ v, v ∈ versions ↔ v ∈ db.recorded := by
  obtain ⟨hload, rfl⟩ := Tx.ok_query.1 h
  refine ⟨rfl, fun v => ?_⟩
  cases hdb : db.migrations with
  | none =>
    rw [hdb] at hload
    cases hload
  | some t =>
    rw [hdb] at hload
    cases hload
    simp [Database.recorded, hdb]

/-- A version is recorded once: the transaction of a recorded migration does not commit. -/
theorem ok_applyMigration {u : Unit} (h : (applyMigration exec m).Ok db u db') :
    m.version ∉ db.recorded ∧ db'.recorded = db.recorded ++ [m.version] ∧
      exec m.sql db.schema = .ok db'.schema := by
  simp only [applyMigration, Tx.ok_transaction, Tx.ok_bind, Tx.ok_mapError] at h
  obtain ⟨_, db₁, hscript, hrow⟩ := h
  have hscript : ∃ schema, exec m.sql db.schema = .ok schema ∧ db₁ = { db with schema := schema } := by
    have h := Tx.ok_exec.1 hscript
    cases hexec : exec m.sql db.schema with
    | error e =>
      rw [hexec] at h
      cases h
    | ok schema =>
      rw [hexec] at h
      cases h
      exact ⟨schema, rfl, rfl⟩
  obtain ⟨schema, hexec, rfl⟩ := hscript
  have h := Tx.ok_exec.1 hrow
  dsimp only at h
  split at h
  · cases h
  · rename_i t ht
    split at h
    · cases h
    · rename_i t' ht'
      cases h
      unfold MigrationsTable.insert at ht'
      split_ifs at ht' with hnew
      cases ht'
      simp only [Database.recorded, ht, Option.elim_some, List.map_append, List.map_singleton]
      exact ⟨hnew, trivial, hexec⟩

/-! ## The log -/

/-- The log is an initial part of the list, its versions are those of the tracking table, and the
    rest of the database is what its scripts have made of `schema`, in their order. -/
structure InOrder (exec : String → σ → Except AnyError σ) (schema : σ) (list : List Migration)
    (w : Migrated σ) : Prop where
  initial : w.log <+: list
  recorded : w.db.recorded = w.log.map Migration.version
  scripts : w.log.foldlM (fun schema m => exec m.sql schema) schema = .ok w.db.schema

/-- An initial part that holds all that comes before an element, but not the element, ends there. -/
theorem eq_of_initial {α : Type} {a : α} {after : List α} : ∀ {before l : List α},
    (before ++ a :: after).Nodup → l <+: before ++ a :: after → (∀ x ∈ before, x ∈ l) → a ∉ l → l = before
  | [], l, _, hl, _, ha => by
    obtain hnil | ⟨t, rfl, -⟩ := List.prefix_cons_iff.1 hl
    · exact hnil
    · exact absurd List.mem_cons_self ha
  | b :: before, l, hnodup, hl, hall, ha => by
    obtain rfl | ⟨t, rfl, ht⟩ := List.prefix_cons_iff.1 hl
    · exact absurd (hall b List.mem_cons_self) List.not_mem_nil
    · rw [List.cons_append, List.nodup_cons] at hnodup
      have hrest : ∀ x ∈ before, x ∈ t := by
        intro x hx
        refine List.mem_of_ne_of_mem ?_ (hall x (List.mem_cons_of_mem b hx))
        rintro rfl
        exact hnodup.1 (List.mem_append_left _ hx)
      rw [eq_of_initial hnodup.2 ht hrest fun h => ha (List.mem_cons_of_mem b h)]

/-- Where all the earlier migrations have committed, one that commits is the next one of the list. -/
theorem InOrder.apply (h : InOrder exec schema (before ++ m :: after) w)
    (hnodup : (before ++ m :: after).Nodup) (hall : ∀ m' ∈ before, m' ∈ w.log) {u : Unit}
    (hok : (applyMigration exec m).Ok w.db u db') :
    w.log = before ∧ InOrder exec schema (before ++ m :: after) ⟨db', w.log ++ [m]⟩ := by
  obtain ⟨hnew, hrec, hexec⟩ := ok_applyMigration hok
  have hlog : w.log = before := by
    refine eq_of_initial hnodup h.initial hall fun hm => ?_
    rw [h.recorded] at hnew
    exact hnew (List.mem_map_of_mem hm)
  refine ⟨hlog, ?_, ?_, ?_⟩
  · rw [hlog]
    exact ⟨after, by simp⟩
  · rw [hrec, h.recorded, List.map_append, List.map_singleton]
  · rw [List.foldlM_append, h.scripts]
    simp [bind, Except.bind, pure, Except.pure, hexec]

/-! ## One process -/

/-- What a process leaves to the others: the log grows at its end, and stays in order. -/
structure Grows (exec : String → σ → Except AnyError σ) (schema : σ) (list : List Migration)
    (w w' : Migrated σ) : Prop where
  log : w.log <+: w'.log
  inOrder : InOrder exec schema list w → InOrder exec schema list w'

theorem Grows.refl (w : Migrated σ) : Grows exec schema list w w := ⟨List.prefix_refl _, id⟩

theorem Grows.mem (h : Grows exec schema list w w') (hm : m ∈ w.log) : m ∈ w'.log := h.log.subset hm

/-- A process relies on what it guarantees. -/
def migrating (exec : String → σ → Except AnyError σ) (schema : σ) (list : List Migration) :
    Setting (Migrated σ) MigrationReq MigrationReq.Ans where
  step := Answered exec
  rely := Grows exec schema list
  guar w _ _ w' := Grows exec schema list w w'

/-- A run that returns well leaves nothing to apply. -/
def Complete (list : List Migration) : Except AnyError ℕ → Migrated σ → Prop
  | .ok _, w => ∀ m ∈ list, m ∈ w.log
  | .error _, _ => True

theorem parallel_migrating : Pool.Parallel (migrating exec schema list) (InOrder exec schema list)
    (Complete list) where
  refl := Grows.refl
  trans h h' := ⟨h.log.trans h'.log, h'.inOrder ∘ h.inOrder⟩
  guar h := h
  keeps h := h.inOrder
  stable {a _ _} h hQ := by
    cases a with
    | ok n => exact fun m hm => h.mem (hQ m hm)
    | error e => trivial

/-- A request: it commits and the program goes on, or an error ends it. -/
theorem sat_perform {r : MigrationReq} {f : r.Val → Migrate ℕ}
    (h : ∀ w₁, Grows exec schema list w w₁ → ∀ v db, (r.run exec).Ok w₁.db v db →
      Grows exec schema list w₁ ⟨db, w₁.log ++ r.committed⟩ ∧
        Task.Sat (migrating exec schema list) (f v) (Complete list) ⟨db, w₁.log ++ r.committed⟩) :
    Task.Sat (migrating exec schema list) (perform r >>= f) (Complete list) w := by
  rw [Task.sat_bind]
  intro w₁ h₁ a w₂ hstep
  cases hstep with
  | done hok => exact h w₁ h₁ _ _ hok
  | unheard hok => exact ⟨(h w₁ h₁ _ _ hok).1, trivial⟩
  | failed => exact ⟨.refl _, trivial⟩

/-- A request that changes no version and no table of a script. -/
theorem grows_of_recorded (hrec : db.recorded = w.db.recorded) (hschema : db.schema = w.db.schema) :
    Grows exec schema list w ⟨db, w.log ++ []⟩ := by
  rw [List.append_nil]
  refine ⟨List.prefix_refl _, fun h => ⟨h.initial, ?_, ?_⟩⟩
  · rw [← h.recorded]
    exact hrec
  · rw [h.scripts, hschema]

/-- The loop: what comes before its position has committed, and so has all that the table showed. -/
theorem sat_applyPending {applied : Finset ℤ} : ∀ {after before : List Migration} {n : ℕ} {w : Migrated σ},
    list = before ++ after → list.Nodup → InOrder exec schema list w → (∀ m ∈ before, m ∈ w.log) →
      (∀ m ∈ list, m.version ∈ applied → m ∈ w.log) →
      Task.Sat (migrating exec schema list) (applyPending applied after n) (Complete list) w
  | [], before, n, w, hlist, _, _, hbefore, _ => by
    rw [List.append_nil] at hlist
    exact hlist ▸ hbefore
  | m :: after, before, n, w, hlist, hnodup, hw, hbefore, happlied => by
    have hnext : list = (before ++ [m]) ++ after := by simp [hlist]
    rw [applyPending]
    split_ifs with hmem
    · have hm : m ∈ w.log := happlied m (by simp [hlist]) hmem
      refine sat_applyPending hnext hnodup hw ?_ happlied
      exact List.forall_mem_append.2 ⟨hbefore, List.forall_mem_singleton.2 hm⟩
    · refine sat_perform fun w₁ h₁ v db hok => ?_
      have hw₁ := h₁.inOrder hw
      rw [hlist] at hw₁ hnodup
      obtain ⟨-, hw₂⟩ := hw₁.apply hnodup (fun m' hm' => h₁.mem (hbefore m' hm')) hok
      rw [← hlist] at hw₂ hnodup
      have hgrows : Grows exec schema list w₁ ⟨db, w₁.log ++ [m]⟩ := ⟨List.prefix_append _ _, fun _ => hw₂⟩
      refine ⟨hgrows, sat_applyPending hnext hnodup hw₂ ?_ ?_⟩
      · refine List.forall_mem_append.2
          ⟨?_, List.forall_mem_singleton.2 (List.mem_append_right _ List.mem_cons_self)⟩
        exact fun m' hm' => hgrows.mem (h₁.mem (hbefore m' hm'))
      · exact fun m' hm' hv => hgrows.mem (h₁.mem (happlied m' hm' hv))

/-- In an ordered list a version belongs to one migration. -/
theorem InOrder.mem_log (h : InOrder exec schema list w)
    (hlist : list.Pairwise fun m m' => m.version < m'.version) (hm : m ∈ list) :
    m ∈ w.log ↔ m.version ∈ w.db.recorded := by
  rw [h.recorded, List.mem_map]
  constructor
  · exact fun hlog => ⟨m, hlog, rfl⟩
  · rintro ⟨m', hm', hv⟩
    have hinj : list.Pairwise fun m m' => m.version ≠ m'.version := hlist.imp fun h => ne_of_lt h
    have : Std.Symm fun m m' : Migration => m.version ≠ m'.version := ⟨fun _ _ h => h.symm⟩
    by_contra hne
    refine hinj.forall (h.initial.subset hm') hm ?_ hv
    rintro rfl
    exact hne hm'

theorem sat_applyPendingMigrations (hw : InOrder exec schema list w) :
    Task.Sat (migrating exec schema list) (applyPendingMigrations list) (Complete list) w := by
  refine sat_perform fun w₁ h₁ v db hok => ?_
  obtain ⟨hrec, hschema⟩ := recorded_createMigrationsTable hok
  have hgrows : Grows exec schema list w₁ ⟨db, w₁.log ++ []⟩ := grows_of_recorded hrec hschema
  refine ⟨hgrows, ?_⟩
  cases hcheck : validateMigrations list with
  | error e => exact trivial
  | ok u =>
    obtain ⟨hlist, -⟩ := validateMigrations_eq_ok.1 hcheck
    have hnodup : list.Nodup := hlist.imp fun hlt heq => absurd (congrArg Migration.version heq) (ne_of_lt hlt)
    refine sat_perform fun w₂ h₂ versions db' hload => ?_
    have hw₂ := h₂.inOrder (hgrows.inOrder (h₁.inOrder hw))
    obtain ⟨rfl, hversions⟩ := ok_loadAppliedVersions hload
    have hload : Grows exec schema list w₂ ⟨w₂.db, w₂.log ++ []⟩ := grows_of_recorded rfl rfl
    refine ⟨hload, sat_applyPending (List.nil_append _).symm hnodup (hload.inOrder hw₂) ?_ ?_⟩
    · exact fun m hm => absurd hm List.not_mem_nil
    · exact fun m hm hv => hload.mem ((hw₂.mem_log hlist hm).2 ((hversions _).1 hv))

/-! ## Any number of processes -/

/-- What is known of every state that processes on one database lead to. -/
theorem migrators_sound {list : List Migration} {ms : Migrators σ} {tr : List PoolOp}
    (hdb : db.recorded = []) (h : Run (MigratorsStep exec list) ⟨⟨db, []⟩, []⟩ tr ms) :
    Pool.Sound (migrating exec db.schema list) (InOrder exec db.schema list) (Complete list) ms := by
  refine Pool.sound_run parallel_migrating (fun w hw => sat_applyPendingMigrations hw) h ?_
  exact ⟨⟨list, List.nil_append list⟩, hdb, rfl⟩

/-- **Migrations commit at most once and in order**: in every state that any number of processes lead
    to, interleaved at their transactions, failing and killed anywhere, the recorded versions are an
    initial part of the list, no script has committed twice or before one of a lower version, and a run
    that has returned well leaves all versions recorded. -/
theorem migrations_in_order {list : List Migration} {ms : Migrators σ} {tr : List PoolOp}
    (hlist : list.Pairwise fun m m' => m.version < m'.version) (hdb : db.recorded = [])
    (h : Run (MigratorsStep exec list) ⟨⟨db, []⟩, []⟩ tr ms) :
    ms.state.db.recorded <+: list.map Migration.version ∧
    (ms.state.log.map Migration.version).Nodup ∧
    (∀ before m after, ms.state.log = before ++ m :: after → m ∈ list ∧
      ∀ m' ∈ list, m'.version < m.version → m' ∈ before) ∧
    ∀ n, some (.ret (.ok n)) ∈ ms.procs → ∀ m ∈ list, m.version ∈ ms.state.db.recorded := by
  have hsound := migrators_sound hdb h
  have hw := hsound.1
  have hlog : ms.state.log.Pairwise fun m m' => m.version < m'.version := hlist.sublist hw.initial.sublist
  refine ⟨?_, ?_, ?_, ?_⟩
  · rw [hw.recorded]
    exact hw.initial.map _
  · exact List.pairwise_map.2 (hlog.imp fun hlt => ne_of_lt hlt)
  · rintro before m after heq
    obtain ⟨rest, hrest⟩ := hw.initial
    rw [heq, List.append_assoc, List.cons_append] at hrest
    subst hrest
    refine ⟨by simp, fun m' hm' hlt => ?_⟩
    obtain hm' | hm' := List.mem_append.1 hm'
    · exact hm'
    · -- from the migration on, no version is lower
      obtain ⟨hhead, -⟩ := List.pairwise_cons.1 (List.pairwise_append.1 hlist).2.1
      rcases List.mem_cons.1 hm' with rfl | hm'
      · exact absurd hlt (lt_irrefl _)
      · exact absurd hlt (lt_asymm (hhead m' hm'))
  · intro n hn m hm
    rw [← hw.mem_log hlist hm]
    exact hsound.ended hn m hm

/-! ## Processes played -/

/-- Answer a request by its transaction. -/
def replyMigration (exec : String → σ → Except AnyError σ) (_ : ℕ) (w : Migrated σ) (r : MigrationReq) :
    Option (r.Ans × Migrated σ) :=
  match r.run exec w.db with
  | ⟨.ok v, db, _⟩ => some (.ok v, ⟨db, w.log ++ r.committed⟩)
  | ⟨.error err, _, _⟩ => some (.error err, w)

theorem answered_of_reply {n : ℕ} {r : MigrationReq} {out : r.Ans × Migrated σ}
    (h : replyMigration exec n w r = some out) : Answered exec w r out.1 out.2 := by
  unfold replyMigration at h
  split at h
  · rename_i v db tr hrun
    cases h
    exact .done (by rw [Tx.Ok, hrun]; exact ⟨rfl, rfl⟩)
  · cases h
    exact .failed

/-- What each process has returned, an error as nothing. -/
def outcomes (ms : Migrators σ) : List (Option (Option ℕ)) :=
  ms.procs.map fun p => p.bind fun p => p.result?.map Except.toOption

/-- Two processes look at the table before either of them has applied anything; the second one tries
    the first migration again, and a third one is killed after its look. -/
def racingMigrators : List PoolOp :=
  [.start, .request 0, .request 0, .start, .request 1, .request 1, .request 0, .request 1, .start,
    .request 2, .request 2, .kill 2, .request 0]

/-- Scripts that are remembered. -/
def keepScript (sql : String) (schema : List String) : Except AnyError (List String) := .ok (schema ++ [sql])

theorem migrations_in_order_racing : ∃ ms : Migrators (List String),
    Run (MigratorsStep keepScript ((migrations id).take 2)) ⟨⟨⟨none, []⟩, []⟩, []⟩ racingMigrators ms ∧
    outcomes ms = [some (some 2), some none, none] ∧ ms.state.db.recorded = [1, 2] ∧
    ms.state.db.recorded <+: ((migrations id).take 2).map Migration.version ∧
    (ms.state.log.map Migration.version).Nodup := by
  have hplay : ((Pool.play (replyMigration keepScript) (applyPendingMigrations ((migrations id).take 2))
      racingMigrators 0 ⟨⟨⟨none, []⟩, []⟩, []⟩).any fun ms =>
        decide (outcomes ms = [some (some 2), some none, none]) &&
          decide (ms.state.db.recorded = [1, 2])) = true := by
    decide +kernel
  obtain ⟨ms, hms, hsample⟩ := (Option.any_eq_true _ _).1 hplay
  rw [Bool.and_eq_true, decide_eq_true_eq, decide_eq_true_eq] at hsample
  have hrun : Run (MigratorsStep keepScript ((migrations id).take 2)) ⟨⟨⟨none, []⟩, []⟩, []⟩ racingMigrators ms :=
    Pool.run_of_play (fun n s r out => answered_of_reply) hms
  have hlaw := migrations_in_order (by decide) rfl hrun
  exact ⟨ms, hrun, hsample.1, hsample.2, hlaw.1, hlaw.2.1⟩

end Ask
