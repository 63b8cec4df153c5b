/-
  The `job_queue` table and the five statements that work on it
  (`repository.rs`, section JobQueue).
-/
import Ask.Types
import Ask.Lib.AutoTable

namespace Ask

/-- A job with a claim older than this (in seconds) is considered dead and can
    be reclaimed or replaced by a fresh enqueue. -/
def staleJobAgeSecs : ℤ := 86400

/-- The columns of `idx_job_queue_unique`. -/
def JobQueueEntry.uniqueKey (e : JobQueueEntry) : JobType × String := (e.jobType, e.payload)

/-- The `job_queue` table. -/
abbrev JobQueue := Lib.AutoTable JobQueueEntry JobQueueEntry.id JobQueueEntry.uniqueKey

/-- `claimed_at < cutoff` in SQL, where a NULL claim is older than nothing. -/
def JobQueueEntry.claimedBefore (e : JobQueueEntry) (cutoff : ℤ) : Bool :=
  e.claimedAt.any fun c => decide (c < cutoff)

/-- `claimed_at IS NULL OR claimed_at < cutoff`, with the cutoff of a claim at `now`. -/
def JobQueueEntry.claimable (e : JobQueueEntry) (now : ℤ) : Bool :=
  e.claimedAt.isNone || e.claimedBefore (now - staleJobAgeSecs)

/-! ## Statements -/

/-- The upsert of `enqueue_job`: the number of affected rows and the new table.  SQLite skips an id of the
    counter where the upsert finds a row; here it is used by the next new row. -/
def upsertJob (q : JobQueue) (jobType : JobType) (payload : String) (now staleCutoff : ℤ) :
    ℕ × JobQueue :=
  match q.insert fun id => ⟨id, jobType, payload, none, now⟩ with
  | some q' => (1, q')
  | none =>
    let conflict : JobQueueEntry → Bool := fun e =>
      decide (e.uniqueKey = (jobType, payload)) && e.claimedBefore staleCutoff
    (q.rows.countP conflict,
      q.update fun e => if conflict e then { e with claimedAt := none, createdAt := now } else e)

/-- Enqueue a job, or reset it if the existing row is stale. -/
def enqueueJob (q : JobQueue) (jobType : JobType) (payload : String) (now : ℤ) :
    Except AnyError Unit × JobQueue :=
  let staleCutoff := now - staleJobAgeSecs
  let (affected, q') := upsertJob q jobType payload now staleCutoff
  if affected = 0 then
    (.error (.msg ("a job with type '" ++ jobType.asStr ++ "' and payload '" ++ payload ++
      "' is already queued or in progress")), q')
  else (.ok (), q')

/-- Claim the next pending or stale job; `none` when no jobs are waiting. -/
def claimJob (q : JobQueue) (now : ℤ) : Option JobQueueEntry × JobQueue :=
  match q.rows.find? fun e => e.claimable now with
  | none => (none, q)
  | some picked =>
    (some { picked with claimedAt := some now },
      q.update fun e => if e.id = picked.id then { e with claimedAt := some now } else e)

/-- The synthetic claim timestamp that ends `retryAfterSecs` after `now`. -/
def deferredClaimedAt (now : ℤ) (retryAfterSecs : ℕ) : ℤ :=
  now - staleJobAgeSecs + (min (retryAfterSecs : ℤ) staleJobAgeSecs - 1)

/-- Defer a claimed job for a short retry cooldown. -/
def deferJobForRetry (q : JobQueue) (jobId now : ℤ) (retryAfterSecs : ℕ) : JobQueue :=
  q.update fun e =>
    if e.id = jobId then { e with claimedAt := some (deferredClaimedAt now retryAfterSecs) } else e

/-- Remove a completed job from the queue. -/
def completeJob (q : JobQueue) (jobId : ℤ) : JobQueue := q.delete fun e => decide (e.id = jobId)

/-! ## What each statement does -/

theorem claimable_iff {e : JobQueueEntry} {now : ℤ} :
    e.claimable now = true ↔ ∀ c, e.claimedAt = some c → c + 86400 < now := by
  cases h : e.claimedAt with
  | none => simp [JobQueueEntry.claimable, h]
  | some c =>
    have hb : e.claimable now = decide (c < now - staleJobAgeSecs) := by
      simp [JobQueueEntry.claimable, JobQueueEntry.claimedBefore, h]
    rw [hb, decide_eq_true_eq, staleJobAgeSecs]
    constructor
    · rintro hlt _ ⟨⟩; omega
    · intro hall; have := hall c rfl; omega

theorem claimedBefore_iff {e : JobQueueEntry} {cutoff : ℤ} :
    e.claimedBefore cutoff = true ↔ ∃ c, e.claimedAt = some c ∧ c < cutoff := by
  simp [JobQueueEntry.claimedBefore, Option.any_eq_true]

section
variable (q : JobQueue) (jobType : JobType) (payload : String) (now : ℤ)

/-- An enqueue adds a row, resets the row of a claim that ran out, or is refused
    because of a row that waits or is being worked on. -/
theorem enqueueJob_cases :
    ((enqueueJob q jobType payload now).1 = .ok () ∧
      (∀ e ∈ q.rows, e.uniqueKey ≠ (jobType, payload)) ∧
      (enqueueJob q jobType payload now).2.rows =
        q.rows ++ [⟨q.seq + 1, jobType, payload, none, now⟩] ∧
      (enqueueJob q jobType payload now).2.seq = q.seq + 1) ∨
    (∃ e₀ ∈ q.rows, ∃ c, e₀.uniqueKey = (jobType, payload) ∧ e₀.claimedAt = some c ∧
      c + 86400 < now ∧ (enqueueJob q jobType payload now).1 = .ok () ∧
      (enqueueJob q jobType payload now).2.rows = q.rows.map (fun e =>
        if e.id = e₀.id then { e with claimedAt := none, createdAt := now } else e) ∧
      (enqueueJob q jobType payload now).2.seq = q.seq) ∨
    (∃ e₀ ∈ q.rows, e₀.uniqueKey = (jobType, payload) ∧
      (∀ c, e₀.claimedAt = some c → now ≤ c + 86400) ∧
      (enqueueJob q jobType payload now).1 = .error (.msg ("a job with type '" ++ jobType.asStr ++
        "' and payload '" ++ payload ++ "' is already queued or in progress")) ∧
      (enqueueJob q jobType payload now).2 = q) := by
  unfold enqueueJob upsertJob
  cases hi : q.insert (fun id => ⟨id, jobType, payload, none, now⟩) with
  | some q' =>
    obtain ⟨hfree, hrows, hseq⟩ := Lib.AutoTable.insert_eq_some.1 hi
    exact .inl ⟨rfl, hfree, hrows, hseq⟩
  | none =>
    obtain ⟨e₀, he₀, hkey⟩ := Lib.AutoTable.insert_eq_none.1 hi
    replace hkey : e₀.uniqueKey = (jobType, payload) := hkey
    have hsame : ∀ e ∈ q.rows, e.uniqueKey = (jobType, payload) ↔ e.id = e₀.id := fun e he =>
      ⟨fun h => by rw [Lib.AutoTable.eq_of_index he he₀ (h.trans hkey.symm)],
        fun h => by rw [Lib.AutoTable.eq_of_key he he₀ h, hkey]⟩
    by_cases hold : e₀.claimedBefore (now - staleJobAgeSecs) = true
    · obtain ⟨c, hc, hlt⟩ := claimedBefore_iff.1 hold
      have hpos : q.rows.countP (fun e => decide (e.uniqueKey = (jobType, payload)) &&
          e.claimedBefore (now - staleJobAgeSecs)) ≠ 0 := by
        rw [Nat.ne_zero_iff_zero_lt, List.countP_pos_iff]
        exact ⟨e₀, he₀, by simp [hkey, hold]⟩
      refine .inr (.inl ⟨e₀, he₀, c, hkey, hc, by simp only [staleJobAgeSecs] at hlt; omega, ?_⟩)
      simp only [hpos, if_false, Lib.AutoTable.rows_update, Lib.AutoTable.seq_update, true_and,
        and_true]
      refine List.map_congr_left ?_
      intro e he
      by_cases hid : e.id = e₀.id
      · rw [Lib.AutoTable.eq_of_key he he₀ hid]; simp [hkey, hold]
      · simp [hid, mt (hsame e he).1 hid]
    · have hnone : ∀ e ∈ q.rows, ¬(decide (e.uniqueKey = (jobType, payload)) &&
          e.claimedBefore (now - staleJobAgeSecs)) = true := by
        intro e he h
        rw [Bool.and_eq_true, decide_eq_true_eq] at h
        exact hold (by rw [← Lib.AutoTable.eq_of_key he he₀ ((hsame e he).1 h.1)]; exact h.2)
      refine .inr (.inr ⟨e₀, he₀, hkey, fun c hc => ?_, ?_⟩)
      · by_contra hlt
        exact hold (claimedBefore_iff.2 ⟨c, hc, by simp only [staleJobAgeSecs]; omega⟩)
      · have hzero := List.countP_eq_zero.2 hnone
        simp only [hzero, if_true, true_and]
        refine Lib.AutoTable.ext ?_ rfl
        rw [Lib.AutoTable.rows_update]
        exact (List.map_congr_left fun e he => if_neg (hnone e he)).trans (List.map_id _)

/-- Whatever it answers, an enqueue leaves a row for its job. -/
theorem exists_mem_enqueueJob :
    ∃ e ∈ (enqueueJob q jobType payload now).2.rows, e.uniqueKey = (jobType, payload) := by
  rcases enqueueJob_cases q jobType payload now with
    ⟨-, -, hr, -⟩ | ⟨e₀, he₀, c, hk, -, -, -, hr, -⟩ | ⟨e₀, he₀, hk, -, -, hq⟩
  · exact ⟨⟨q.seq + 1, jobType, payload, none, now⟩, by rw [hr]; simp, rfl⟩
  · exact ⟨{ e₀ with claimedAt := none, createdAt := now },
      by rw [hr]; exact List.mem_map.2 ⟨e₀, he₀, by simp⟩, hk⟩
  · exact ⟨e₀, by rw [hq]; exact he₀, hk⟩

/-- A row after an enqueue was there before, unless the enqueue added or reset it. -/
theorem mem_of_mem_enqueueJob {e : JobQueueEntry}
    (he : e ∈ (enqueueJob q jobType payload now).2.rows) :
    e ∈ q.rows ∨ (enqueueJob q jobType payload now).1 = .ok () ∧
      e.uniqueKey = (jobType, payload) ∧ e.claimedAt = none ∧
      (e.id = q.seq + 1 ∨ ∃ e₀ ∈ q.rows, ∃ c, e₀.id = e.id ∧ e₀.uniqueKey = e.uniqueKey ∧
        e₀.claimedAt = some c ∧ c + 86400 < now) := by
  rcases enqueueJob_cases q jobType payload now with
    ⟨hok, -, hr, -⟩ | ⟨e₀, he₀, c, hk, hc, hlt, hok, hr, -⟩ | ⟨-, -, -, -, -, hq⟩
  · rw [hr] at he
    rcases List.mem_append.1 he with he | he
    · exact .inl he
    · rw [List.mem_singleton.1 he]; exact .inr ⟨hok, rfl, rfl, .inl rfl⟩
  · rw [hr] at he
    obtain ⟨e', he', rfl⟩ := List.mem_map.1 he
    split
    · rename_i hid
      obtain rfl := Lib.AutoTable.eq_of_key he' he₀ hid
      exact .inr ⟨hok, hk, rfl, .inr ⟨e', he₀, c, rfl, rfl, hc, hlt⟩⟩
    · exact .inl he'
  · exact .inl (hq ▸ he)

/-- An enqueue leaves the jobs of other types as they are. -/
theorem mem_of_mem_enqueueJob_of_ne {e : JobQueueEntry} (he : e ∈ (enqueueJob q jobType payload now).2.rows)
    (hty : e.jobType ≠ jobType) : e ∈ q.rows := by
  obtain he | ⟨-, hkey, -⟩ := mem_of_mem_enqueueJob _ _ _ _ he
  · exact he
  · exact absurd (congrArg Prod.fst hkey) hty

/-- An enqueue keeps every row, up to a reset of its claim. -/
theorem exists_mem_enqueueJob_of_mem {e : JobQueueEntry} (he : e ∈ q.rows) :
    ∃ e' ∈ (enqueueJob q jobType payload now).2.rows, e'.id = e.id ∧ e'.uniqueKey = e.uniqueKey := by
  rcases enqueueJob_cases q jobType payload now with
    ⟨-, -, hr, -⟩ | ⟨e₀, he₀, c, hk, -, -, -, hr, -⟩ | ⟨-, -, -, -, -, hq⟩
  · exact ⟨e, by rw [hr]; exact List.mem_append_left _ he, rfl, rfl⟩
  · refine ⟨_, by rw [hr]; exact List.mem_map.2 ⟨e, he, rfl⟩, ?_⟩
    split <;> exact ⟨rfl, rfl⟩
  · exact ⟨e, by rw [hq]; exact he, rfl, rfl⟩

theorem seq_enqueueJob : q.seq ≤ (enqueueJob q jobType payload now).2.seq := by
  rcases enqueueJob_cases q jobType payload now with
    ⟨-, -, -, hs⟩ | ⟨-, -, -, -, -, -, -, -, hs⟩ | ⟨-, -, -, -, -, hq⟩
  · omega
  · exact hs.ge
  · rw [hq]

end

section
variable {q : JobQueue} {now : ℤ}

/-- A claim takes the claimable row of smallest id and stamps it, or finds none. -/
theorem claimJob_cases (q : JobQueue) (now : ℤ) :
    ((claimJob q now).1 = none ∧ (claimJob q now).2 = q ∧
      ∀ e ∈ q.rows, e.claimable now = false) ∨
    (∃ e₀ ∈ q.rows, e₀.claimable now = true ∧
      (∀ e ∈ q.rows, e.claimable now = true → e₀.id ≤ e.id) ∧
      (claimJob q now).1 = some { e₀ with claimedAt := some now } ∧
      (claimJob q now).2.rows = q.rows.map (fun e =>
        if e.id = e₀.id then { e with claimedAt := some now } else e) ∧
      (claimJob q now).2.seq = q.seq) := by
  unfold claimJob
  cases h : q.rows.find? (fun e => e.claimable now) with
  | none =>
    exact .inl ⟨rfl, rfl, fun e he => by simpa using List.find?_eq_none.1 h e he⟩
  | some e₀ =>
    exact .inr ⟨e₀, List.mem_of_find?_eq_some h,
      List.find?_some (p := fun e : JobQueueEntry => e.claimable now) h,
      Lib.AutoTable.find?_least h, rfl, rfl, rfl⟩

/-- A row after a claim was there before, unless it is the claimed one. -/
theorem mem_of_mem_claimJob {e : JobQueueEntry} (he : e ∈ (claimJob q now).2.rows) :
    (e ∈ q.rows ∧ ∀ e', (claimJob q now).1 = some e' → e'.id ≠ e.id) ∨
      (claimJob q now).1 = some e ∧ e.claimedAt = some now ∧
        ∃ e₀ ∈ q.rows, e = { e₀ with claimedAt := some now } ∧ e₀.claimable now = true := by
  rcases claimJob_cases q now with ⟨h1, h2, -⟩ | ⟨e₀, he₀, hcl, -, h1, h2, -⟩
  · rw [h2] at he; exact .inl ⟨he, by simp [h1]⟩
  · rw [h2] at he
    obtain ⟨e', he', rfl⟩ := List.mem_map.1 he
    split
    · rename_i hid
      obtain rfl := Lib.AutoTable.eq_of_key he' he₀ hid
      exact .inr ⟨h1, rfl, e', he₀, rfl, hcl⟩
    · rename_i hid
      refine .inl ⟨he', fun e'' h => ?_⟩
      rw [h1, Option.some.injEq] at h
      subst h; exact fun h => hid h.symm

/-- A row after a claim was there before, up to its timestamp. -/
theorem exists_mem_of_mem_claimJob {e : JobQueueEntry} (he : e ∈ (claimJob q now).2.rows) :
    ∃ e₀ ∈ q.rows, e₀.id = e.id ∧ e₀.uniqueKey = e.uniqueKey := by
  obtain ⟨he, -⟩ | ⟨-, -, e₀, he₀, rfl, -⟩ := mem_of_mem_claimJob he
  · exact ⟨e, he, rfl, rfl⟩
  · exact ⟨e₀, he₀, rfl, rfl⟩

@[simp] theorem seq_claimJob : (claimJob q now).2.seq = q.seq := by
  rcases claimJob_cases q now with ⟨-, h, -⟩ | ⟨-, -, -, -, -, -, h⟩
  · rw [h]
  · exact h

/-- A claim keeps every row, up to its timestamp. -/
theorem exists_mem_claimJob_of_mem {e : JobQueueEntry} (he : e ∈ q.rows) :
    ∃ e' ∈ (claimJob q now).2.rows, e'.id = e.id ∧ e'.uniqueKey = e.uniqueKey := by
  rcases claimJob_cases q now with ⟨-, h, -⟩ | ⟨e₀, -, -, -, -, hr, -⟩
  · exact ⟨e, by rw [h]; exact he, rfl, rfl⟩
  · refine ⟨_, by rw [hr]; exact List.mem_map.2 ⟨e, he, rfl⟩, ?_⟩
    split <;> exact ⟨rfl, rfl⟩

variable {jobId : ℤ} {r : ℕ} {e : JobQueueEntry}

theorem mem_deferJobForRetry : e ∈ (deferJobForRetry q jobId now r).rows ↔
    (e ∈ q.rows ∧ e.id ≠ jobId) ∨ ∃ e₀ ∈ q.rows, e₀.id = jobId ∧
      e = { e₀ with claimedAt := some (deferredClaimedAt now r) } := by
  simp only [deferJobForRetry, Lib.AutoTable.rows_update, List.mem_map]
  constructor
  · rintro ⟨e₀, he₀, rfl⟩
    split
    · rename_i h; exact .inr ⟨e₀, he₀, h, rfl⟩
    · rename_i h; exact .inl ⟨he₀, h⟩
  · rintro (⟨he, h⟩ | ⟨e₀, he₀, h, rfl⟩)
    · exact ⟨e, he, if_neg h⟩
    · exact ⟨e₀, he₀, if_pos h⟩

/-- A row after a deferral was there before, up to its timestamp. -/
theorem exists_mem_of_mem_deferJobForRetry (he : e ∈ (deferJobForRetry q jobId now r).rows) :
    ∃ e₀ ∈ q.rows, e₀.id = e.id ∧ e₀.uniqueKey = e.uniqueKey := by
  obtain ⟨he, -⟩ | ⟨e₀, he₀, -, rfl⟩ := mem_deferJobForRetry.1 he
  · exact ⟨e, he, rfl, rfl⟩
  · exact ⟨e₀, he₀, rfl, rfl⟩

@[simp] theorem mem_completeJob : e ∈ (completeJob q jobId).rows ↔ e ∈ q.rows ∧ e.id ≠ jobId := by
  simp [completeJob]

end

end Ask
