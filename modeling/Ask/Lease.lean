/-
  The lease of a claimed job: how the one nullable `claimed_at` column encodes
  the day a claim lasts, the cooldown of a deferred retry and the reset of an
  expired row.
-/
import Ask.JobQueue
import Ask.Lib.Run

namespace Ask

open Lib

/-- One call on the queue with its answer. -/
inductive QueueEvent where
  | enqueue (jobType : JobType) (payload : String) (now : ℤ) (answer : Except AnyError Unit)
  | claim (now : ℤ) (answer : Option JobQueueEntry)
  | complete (jobId : ℤ)
  | defer (jobId now : ℤ) (retryAfterSecs : ℕ)

/-- The queue and the time of the last call that carried one. -/
structure QueueState where
  queue : JobQueue
  clock : ℤ

/-- Calls by any number of workers, in any order, with non-decreasing times. -/
inductive QueueStep : QueueState → QueueEvent → QueueState → Prop
  | enqueue {s : QueueState} {jobType : JobType} {payload : String} {now : ℤ} :
      s.clock ≤ now →
      QueueStep s (.enqueue jobType payload now (enqueueJob s.queue jobType payload now).1)
        ⟨(enqueueJob s.queue jobType payload now).2, now⟩
  | claim {s : QueueState} {now : ℤ} :
      s.clock ≤ now →
      QueueStep s (.claim now (claimJob s.queue now).1) ⟨(claimJob s.queue now).2, now⟩
  | complete {s : QueueState} {jobId : ℤ} :
      QueueStep s (.complete jobId) ⟨completeJob s.queue jobId, s.clock⟩
  | defer {s : QueueState} {jobId now : ℤ} {r : ℕ} :
      s.clock ≤ now →
      QueueStep s (.defer jobId now r) ⟨deferJobForRetry s.queue jobId now r, now⟩

/-- No call of the trace defers the job. -/
def NoDefer (id : ℤ) (tr : List QueueEvent) : Prop := ∀ n r, .defer id n r ∉ tr

/-- No claim of the trace returns the job. -/
def NoClaim (id : ℤ) (tr : List QueueEvent) : Prop := ∀ t e, .claim t (some e) ∈ tr → e.id ≠ id

/-- The law of leases for a run with trace `tr` that ends in `s`. -/
structure LeaseLaw (tr : List QueueEvent) (s : QueueState) : Prop where
  /-- Two claims of one job without a deferral between them are over a day apart. -/
  reclaimed : ∀ pre mid post e₁ e₂ t₁ t₂,
    tr = pre ++ .claim t₁ (some e₁) :: (mid ++ .claim t₂ (some e₂) :: post) →
    e₁.id = e₂.id → NoDefer e₁.id mid → t₁ + 86400 < t₂
  /-- A claim after the last deferral of a job waits for the delay, a day at most. -/
  retried : ∀ pre mid₁ mid₂ post e₁ e₂ t₁ t₂ n (r : ℕ),
    tr = pre ++ .claim t₁ (some e₁) :: (mid₁ ++ .defer e₁.id n r ::
      (mid₂ ++ .claim t₂ (some e₂) :: post)) →
    e₁.id = e₂.id → NoDefer e₁.id mid₂ → n + min (r : ℤ) 86400 ≤ t₂
  /-- A claim that nobody renewed runs out after a day. -/
  expires : ∀ pre post e₁ t₁, tr = pre ++ .claim t₁ (some e₁) :: post →
    NoDefer e₁.id post → NoClaim e₁.id post →
    ∀ e ∈ s.queue.rows, e.id = e₁.id → ∀ t, t₁ + 86400 < t → e.claimable t = true
  /-- A deferred job is claimable as soon as its delay is over. -/
  cools : ∀ pre post id n (r : ℕ), tr = pre ++ .defer id n r :: post →
    NoDefer id post → NoClaim id post →
    ∀ e ∈ s.queue.rows, e.id = id → ∀ t, n + min (r : ℤ) 86400 ≤ t → e.claimable t = true
  /-- An unclaimed job is claimable at any time. -/
  unclaimed : ∀ e ∈ s.queue.rows, e.claimedAt = none → ∀ t, e.claimable t = true
  /-- The next claim returns the claimable job of smallest id. -/
  least : ∀ t e, (claimJob s.queue t).1 = some e →
    (∃ e₀ ∈ s.queue.rows, e₀.id = e.id ∧ e₀.claimable t = true) ∧
      ∀ e' ∈ s.queue.rows, e'.claimable t = true → e.id ≤ e'.id
  /-- It returns nothing only when no job is claimable. -/
  none_claimable : ∀ t, (claimJob s.queue t).1 = none → ∀ e ∈ s.queue.rows, e.claimable t = false

/-! ## The stamp of a row -/

/-- The row `id`, if there is one, has been stamped with `c` or later, or it was
    reset at a time when the stamp `c` had run out. -/
def StampedFrom (id c : ℤ) (s : QueueState) : Prop :=
  id ≤ s.queue.seq ∧ ∀ e ∈ s.queue.rows, e.id = id →
    (∀ c', e.claimedAt = some c' → c ≤ c') ∧ (e.claimedAt = none → c + 86400 < s.clock)

/-- The row `id`, if there is one, is unclaimed or stamped with `c` or earlier. -/
def StampedUntil (id c : ℤ) (s : QueueState) : Prop :=
  ∀ e ∈ s.queue.rows, e.id = id → ∀ c', e.claimedAt = some c' → c' ≤ c

variable {s s' : QueueState} {ev : QueueEvent} {tr : List QueueEvent} {id c : ℤ}

theorem StampedFrom.step (hs : QueueStep s ev s') (hnd : ∀ n r, ev ≠ .defer id n r)
    (h : StampedFrom id c s) : StampedFrom id c s' := by
  obtain ⟨hid, hrow⟩ := h
  cases hs with
  | enqueue hle =>
    refine ⟨le_trans hid (seq_enqueueJob ..), fun e he heid => ?_⟩
    rcases mem_of_mem_enqueueJob _ _ _ _ he with he | ⟨-, -, hnone, hnew | ⟨e₀, he₀, c₀, h₀, -, hc₀, hlt⟩⟩
    · exact ⟨(hrow e he heid).1, fun hn => lt_of_lt_of_le ((hrow e he heid).2 hn) hle⟩
    · omega
    · have := (hrow e₀ he₀ (h₀.trans heid)).1 c₀ hc₀
      exact ⟨by simp [hnone], fun _ => by dsimp only; omega⟩
  | claim hle =>
    refine ⟨by simpa using hid, fun e he heid => ?_⟩
    rcases mem_of_mem_claimJob he with ⟨he, -⟩ | ⟨-, hst, e₀, he₀, rfl, hcl⟩
    · exact ⟨(hrow e he heid).1, fun hn => lt_of_lt_of_le ((hrow e he heid).2 hn) hle⟩
    · refine ⟨?_, by simp⟩
      rintro _ ⟨⟩
      cases h₀ : e₀.claimedAt with
      | none => have := (hrow e₀ he₀ heid).2 h₀; omega
      | some c₀ =>
        have h1 := (hrow e₀ he₀ heid).1 c₀ h₀
        have h2 := claimable_iff.1 hcl c₀ h₀
        omega
  | complete => exact ⟨hid, fun e he => hrow e (mem_completeJob.1 he).1⟩
  | @defer jobId now r hle =>
    refine ⟨hid, fun e he heid => ?_⟩
    rcases mem_deferJobForRetry.1 he with ⟨he, -⟩ | ⟨e₀, -, h₀, rfl⟩
    · exact ⟨(hrow e he heid).1, fun hn => lt_of_lt_of_le ((hrow e he heid).2 hn) hle⟩
    · have : jobId = id := h₀.symm.trans heid
      exact absurd (by rw [this]) (hnd now r)

theorem StampedUntil.step (hs : QueueStep s ev s') (hnd : ∀ n r, ev ≠ .defer id n r)
    (hnc : ∀ t e, ev = .claim t (some e) → e.id ≠ id) (h : StampedUntil id c s) :
    StampedUntil id c s' := by
  intro e he heid
  cases hs with
  | enqueue hle =>
    rcases mem_of_mem_enqueueJob _ _ _ _ he with he | ⟨-, -, hnone, -⟩
    · exact h e he heid
    · simp [hnone]
  | claim hle =>
    rcases mem_of_mem_claimJob he with ⟨he, -⟩ | ⟨hans, -⟩
    · exact h e he heid
    · exact absurd heid (hnc _ e (by rw [hans]))
  | complete => exact h e (mem_completeJob.1 he).1 heid
  | @defer jobId now r hle =>
    rcases mem_deferJobForRetry.1 he with ⟨he, -⟩ | ⟨e₀, -, h₀, rfl⟩
    · exact h e he heid
    · have : jobId = id := h₀.symm.trans heid
      exact absurd (by rw [this]) (hnd now r)

theorem StampedFrom.run (h : Run QueueStep s tr s') (hnd : NoDefer id tr) :
    StampedFrom id c s → StampedFrom id c s' :=
  h.invariant fun _ _ _ hl hs => StampedFrom.step hs fun n r he => hnd n r (he ▸ hl)

theorem StampedUntil.run (h : Run QueueStep s tr s') (hnd : NoDefer id tr) (hnc : NoClaim id tr) :
    StampedUntil id c s → StampedUntil id c s' :=
  h.invariant fun _ _ _ hl hs => StampedUntil.step hs (fun n r he => hnd n r (he ▸ hl))
    fun t e he => hnc t e (he ▸ hl)

/-- The job of a claim that returned it has been given its key. -/
theorem claim_le_seq {t : ℤ} {e₁ : JobQueueEntry} (hs : QueueStep s (.claim t (some e₁)) s') :
    e₁.id ≤ s'.queue.seq := by
  generalize hev : QueueEvent.claim t (some e₁) = ev at hs
  cases hs with
  | @claim now hle =>
    injection hev with ht hans
    rcases claimJob_cases s.queue now with ⟨h, -⟩ | ⟨e₀, he₀, -, -, h, -⟩
    · rw [h] at hans; cases hans
    · rw [h, Option.some.injEq] at hans
      rw [hans, seq_claimJob]; exact s.queue.le_seq e₀ he₀
  | enqueue | complete | defer => cases hev

/-- A claim leaves its row stamped with its time. -/
theorem stamped_claim {t : ℤ} {e₁ : JobQueueEntry} (hs : QueueStep s (.claim t (some e₁)) s') :
    StampedFrom e₁.id t s' ∧ StampedUntil e₁.id t s' := by
  have hseq := claim_le_seq hs
  generalize hev : QueueEvent.claim t (some e₁) = ev at hs
  cases hs with
  | @claim now hle =>
    injection hev with ht hans
    subst ht
    have hrow : ∀ e ∈ (claimJob s.queue t).2.rows, e.id = e₁.id → e.claimedAt = some t := by
      intro e he heid
      rcases mem_of_mem_claimJob he with ⟨-, hne⟩ | ⟨-, hst, -⟩
      · exact absurd heid.symm (hne e₁ hans.symm)
      · exact hst
    exact ⟨⟨hseq, fun e he hid => by simp [hrow e he hid]⟩,
      fun e he hid => by simp [hrow e he hid]⟩
  | enqueue | complete | defer => cases hev

/-- A deferral leaves its row stamped so that the delay ends a day after the stamp. -/
theorem stamped_defer {n : ℤ} {r : ℕ} (hs : QueueStep s (.defer id n r) s') :
    (id ≤ s.queue.seq → StampedFrom id (deferredClaimedAt n r) s') ∧
      StampedUntil id (deferredClaimedAt n r) s' := by
  cases hs with
  | defer hle =>
    have hrow : ∀ e ∈ (deferJobForRetry s.queue id n r).rows, e.id = id →
        e.claimedAt = some (deferredClaimedAt n r) := by
      intro e he heid
      rcases mem_deferJobForRetry.1 he with ⟨-, hne⟩ | ⟨e₀, -, -, rfl⟩
      · exact absurd heid hne
      · rfl
    exact ⟨fun hid => ⟨hid, fun e he h => by simp [hrow e he h]⟩,
      fun e he h => by simp [hrow e he h]⟩

theorem StampedFrom.lt_claim {t : ℤ} {e : JobQueueEntry} (h : StampedFrom e.id c s)
    (hs : QueueStep s (.claim t (some e)) s') : c + 86400 < t := by
  generalize hev : QueueEvent.claim t (some e) = ev at hs
  cases hs with
  | @claim now hle =>
    injection hev with ht hans
    subst ht
    rcases claimJob_cases s.queue t with ⟨h0, -⟩ | ⟨e₀, he₀, hcl, -, h0, -⟩
    · rw [h0] at hans; cases hans
    · rw [h0, Option.some.injEq] at hans
      have hid : e₀.id = e.id := by rw [hans]
      cases hc : e₀.claimedAt with
      | none => have := (h.2 e₀ he₀ hid).2 hc; omega
      | some c₀ =>
        have h1 := (h.2 e₀ he₀ hid).1 c₀ hc
        have h2 := claimable_iff.1 hcl c₀ hc
        omega
  | enqueue | complete | defer => cases hev

theorem StampedUntil.claimable (h : StampedUntil id c s) {e : JobQueueEntry}
    (he : e ∈ s.queue.rows) (hid : e.id = id) {t : ℤ} (ht : c + 86400 < t) :
    e.claimable t = true :=
  claimable_iff.2 fun c' hc' => by have := h e he hid c' hc'; omega

theorem seq_le_of_run (h : Run QueueStep s tr s') : id ≤ s.queue.seq → id ≤ s'.queue.seq :=
  h.invariant (I := fun s => id ≤ s.queue.seq) fun _ _ _ _ hs hid => by
    cases hs with
    | enqueue => exact le_trans hid (seq_enqueueJob ..)
    | claim => simpa using hid
    | complete | defer => exact hid

theorem deferredClaimedAt_lt_iff {n t : ℤ} {r : ℕ} :
    deferredClaimedAt n r + 86400 < t ↔ n + min (r : ℤ) 86400 ≤ t := by
  simp only [deferredClaimedAt, staleJobAgeSecs]; omega

/-! ## The law -/

/-- **Job lease law.**  Every run of queue calls with non-decreasing times, from
    any queue, obeys the law of leases. -/
theorem job_lease_law (h : Run QueueStep s tr s') : LeaseLaw tr s' where
  reclaimed pre mid post e₁ e₂ t₁ t₂ htr hid hnd := by
    subst htr
    obtain ⟨s₁, s₂, -, hc₁, hrest⟩ := h.split_cons
    obtain ⟨s₃, s₄, hmid, hc₂, -⟩ := hrest.split_cons
    have hfrom := (stamped_claim hc₁).1.run hmid hnd
    rw [hid] at hfrom
    exact hfrom.lt_claim hc₂
  retried pre mid₁ mid₂ post e₁ e₂ t₁ t₂ n r htr hid hnd := by
    subst htr
    obtain ⟨s₁, s₂, -, hc₁, hrest⟩ := h.split_cons
    obtain ⟨s₃, s₄, hmid₁, hd, hrest⟩ := hrest.split_cons
    obtain ⟨s₅, s₆, hmid₂, hc₂, -⟩ := hrest.split_cons
    have hfrom := ((stamped_defer hd).1 (seq_le_of_run hmid₁ (claim_le_seq hc₁))).run hmid₂ hnd
    rw [hid] at hfrom
    exact deferredClaimedAt_lt_iff.1 (hfrom.lt_claim hc₂)
  expires pre post e₁ t₁ htr hnd hnc e he hid t ht := by
    subst htr
    obtain ⟨s₁, s₂, -, hc, hpost⟩ := h.split_cons
    exact ((stamped_claim hc).2.run hpost hnd hnc).claimable he hid ht
  cools pre post id n r htr hnd hnc e he hid t ht := by
    subst htr
    obtain ⟨s₁, s₂, -, hd, hpost⟩ := h.split_cons
    exact ((stamped_defer hd).2.run hpost hnd hnc).claimable he hid
      (deferredClaimedAt_lt_iff.2 ht)
  unclaimed e he hnone t := claimable_iff.2 fun c hc => by rw [hnone] at hc; cases hc
  least t e hans := by
    rcases claimJob_cases s'.queue t with ⟨h0, -⟩ | ⟨e₀, he₀, hcl, hmin, h0, -⟩
    · rw [h0] at hans; cases hans
    · rw [h0, Option.some.injEq] at hans
      subst hans
      exact ⟨⟨e₀, he₀, rfl, hcl⟩, hmin⟩
  none_claimable t hans := by
    rcases claimJob_cases s'.queue t with ⟨-, -, h0⟩ | ⟨e₀, -, -, -, h0, -⟩
    · exact h0
    · rw [h0] at hans; cases hans

/-- The law at work on one job: claimed, deferred for five seconds, claimed again. -/
theorem job_lease_law_retry :
    ∃ s, s.queue.rows = [⟨1, .embedDocument, "p", some 7, 0⟩] ∧ LeaseLaw
      [.enqueue .embedDocument "p" 0 (.ok ()),
        .claim 1 (some ⟨1, .embedDocument, "p", some 1, 0⟩), .defer 1 2 5, .claim 6 none,
        .claim 7 (some ⟨1, .embedDocument, "p", some 7, 0⟩)] s :=
  ⟨_, by rfl, @job_lease_law ⟨.empty, 0⟩ _ _
    (.cons (.enqueue (by decide)) <| .cons (.claim (by decide)) <| .cons (.defer (by decide)) <|
      .cons (.claim (by decide)) <| .cons (.claim (by decide)) <| .nil _)⟩

end Ask
