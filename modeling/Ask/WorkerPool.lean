/-
  Workers that claim jobs and come back later.

  A worker keeps the id of the job it claimed and, after any delay, completes or
  defers that id.  Neither call checks who holds the claim by then.
-/
import Ask.JobQueue
import Ask.Lib.Run

namespace Ask

open Lib

/-- One call of a worker or a producer.  A completion also records the row it
    removed. -/
inductive PoolEvent where
  | enqueue (jobType : JobType) (payload : String) (now : ℤ) (answer : Except AnyError Unit)
  | claim (now : ℤ) (answer : Option JobQueueEntry)
  | complete (jobId : ℤ) (removed : Option JobQueueEntry)
  | defer (jobId now : ℤ) (retryAfterSecs : ℕ)

/-- The queue, the ids of the claims not yet finished, and the time. -/
structure WorkerPool where
  queue : JobQueue
  held : List ℤ
  clock : ℤ

/-- Before the first enqueue. -/
def WorkerPool.empty : WorkerPool := ⟨.empty, [], 0⟩

/-- Enqueues at any time; claims; and every claim finished once, or never. -/
inductive PoolStep : WorkerPool → PoolEvent → WorkerPool → Prop
  | enqueue {p : WorkerPool} {jobType : JobType} {payload : String} {now : ℤ} :
      p.clock ≤ now →
      PoolStep p (.enqueue jobType payload now (enqueueJob p.queue jobType payload now).1)
        ⟨(enqueueJob p.queue jobType payload now).2, p.held, now⟩
  | claim {p : WorkerPool} {now : ℤ} :
      p.clock ≤ now →
      PoolStep p (.claim now (claimJob p.queue now).1)
        ⟨(claimJob p.queue now).2, ((claimJob p.queue now).1.map (·.id)).toList ++ p.held, now⟩
  | complete {p : WorkerPool} {jobId : ℤ} :
      jobId ∈ p.held →
      PoolStep p (.complete jobId (p.queue.get? jobId))
        ⟨completeJob p.queue jobId, p.held.erase jobId, p.clock⟩
  | defer {p : WorkerPool} {jobId now : ℤ} {r : ℕ} :
      jobId ∈ p.held → p.clock ≤ now →
      PoolStep p (.defer jobId now r)
        ⟨deferJobForRetry p.queue jobId now r, p.held.erase jobId, now⟩

/-- Every job whose enqueue was accepted is returned by a claim before a completion
    removes its row. -/
def AcceptedKept (tr : List PoolEvent) : Prop :=
  ∀ pre mid post jobType payload now jobId e,
    tr = pre ++ .enqueue jobType payload now (.ok ()) :: (mid ++ .complete jobId (some e) :: post) →
    e.uniqueKey = (jobType, payload) → ∃ t e', .claim t (some e') ∈ mid ∧ e'.id = e.id

/-- No row of the queue has the id and waits for a claim. -/
def NotWaiting (q : JobQueue) (jobId : ℤ) : Prop :=
  ∀ e ∈ q.rows, e.id = jobId → e.claimedAt ≠ none

/-- The holder of a job finds its row gone or still stamped when it comes back: no
    enqueue has reset the row, or another worker has claimed it since. -/
def HolderInTime (p : WorkerPool) : PoolEvent → Prop
  | .complete jobId _ => NotWaiting p.queue jobId
  | .defer jobId _ _ => NotWaiting p.queue jobId
  | _ => True

instance (q : JobQueue) (jobId : ℤ) : Decidable (NotWaiting q jobId) :=
  inferInstanceAs (Decidable (∀ e ∈ q.rows, e.id = jobId → e.claimedAt ≠ none))

variable {p p' : WorkerPool} {ev : PoolEvent} {tr : List PoolEvent} {jobType : JobType}
  {payload : String}

/-- The row of the job, if there is one, waits for a claim or is among the claimed `ids`. -/
def Waiting (jobType : JobType) (payload : String) (claimed : List PoolEvent) (p : WorkerPool) :
    Prop :=
  ∀ e ∈ p.queue.rows, e.uniqueKey = (jobType, payload) →
    e.claimedAt = none ∨ ∃ t e', .claim t (some e') ∈ claimed ∧ e'.id = e.id

/-- An accepted enqueue leaves the row of its job waiting. -/
theorem waiting_of_enqueue {now : ℤ}
    (hs : PoolStep p (.enqueue jobType payload now (.ok ())) p') :
    Waiting jobType payload [] p' := by
  generalize hev : PoolEvent.enqueue jobType payload now (.ok ()) = ev at hs
  cases hs with
  | @enqueue _ _ now' hle =>
    injection hev with h1 h2 h3 hans
    subst h1 h2 h3
    intro e he hkey
    rcases enqueueJob_cases p.queue jobType payload now with
      ⟨-, hfree, hr, -⟩ | ⟨e₀, he₀, c, hk, -, -, -, hr, -⟩ | ⟨-, -, -, -, herr, -⟩
    · rw [hr] at he
      rcases List.mem_append.1 he with he | he
      · exact absurd hkey (hfree e he)
      · rw [List.mem_singleton.1 he]; exact .inl rfl
    · rw [hr] at he
      obtain ⟨e', he', rfl⟩ := List.mem_map.1 he
      split
      · exact .inl rfl
      · rename_i hne
        rw [if_neg hne] at hkey
        exact absurd (by rw [AutoTable.eq_of_index he' he₀ (hkey.trans hk.symm)]) hne
    · rw [herr] at hans; cases hans
  | claim | complete | defer => cases hev

/-- A step whose holder is in time keeps the row waiting until a claim returns it. -/
theorem Waiting.step {claimed : List PoolEvent} (hs : When HolderInTime PoolStep p ev p')
    (h : Waiting jobType payload claimed p) : Waiting jobType payload (claimed ++ [ev]) p' := by
  have hmono : ∀ {e : JobQueueEntry}, e.claimedAt = none ∨
      (∃ t e', .claim t (some e') ∈ claimed ∧ e'.id = e.id) → e.claimedAt = none ∨
        ∃ t e', .claim t (some e') ∈ claimed ++ [ev] ∧ e'.id = e.id :=
    Or.imp_right fun ⟨t, e', hm, hid⟩ => ⟨t, e', List.mem_append_left _ hm, hid⟩
  obtain ⟨hs, hc⟩ := hs
  intro e he hkey
  cases hs with
  | enqueue hle =>
    rcases mem_of_mem_enqueueJob _ _ _ _ he with he | ⟨-, -, hnone, -⟩
    · exact hmono (h e he hkey)
    · exact .inl hnone
  | @claim now hle =>
    rcases mem_of_mem_claimJob he with ⟨he, -⟩ | ⟨hans, -⟩
    · exact hmono (h e he hkey)
    · exact .inr ⟨now, e, by rw [hans]; simp, rfl⟩
  | complete => exact hmono (h e (mem_completeJob.1 he).1 hkey)
  | defer =>
    rcases mem_deferJobForRetry.1 he with ⟨he, -⟩ | ⟨e₀, he₀, hid, rfl⟩
    · exact hmono (h e he hkey)
    · rcases hmono (h e₀ he₀ hkey) with hnone | hcl
      · exact absurd hnone (hc e₀ he₀ hid)
      · exact .inr hcl

theorem Waiting.run {claimed : List PoolEvent} (h : Run (When HolderInTime PoolStep) p tr p')
    (hw : Waiting jobType payload claimed p) : Waiting jobType payload (claimed ++ tr) p' := by
  induction h generalizing claimed with
  | nil => simpa using hw
  | cons hs _ ih => simpa using ih (hw.step hs)

/-- **An accepted enqueue is kept** in every run whose holders come back in time. -/
theorem accepted_enqueue_kept (h : Run (When HolderInTime PoolStep) p tr p') :
    AcceptedKept tr := by
  rintro pre mid post jobType payload now jobId e rfl hkey
  obtain ⟨p₁, p₂, -, ⟨henq, -⟩, hrest⟩ := h.split_cons
  obtain ⟨p₃, p₄, hmid, ⟨hcomp, hin⟩, -⟩ := hrest.split_cons
  have hw : Waiting jobType payload mid p₃ := (waiting_of_enqueue henq).run hmid
  have hrow : e ∈ p₃.queue.rows ∧ e.id = jobId := by
    generalize hev : PoolEvent.complete jobId (some e) = ev at hcomp
    cases hcomp with
    | complete =>
      injection hev with h1 h2
      subst h1; exact AutoTable.get?_eq_some.1 h2.symm
    | enqueue | claim | defer => cases hev
  rcases hw e hrow.1 hkey with hnone | hcl
  · exact absurd hnone (hin e hrow.1 hrow.2)
  · exact hcl

/-- A worker claims the job, a later enqueue is accepted, the worker completes in time. -/
theorem accepted_enqueue_kept_reclaimed :
    AcceptedKept
      [.enqueue .embedDocument "p" 0 (.ok ()),
        .claim 1 (some ⟨1, .embedDocument, "p", some 1, 0⟩),
        .enqueue .embedDocument "p" 86402 (.ok ()),
        .claim 86403 (some ⟨1, .embedDocument, "p", some 86403, 86402⟩),
        .complete 1 (some ⟨1, .embedDocument, "p", some 86403, 86402⟩)] :=
  @accepted_enqueue_kept .empty _ _
    (.cons ⟨.enqueue (by decide), trivial⟩ <| .cons ⟨.claim (by decide), trivial⟩ <|
      .cons ⟨.enqueue (by decide), trivial⟩ <| .cons ⟨.claim (by decide), trivial⟩ <|
      .cons ⟨.complete (by decide), show NotWaiting _ _ by decide⟩ <| .nil _)

/-- **A late holder loses a job**: the claim runs out after a day, a fresh enqueue
    resets the row, and the old holder removes it although no claim returned it. -/
theorem late_holder_loses_enqueue :
    ∃ tr p', Run PoolStep .empty tr p' ∧ ¬ AcceptedKept tr := by
  refine ⟨[.enqueue .embedDocument "p" 0 (.ok ()),
    .claim 1 (some ⟨1, .embedDocument, "p", some 1, 0⟩),
    .enqueue .embedDocument "p" 86402 (.ok ()),
    .complete 1 (some ⟨1, .embedDocument, "p", none, 86402⟩)], _,
    .cons (.enqueue (by decide)) <| .cons (.claim (by decide)) <|
      .cons (.enqueue (by decide)) <| .cons (.complete (by decide)) <| .nil _, fun h => ?_⟩
  obtain ⟨t, e', hm, -⟩ := h [_, _] [] [] .embedDocument "p" 86402 1
    ⟨1, .embedDocument, "p", none, 86402⟩ rfl rfl
  exact absurd hm (by simp)

end Ask
