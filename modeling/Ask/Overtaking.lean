/-
  The order of the queue: jobs are claimed in the order of their ids, and while
  a job waits, none of the others is claimed before it twice.
-/
import Ask.Lease

namespace Ask

open Lib

variable {s s' : QueueState} {ev : QueueEvent} {tr : List QueueEvent} {q : JobQueue} {id i horizon : ℤ}

/-- The ids of the jobs that the claims of a trace return, in order. -/
def claimedIds : List QueueEvent → List ℤ
  | [] => []
  | .claim _ (some e) :: tr => e.id :: claimedIds tr
  | _ :: tr => claimedIds tr

/-- A call up to the horizon that leaves the job `id` alone and puts others off beyond the horizon. -/
def QueueEvent.Within (id horizon : ℤ) : QueueEvent → Prop
  | .enqueue _ _ now _ | .claim now _ => now ≤ horizon
  | .complete jobId => jobId ≠ id
  | .defer jobId now r => jobId ≠ id ∧ horizon < now + min (r : ℤ) 86400

/-- The job `i` comes before `id`, and is free at the horizon unless it is claimed. -/
def Ahead (id horizon : ℤ) (q : JobQueue) (i : ℤ) : Prop :=
  ∃ e ∈ q.rows, e.id = i ∧ i < id ∧ e.claimable horizon = true

/-- The job `id` is there and free. -/
def Free (id : ℤ) (s : QueueState) : Prop := ∃ e ∈ s.queue.rows, e.id = id ∧ e.claimable s.clock = true

theorem claimable_mono {e : JobQueueEntry} {t t' : ℤ} (h : e.claimable t = true) (hle : t ≤ t') :
    e.claimable t' = true :=
  claimable_iff.2 fun c hc => (claimable_iff.1 h c hc).trans_le hle

theorem Free.step (hs : QueueStep s ev s') (hin : ev.Within id horizon) (hnc : ∀ t e, ev = .claim t (some e) →
    e.id ≠ id) (h : Free id s) : Free id s' := by
  obtain ⟨e, he, rfl, hfree⟩ := h
  cases hs with
  | @enqueue jobType payload now hle =>
    obtain ⟨e', he', hid, -⟩ := exists_mem_enqueueJob_of_mem s.queue jobType payload now he
    refine ⟨e', he', hid, ?_⟩
    obtain hold | ⟨-, -, hnone, -⟩ := mem_of_mem_enqueueJob _ _ _ _ he'
    · rw [AutoTable.eq_of_key hold he hid]
      exact claimable_mono hfree hle
    · exact claimable_iff.2 fun c hc => by simp [hnone] at hc
  | @claim now hle =>
    obtain ⟨e', he', hid, -⟩ := @exists_mem_claimJob_of_mem _ now e he
    refine ⟨e', he', hid, ?_⟩
    obtain ⟨hold, -⟩ | ⟨hclaimed, -⟩ := mem_of_mem_claimJob he'
    · rw [AutoTable.eq_of_key hold he hid]
      exact claimable_mono hfree hle
    · exact absurd hid (hnc now e' (congrArg _ hclaimed))
  | complete => exact ⟨e, mem_completeJob.2 ⟨he, hin.symm⟩, rfl, hfree⟩
  | defer hle => exact ⟨e, mem_deferJobForRetry.2 (.inl ⟨he, hin.1.symm⟩), rfl, claimable_mono hfree hle⟩

/-- Nothing gets ahead of a job that is in the queue. -/
theorem Ahead.of_step (hs : QueueStep s ev s') (hin : ev.Within id horizon) (hid : id ≤ s.queue.seq)
    (h : Ahead id horizon s'.queue i) : Ahead id horizon s.queue i := by
  obtain ⟨e, he, rfl, hlt, hfree⟩ := h
  cases hs with
  | enqueue hle =>
    obtain hold | ⟨-, -, -, hnew | ⟨e₀, he₀, c, hsame, -, hc, hout⟩⟩ := mem_of_mem_enqueueJob _ _ _ _ he
    · exact ⟨e, hold, rfl, hlt, hfree⟩
    · omega
    · -- the claim of a row that is reset has run out
      refine ⟨e₀, he₀, hsame, hlt, claimable_iff.2 fun c' hc' => ?_⟩
      obtain rfl := Option.some.inj (hc.symm.trans hc')
      exact hout.trans_le hin
  | claim hle =>
    obtain ⟨hold, -⟩ | ⟨-, -, e₀, he₀, rfl, hclaimable⟩ := mem_of_mem_claimJob he
    · exact ⟨e, hold, rfl, hlt, hfree⟩
    · exact ⟨e₀, he₀, rfl, hlt, claimable_mono hclaimable hin⟩
  | complete => exact ⟨e, (mem_completeJob.1 he).1, rfl, hlt, hfree⟩
  | defer hle =>
    obtain ⟨hold, -⟩ | ⟨e₀, -, -, rfl⟩ := mem_deferJobForRetry.1 he
    · exact ⟨e, hold, rfl, hlt, hfree⟩
    · have hput := claimable_iff.1 hfree _ rfl
      have := hin.2
      simp only [deferredClaimedAt, staleJobAgeSecs] at hput
      omega

/-- A claim takes a job from ahead of a free one, and it does not come back before the horizon. -/
theorem ahead_claim {t : ℤ} {e : JobQueueEntry} (hs : QueueStep s (.claim t (some e)) s') (hfree : Free id s)
    (hin : t ≤ horizon) (hne : e.id ≠ id) (hday : horizon ≤ s.clock + 86400) :
    Ahead id horizon s.queue e.id ∧ ¬Ahead id horizon s'.queue e.id := by
  obtain ⟨e₁, he₁, rfl, hclaimable⟩ := hfree
  generalize hev : QueueEvent.claim t (some e) = ev at hs
  cases hs with
  | @claim now hle =>
    injection hev with ht hans
    subst ht
    obtain ⟨hnone, -⟩ | ⟨e₀, he₀, hcl, hleast, hsome, -⟩ := claimJob_cases s.queue t
    · rw [hnone] at hans
      cases hans
    · obtain rfl := Option.some.inj (hans.trans hsome)
      refine ⟨⟨e₀, he₀, rfl, ?_, claimable_mono hcl hin⟩, ?_⟩
      · exact lt_of_le_of_ne (hleast e₁ he₁ (claimable_mono hclaimable hle)) hne
      · -- its row is stamped with `t` now
        rintro ⟨e', he', hid, -, hcl'⟩
        obtain ⟨-, hother⟩ | ⟨-, hstamp, -⟩ := mem_of_mem_claimJob he'
        · exact hother _ hsome hid.symm
        · have := claimable_iff.1 hcl' t hstamp
          omega
  | enqueue | complete | defer => cases hev

theorem clock_le (hs : QueueStep s ev s') : s.clock ≤ s'.clock := by
  cases hs with
  | enqueue h | claim h | defer h => exact h
  | complete => exact le_rfl

theorem Free.run (h : Run QueueStep s tr s') (hin : ∀ ev ∈ tr, ev.Within id horizon) (hnc : NoClaim id tr)
    (hfree : Free id s) : Free id s' := by
  refine h.invariant (fun s ev s' hev hs hfree => hfree.step hs (hin ev hev) ?_) hfree
  rintro t e rfl
  exact hnc t e hev

theorem claimed_ahead (h : Run QueueStep s tr s') (hfree : Free id s)
    (hin : ∀ ev ∈ tr, ev.Within id horizon) (hnc : NoClaim id tr) (hday : horizon ≤ s.clock + 86400) :
    (claimedIds tr).Nodup ∧ ∀ i ∈ claimedIds tr, Ahead id horizon s.queue i := by
  induction h with
  | nil => exact ⟨List.nodup_nil, fun i hi => absurd hi List.not_mem_nil⟩
  | @cons s s₁ s' ev tr hs _ ih =>
    obtain ⟨hin₀, hin⟩ := List.forall_mem_cons.1 hin
    have hnc₀ : ∀ t e, ev = .claim t (some e) → e.id ≠ id := by
      rintro t e rfl
      exact hnc t e List.mem_cons_self
    obtain ⟨hnodup, hahead⟩ := ih (hfree.step hs hin₀ hnc₀) hin
      (fun t e he => hnc t e (List.mem_cons_of_mem ev he)) (hday.trans (by have := clock_le hs; omega))
    have hseq : id ≤ s.queue.seq := by
      obtain ⟨e, he, rfl, -⟩ := hfree
      exact s.queue.le_seq e he
    have hback : ∀ i ∈ claimedIds tr, Ahead id horizon s.queue i := fun i hi =>
      (hahead i hi).of_step hs hin₀ hseq
    match ev with
    | .claim t (some e) =>
      obtain ⟨hnow, hgone⟩ := ahead_claim hs hfree hin₀ (hnc₀ t e rfl) hday
      exact ⟨List.nodup_cons.2 ⟨fun hmem => hgone (hahead _ hmem), hnodup⟩,
        List.forall_mem_cons.2 ⟨hnow, hback⟩⟩
    | .claim t none | .enqueue .. | .complete _ | .defer .. => exact ⟨hnodup, hback⟩

/-- **No job is overtaken twice by the same one**: from when a job is free, up to a day later and as long
    as it is not claimed, the claims return only jobs that were enqueued before it, each at most once, and
    at least one of those or the job itself is returned by the next claim. -/
theorem bounded_overtaking {e : JobQueueEntry} (h : Run QueueStep s tr s') (he : e ∈ s.queue.rows)
    (hfree : e.claimable s.clock = true) (hday : horizon ≤ s.clock + 86400)
    (hin : ∀ ev ∈ tr, ev.Within e.id horizon) (hnc : NoClaim e.id tr) :
    (claimedIds tr).Nodup ∧ (∀ i ∈ claimedIds tr, i < e.id) ∧
      (claimedIds tr).length ≤
        s.queue.rows.countP (fun e' => decide (e'.id < e.id) && e'.claimable horizon) ∧
      ∀ now, s'.clock ≤ now → ∃ e', (claimJob s'.queue now).1 = some e' ∧ e'.id ≤ e.id := by
  have hstart : Free e.id s := ⟨e, he, rfl, hfree⟩
  obtain ⟨hnodup, hahead⟩ := claimed_ahead h hstart hin hnc hday
  refine ⟨hnodup, fun i hi => ?_, ?_, fun now hnow => ?_⟩
  · obtain ⟨-, -, -, hlt, -⟩ := hahead i hi
    exact hlt
  · rw [List.countP_eq_length_filter, ← List.length_map JobQueueEntry.id]
    refine (List.subperm_of_subset hnodup fun i hi => ?_).length_le
    obtain ⟨e', he', rfl, hlt, hcl⟩ := hahead i hi
    exact List.mem_map.2 ⟨e', List.mem_filter.2 ⟨he', by simp [hlt, hcl]⟩, rfl⟩
  · obtain ⟨e₁, he₁, hid, hcl⟩ := hstart.run h hin hnc
    obtain ⟨-, -, hall⟩ | ⟨e₀, -, -, hleast, hsome, -⟩ := claimJob_cases s'.queue now
    · have hfree' := claimable_mono hcl hnow
      rw [hall e₁ he₁] at hfree'
      cases hfree'
    · exact ⟨_, hsome, hid ▸ hleast e₁ he₁ (claimable_mono hcl hnow)⟩

/-- The queue after three jobs were enqueued. -/
def threeJobs : QueueState :=
  ⟨(enqueueJob (enqueueJob (enqueueJob .empty .embedDocument "a" 0).2 .embedDocument "b" 0).2 .embedDocument
    "c" 0).2, 0⟩

/-- The last one waits while the first is claimed and put off for five minutes, a fourth is enqueued and
    the second is claimed. -/
theorem bounded_overtaking_third : ∃ s',
    Run QueueStep threeJobs [.claim 1 (some ⟨1, .embedDocument, "a", some 1, 0⟩), .defer 1 2 300,
      .enqueue .embedDocument "d" 3 (.ok ()), .claim 4 (some ⟨2, .embedDocument, "b", some 4, 0⟩)] s' ∧
    ∃ e', (claimJob s'.queue 5).1 = some e' ∧ e'.id ≤ 3 := by
  have hrun : Run QueueStep threeJobs [.claim 1 (some ⟨1, .embedDocument, "a", some 1, 0⟩), .defer 1 2 300,
      .enqueue .embedDocument "d" 3 (.ok ()), .claim 4 (some ⟨2, .embedDocument, "b", some 4, 0⟩)] _ :=
    .cons (.claim (by decide)) <| .cons (.defer (by decide)) <| .cons (.enqueue (by decide)) <|
      .cons (.claim (by decide)) <| .nil _
  refine ⟨_, hrun, ?_⟩
  have hwithin : ∀ ev ∈ [QueueEvent.claim 1 (some ⟨1, .embedDocument, "a", some 1, 0⟩), .defer 1 2 300,
      .enqueue .embedDocument "d" 3 (.ok ()), .claim 4 (some ⟨2, .embedDocument, "b", some 4, 0⟩)],
      ev.Within 3 299 := by simp [QueueEvent.Within]
  have hwaits : NoClaim 3 [.claim 1 (some ⟨1, .embedDocument, "a", some 1, 0⟩), .defer 1 2 300,
      .enqueue .embedDocument "d" 3 (.ok ()), .claim 4 (some ⟨2, .embedDocument, "b", some 4, 0⟩)] := by
    rintro t e he
    simp only [List.mem_cons, QueueEvent.claim.injEq, Option.some.injEq] at he
    aesop
  have hlast : (⟨3, .embedDocument, "c", none, 0⟩ : JobQueueEntry) ∈ threeJobs.queue.rows := by decide
  obtain ⟨-, -, -, hnext⟩ := bounded_overtaking hrun hlast (by decide) (by decide) hwithin hwaits
  exact hnext 5 (by decide)

end Ask
