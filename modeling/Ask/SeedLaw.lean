/-
  A seeding pass, row by row: which rows it adds, which claims it takes back,
  what it counts, and that a second pass finds nothing to do.
-/
import Ask.Oracle
import Ask.Seeding

namespace Ask

open Lib

variable {s s' : Store} {now : ℤ} {pairs : List Pair} {p : Pair} {n : ℕ} {e : JobQueueEntry}

/-! ## What a pass counts -/

/-- What is renewed for one pair no longer counts for another. -/
theorem renewable_renewed (hp : p ∉ pairs) :
    renewable pairs now (e.renewed [p] now) = (renewable pairs now e) := by
  by_cases h : renewable [p] now e = true
  · have hkey : e.uniqueKey ∉ pairs.map embedJobKey := by
      rw [(renewable_singleton.1 h).1, List.mem_map_of_injective embedJobKey_injective]
      exact hp
    have hkey' : (e.renewed [p] now).uniqueKey ∉ pairs.map embedJobKey := by
      rwa [JobQueueEntry.renewed_uniqueKey]
    simp only [renewable, hkey, hkey', decide_false, Bool.false_and]
  · have hsame : e.renewed [p] now = e := if_neg (by rwa [renewable_iff] at h)
    rw [hsame]

/-- A pair's rows and those of the others are counted apart. -/
theorem countP_renewable_cons (hp : p ∉ pairs) (l : List JobQueueEntry) :
    l.countP (renewable (p :: pairs) now) =
      l.countP (renewable [p] now) + l.countP (renewable pairs now) := by
  induction l with
  | nil => rfl
  | cons e l ih =>
    have hone : renewable (p :: pairs) now e = (renewable [p] now e || renewable pairs now e) := by
      simp only [renewable, List.map_cons, List.map_nil, List.mem_cons, List.not_mem_nil, or_false,
        Bool.decide_or, Bool.and_or_distrib_right]
    have hboth : ¬(renewable [p] now e = true ∧ renewable pairs now e = true) := by
      rintro ⟨h, h'⟩
      have hmem := (renewable_iff.1 h').1
      rw [(renewable_singleton.1 h).1, List.mem_map_of_injective embedJobKey_injective] at hmem
      exact hp hmem
    rw [List.countP_cons, List.countP_cons, List.countP_cons, ih, hone]
    cases h : renewable [p] now e with
    | false => simp only [Bool.false_or, Bool.false_eq_true, if_false]; omega
    | true =>
      have h' : renewable pairs now e = false := Bool.eq_false_iff.2 fun h' => hboth ⟨h, h'⟩
      simp only [h', Bool.true_or, Bool.false_eq_true, if_true, if_false]
      omega

/-- The rows `added` stand behind the renewed ones, and the pass counted `n` of both kinds. -/
structure Counted (pairs : List Pair) (now : ℤ) (q q' : JobQueue) (n : ℕ) (added : List JobQueueEntry) :
    Prop where
  rows : q'.rows = q.rows.map (·.renewed pairs now) ++ added
  seq_le : q.seq ≤ q'.seq
  new : ∀ e ∈ added, q.seq < e.id ∧ ∃ p ∈ pairs, e = newEmbedJob p now e.id
  count : n = added.length + q.rows.countP (renewable pairs now)

/-- One enqueue adds the pair's row, renews it, or counts nothing. -/
theorem counted_seedEmbedJob (h : (seedEmbedJob p now).Ok s n s') :
    ∃ added, Counted [p] now s.jobs s'.jobs n added := by
  have hs' := ok_seedEmbedJob h
  obtain ⟨added, hr, hadded, hcount⟩ := rows_enqueueJob_embed s.jobs p now
  refine ⟨added, by rw [hs', hr], by rw [hs']; exact seq_enqueueJob .., ?_, ?_⟩
  · rintro e he
    rcases hadded with rfl | ⟨rfl, -⟩
    · exact absurd he List.not_mem_nil
    · rw [List.mem_singleton.1 he]
      refine ⟨?_, p, List.mem_singleton.2 rfl, rfl⟩
      show s.jobs.seq < s.jobs.seq + 1
      omega
  · unfold seedEmbedJob at h
    rw [Tx.ok_exec] at h
    split at h
    · rename_i q hq
      cases h
      rw [hq] at hcount
      obtain ⟨-, hone⟩ | ⟨⟨err, herr⟩, -⟩ := hcount
      · exact hone.symm
      · cases herr
    · rename_i err q hq
      split_ifs at h
      cases h
      rw [hq] at hcount
      obtain ⟨hok, -⟩ | ⟨-, hzero⟩ := hcount
      · cases hok
      · exact hzero.symm

theorem Counted.cons {q q₁ q' : JobQueue} {k m : ℕ} {added added' : List JobQueueEntry} (hp : p ∉ pairs)
    (h : Counted [p] now q q₁ k added) (h' : Counted pairs now q₁ q' m added') :
    Counted (p :: pairs) now q q' (k + m) (added ++ added') := by
  have hfree : ∀ e ∈ added, e.claimedBefore (now - staleJobAgeSecs) = false := by
    intro e he
    obtain ⟨-, p', -, hnew⟩ := h.new e he
    rw [hnew]
    rfl
  refine ⟨?_, h.seq_le.trans h'.seq_le, ?_, ?_⟩
  · have hkept : added.map (·.renewed pairs now) = added := by
      refine (List.map_congr_left ?_).trans (List.map_id added)
      exact fun e he => JobQueueEntry.renewed_of_claimedAt (hfree e he)
    have hboth : ∀ e : JobQueueEntry, (e.renewed [p] now).renewed pairs now = e.renewed (p :: pairs) now :=
      fun e => JobQueueEntry.renewed_append.symm
    rw [h'.rows, h.rows, List.map_append, hkept, List.map_map, List.append_assoc]
    simp only [Function.comp_def, hboth]
  · intro e he
    rcases List.mem_append.1 he with he | he
    · obtain ⟨hlt, p', hp', hnew⟩ := h.new e he
      rw [List.mem_singleton.1 hp'] at hnew
      exact ⟨hlt, p, List.mem_cons_self, hnew⟩
    · obtain ⟨hlt, p', hp', hnew⟩ := h'.new e he
      exact ⟨lt_of_le_of_lt h.seq_le hlt, p', List.mem_cons_of_mem p hp', hnew⟩
  · have hzero : added.countP (renewable pairs now) = 0 := by
      rw [List.countP_eq_zero]
      intro e he
      rw [renewable_false (hfree e he)]
      exact Bool.false_ne_true
    have hrest : q₁.rows.countP (renewable pairs now) = q.rows.countP (renewable pairs now) := by
      rw [h.rows, List.countP_append, hzero, List.countP_map, Nat.add_zero]
      exact List.countP_congr fun e _ => by rw [Function.comp, renewable_renewed hp]
    rw [h.count, h'.count, hrest, countP_renewable_cons hp, List.length_append]
    omega

theorem counted_seedPairs : ∀ {pairs : List Pair} {m n : ℕ} {s : Store}, pairs.Nodup →
    (seedPairs now pairs m).Ok s n s' → ∃ k added, n = m + k ∧ Counted pairs now s.jobs s'.jobs k added
  | [], m, n, s, _, h => by
    obtain ⟨rfl, rfl⟩ := Tx.ok_pure.1 h
    refine ⟨0, [], rfl, ?_, le_rfl, fun _ h => absurd h List.not_mem_nil, ?_⟩
    · have hsame : s.jobs.rows.map (·.renewed [] now) = s.jobs.rows.map id :=
        List.map_congr_left fun e _ => JobQueueEntry.renewed_of_not_mem (by simp)
      rw [hsame, List.map_id, List.append_nil]
    · have hnone : ∀ e ∈ s.jobs.rows, ¬renewable [] now e = true := by simp [renewable]
      rw [List.countP_eq_zero.2 hnone]
      rfl
  | p :: pairs, m, n, s, hnd, h => by
    rw [List.nodup_cons] at hnd
    rw [seedPairs, Tx.ok_bind] at h
    obtain ⟨k, s₁, h1, h2⟩ := h
    obtain ⟨added, hadded⟩ := counted_seedEmbedJob h1
    obtain ⟨k', added', rfl, hadded'⟩ := counted_seedPairs hnd.2 h2
    exact ⟨k + k', added ++ added', by omega, hadded.cons hnd.1 hadded'⟩

theorem nodup_recoverablePairs (s : Store) : s.recoverablePairs.Nodup :=
  (List.perm_insertionSort ..).nodup_iff.2 (List.nodup_dedup _)

/-- A pass counts the rows that it adds and those that it renews. -/
theorem counted_seedEmbedJobs (h : (seedEmbedJobs now).Ok s n s') :
    ∃ added, Counted s.recoverablePairs now s.jobs s'.jobs n added := by
  obtain ⟨k, added, rfl, hcounted⟩ := counted_seedPairs (nodup_recoverablePairs s) (ok_seedEmbedJobs_iff.1 h)
  rw [Nat.zero_add]
  exact ⟨added, hcounted⟩

/-! ## A second pass -/

/-- The job's claim has not run out. -/
def StillHeld (now : ℤ) (q : JobQueue) (k : JobType × String) : Prop :=
  ∃ e ∈ q.rows, e.uniqueKey = k ∧ e.claimedBefore (now - staleJobAgeSecs) = false

/-- A pass takes back what it can, so that none of its claims has run out afterwards. -/
theorem held_of_seededWith {q q' : JobQueue} (h : SeededWith pairs now q q') (hp : p ∈ pairs) :
    StillHeld now q' (embedJobKey p) := by
  obtain ⟨e', he', hkey⟩ := h.queued p hp
  refine ⟨e', he', hkey, ?_⟩
  obtain ⟨e, he, rfl⟩ | ⟨-, p', -, hnew, -⟩ := h.sound e' he'
  · rw [JobQueueEntry.renewed_uniqueKey] at hkey
    unfold JobQueueEntry.renewed
    split_ifs with hcond
    · rfl
    · rw [hkey] at hcond
      exact Bool.eq_false_iff.2 fun hold => hcond ⟨List.mem_map_of_mem hp, hold⟩
  · rw [hnew]
    rfl

theorem ok_seedEmbedJob_held (h : StillHeld now s.jobs (embedJobKey p)) : (seedEmbedJob p now).Ok s 0 s := by
  obtain ⟨e, he, hkey, hheld⟩ := h
  obtain ⟨-, hfree, -, -⟩ | ⟨e₀, he₀, c, hk, hc, hlt, -, -, -⟩ | ⟨e₀, he₀, hk, hc, herr, hq⟩ :=
    enqueueJob_cases s.jobs .embedDocument (embedPayloadJson p) now
  · exact absurd hkey (hfree e he)
  · obtain rfl := AutoTable.eq_of_index he he₀ (hkey.trans hk.symm)
    have hold : e.claimedBefore (now - staleJobAgeSecs) = true := by
      refine claimedBefore_iff.2 ⟨c, hc, ?_⟩
      rw [staleJobAgeSecs]
      omega
    rw [hold] at hheld
    cases hheld
  · have hrun : enqueueJob s.jobs .embedDocument (embedPayloadJson p) now = (_, s.jobs) := Prod.ext herr hq
    rw [seedEmbedJob, Tx.ok_exec, hrun]
    exact if_pos (isJobAlreadyQueuedError_refusal ..)

theorem ok_seedPairs_held : ∀ {pairs : List Pair} {n : ℕ},
    (∀ p ∈ pairs, StillHeld now s.jobs (embedJobKey p)) → (seedPairs now pairs n).Ok s n s
  | [], n, _ => Tx.ok_pure.2 ⟨rfl, rfl⟩
  | p :: pairs, n, h => by
    rw [seedPairs, Tx.ok_bind]
    exact ⟨0, s, ok_seedEmbedJob_held (h p List.mem_cons_self),
      ok_seedPairs_held fun p' hp' => h p' (List.mem_cons_of_mem p hp')⟩

theorem ok_seedEmbedJobs_again (h : (seedEmbedJobs now).Ok s n s') : (seedEmbedJobs now).Ok s' 0 s' := by
  obtain ⟨q, rfl, hq⟩ := seededWith_seedEmbedJobs h
  unfold seedEmbedJobs
  rw [Tx.ok_bind]
  exact ⟨_, _, ⟨rfl, rfl⟩, ok_seedPairs_held fun p hp => held_of_seededWith hq hp⟩

/-! ## The pass as a whole -/

/-- The pair has rows that wait for an embedding. -/
def WorkLeft (s : Store) (p : Pair) : Prop :=
  ∃ r ∈ s.embeddings.rows, r.pair = p ∧ (r.state = .pending ∨ r.state = .stale)

theorem mem_recoverablePairs_iff : p ∈ s.recoverablePairs ↔ WorkLeft s p := by
  rw [Store.mem_recoverablePairs]
  simp only [WorkLeft, DocumentEmbedding.recoverable, Bool.or_eq_true, decide_eq_true_eq]

/-- The rows that were not there before. -/
def addedRows (q q' : JobQueue) : List JobQueueEntry :=
  q'.rows.filter fun e => decide (∀ e₀ ∈ q.rows, e₀.id ≠ e.id)

/-- The rows whose claim was older than a day and that wait again. -/
def resetRows (now : ℤ) (q q' : JobQueue) : List JobQueueEntry :=
  q.rows.filter fun e =>
    e.claimedBefore (now - staleJobAgeSecs) && decide ({ e with claimedAt := none, createdAt := now } ∈ q'.rows)

/-- The range of an `i64`. -/
def IsI64 (z : ℤ) : Prop := -2 ^ 63 ≤ z ∧ z < 2 ^ 63

/-- What `serde_json` documents for a derived `Deserialize`: the fields are the members of their
    names, in either order. -/
def DecodesMembers (decode : String → Except AnyError EmbedDocumentPayload) : Prop :=
  ∀ text d m, IsI64 d → IsI64 m →
    Json.readObject text = some [("document_id", d), ("model_id", m)] ∨
      Json.readObject text = some [("model_id", m), ("document_id", d)] →
    decode text = .ok ⟨d, m⟩

/-- What a seeding pass at `now` does to the store, and the `n` it returns. -/
structure Seeds (decode : String → Except AnyError EmbedDocumentPayload) (now : ℤ) (s : Store) (n : ℕ)
    (s' : Store) : Prop where
  queued : ∀ p, WorkLeft s p →
    ∃! e, e ∈ s'.jobs.rows ∧ e.jobType = .embedDocument ∧ e.payload = embedPayloadJson p
  distinct : ∀ p p', embedPayloadJson p = embedPayloadJson p' → p = p'
  decodes : ∀ p : Pair, IsI64 p.1 → IsI64 p.2 → decode (embedPayloadJson p) = .ok ⟨p.1, p.2⟩
  added : ∀ e ∈ addedRows s.jobs s'.jobs, ∃ p, WorkLeft s p ∧ e = newEmbedJob p now e.id
  count : n = (addedRows s.jobs s'.jobs).length + (resetRows now s.jobs s'.jobs).length
  unchanged : ∀ e ∈ s.jobs.rows, e ∉ resetRows now s.jobs s'.jobs → e ∈ s'.jobs.rows
  nothing_else : ∀ e' ∈ s'.jobs.rows, e' ∈ addedRows s.jobs s'.jobs ∨ e' ∈ s.jobs.rows ∨
    ∃ e ∈ resetRows now s.jobs s'.jobs, e' = { e with claimedAt := none, createdAt := now }
  frame : s' = { s with jobs := s'.jobs }
  again : (seedEmbedJobs now).Ok s' 0 s'

theorem addedRows_eq {q q' : JobQueue} {added : List JobQueueEntry} (h : Counted pairs now q q' n added) :
    addedRows q q' = added := by
  unfold addedRows
  rw [h.rows, List.filter_append]
  have hold : (q.rows.map (·.renewed pairs now)).filter
      (fun e => decide (∀ e₀ ∈ q.rows, e₀.id ≠ e.id)) = [] := by
    rw [List.filter_eq_nil_iff]
    intro e' he' hcond
    obtain ⟨e, he, rfl⟩ := List.mem_map.1 he'
    exact of_decide_eq_true hcond e he JobQueueEntry.renewed_id.symm
  have hnew : added.filter (fun e => decide (∀ e₀ ∈ q.rows, e₀.id ≠ e.id)) = added := by
    rw [List.filter_eq_self]
    intro e he
    refine decide_eq_true fun e₀ he₀ hid => ?_
    have hlt := (h.new e he).1
    have hle := q.le_seq e₀ he₀
    omega
  rw [hold, hnew, List.nil_append]

theorem resetRows_eq {q q' : JobQueue} (h : SeededWith pairs now q q') :
    resetRows now q q' = q.rows.filter (renewable pairs now) := by
  unfold resetRows
  refine List.filter_congr ?_
  intro e he
  by_cases hold : e.claimedBefore (now - staleJobAgeSecs) = true
  · by_cases hmem : e.uniqueKey ∈ pairs.map embedJobKey
    · have hkept := h.kept e he
      rw [JobQueueEntry.renewed, if_pos ⟨hmem, hold⟩] at hkept
      simp only [renewable, hold, hmem, hkept, decide_true, Bool.and_self]
    · have hkept := h.kept e he
      rw [JobQueueEntry.renewed_of_not_mem hmem] at hkept
      -- the row is there with its claim
      have hnot : { e with claimedAt := none, createdAt := now } ∉ q'.rows := by
        intro hreset
        have heq := AutoTable.eq_of_key hkept hreset rfl
        rw [heq] at hold
        cases hold
      simp only [renewable, hold, hmem, hnot, decide_false, Bool.and_false, Bool.false_and]
  · rw [Bool.not_eq_true] at hold
    rw [renewable_false hold, hold, Bool.false_and]

/-- **Seeding is exact and idempotent.**  A pass leaves one job for each pair with work left and adds
    no other; it counts what it adds and what it takes back, and a second pass does nothing. -/
theorem seeding_exact {decode : String → Except AnyError EmbedDocumentPayload}
    (hdecode : DecodesMembers decode) (h : (seedEmbedJobs now).Ok s n s') : Seeds decode now s n s' := by
  obtain ⟨q, rfl, hseeded⟩ := seededWith_seedEmbedJobs h
  obtain ⟨added, hcounted⟩ := counted_seedEmbedJobs h
  have hadded := addedRows_eq hcounted
  have hreset := resetRows_eq hseeded
  refine ⟨?_, fun p p' hp => embedPayloadJson_injective hp, ?_, ?_, ?_, ?_, ?_, rfl, ok_seedEmbedJobs_again h⟩
  · intro p hp
    obtain ⟨e, ⟨he, hkey⟩, hone⟩ := hseeded.existsUnique (mem_recoverablePairs_iff.2 hp)
    refine ⟨e, ⟨he, congrArg Prod.fst hkey, congrArg Prod.snd hkey⟩, ?_⟩
    rintro e' ⟨he', hty, hpayload⟩
    exact hone e' ⟨he', Prod.ext hty hpayload⟩
  · intro p h1 h2
    exact hdecode _ _ _ h1 h2 (.inl (readObject_embedPayloadJson p))
  · intro e he
    rw [hadded] at he
    obtain ⟨-, p, hp, hnew⟩ := hcounted.new e he
    exact ⟨p, mem_recoverablePairs_iff.1 hp, hnew⟩
  · rw [hadded, hreset, ← List.countP_eq_length_filter]
    exact hcounted.count
  · intro e he hnot
    have hkept := hseeded.kept e he
    rw [hreset, List.mem_filter, not_and] at hnot
    rwa [JobQueueEntry.renewed, if_neg fun hcond => hnot he (renewable_iff.2 hcond)] at hkept
  · intro e' he'
    obtain ⟨e, he, rfl⟩ | ⟨hlt, p, -, -, hfree⟩ := hseeded.sound e' he'
    · right
      unfold JobQueueEntry.renewed
      split_ifs with hcond
      · refine .inr ⟨e, ?_, rfl⟩
        rw [hreset]
        exact List.mem_filter.2 ⟨he, renewable_iff.2 hcond⟩
      · exact .inl he
    · left
      refine List.mem_filter.2 ⟨he', decide_eq_true fun e₀ he₀ hid => ?_⟩
      have hle := s.jobs.le_seq e₀ he₀
      omega

/-- The payload as it is read, up to members that are ignored. -/
def sampleDecode (text : String) : Except AnyError EmbedDocumentPayload :=
  match Json.readObject text with
  | some [("document_id", d), ("model_id", m)] => .ok ⟨d, m⟩
  | some [("model_id", m), ("document_id", d)] => .ok ⟨d, m⟩
  | _ => .error (.msg "missing field")

theorem sampleDecode_decodesMembers : DecodesMembers sampleDecode := by
  rintro text d m - - (h | h) <;> simp [sampleDecode, h]

/-- A job that was claimed more than a day ago. -/
theorem sample_seeding : ∃ s', (seedEmbedJobs 90000).Ok sampleStore 1 s' ∧
    Seeds sampleDecode 90000 sampleStore 1 s' := by
  have hone : ((seedEmbedJobs 90000 sampleStore).result.toOption = some 1) := by decide +kernel
  have hok : (seedEmbedJobs 90000).Ok sampleStore 1 (seedEmbedJobs 90000 sampleStore).state :=
    ⟨toOption_eq_some.1 hone, rfl⟩
  exact ⟨_, hok, seeding_exact sampleDecode_decodesMembers hok⟩

end Ask
