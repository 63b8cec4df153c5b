/-
  When a server can answer for its embedding statistics: where the model has an
  embedding row, and nowhere else.
-/
import Ask.Issued
import Ask.Search
import Ask.Server
import Ask.StatsLaw

namespace Ask

open Lib

variable {E : Env} {s : Store} {sv : Server} {cutoff : ℤ}

/-! ## Payloads -/

/-- Ids that were given out are in the range of an `i64`, as the counters of their tables are. -/
theorem Store.Issued.isI64 {p : Pair} (h : s.Issued p) (hdocuments : IsI64 s.documents.seq)
    (hmodels : IsI64 s.models.seq) : IsI64 p.1 ∧ IsI64 p.2 := by
  obtain ⟨⟨hpos, hle⟩, hpos', hle'⟩ := h
  unfold IsI64 at *
  omega

theorem Numbered.claimedDecode (h : Numbered s) (hdecode : DecodesMembers E.decodeEmbedPayload)
    (hdocuments : IsI64 s.documents.seq) (hmodels : IsI64 s.models.seq) : ClaimedDecode E s cutoff := by
  intro e he hty _
  obtain ⟨p, hpayload, hp⟩ := h.payloads e he hty
  obtain ⟨h1, h2⟩ := hp.isI64 hdocuments hmodels
  exact ⟨⟨p.1, p.2⟩, hpayload ▸ hdecode _ _ _ h1 h2 (.inl (readObject_embedPayloadJson p))⟩

theorem numbered_server {tr : List ServerOp} (h : Run (ServerStep E) .fresh tr sv) : Numbered sv.store := by
  obtain ⟨calls, hrun⟩ := server_calls h
  exact numbered_run hrun

/-! ## Availability -/

/-- **The statistics are available where the model has a row**: after any lifetimes of the server, at
    any time, the snapshot of a model is loaded if and only if the model has an embedding row.
    `hdocuments` and `hmodels` are the range of the tables' counters. -/
theorem stats_available {tr : List ServerOp} (hdecode : DecodesMembers E.decodeEmbedPayload)
    (h : Run (ServerStep E) .fresh tr sv) (hdocuments : IsI64 sv.store.documents.seq)
    (hmodels : IsI64 sv.store.models.seq) (model : EmbeddingModel) (now : ℤ) :
    (loadEmbeddingStatsSnapshot E model now).Succeeds sv.store ↔
      ∃ r ∈ sv.store.embeddings.rows, r.modelId = model.id := by
  rw [succeeds_loadEmbeddingStatsSnapshot]
  exact and_iff_right ((numbered_server h).claimedDecode hdecode hdocuments hmodels)

/-- A model, and an ingested file whose embed job is claimed. -/
theorem stats_available_ingested : ∃ sv, Run (ServerStep readingEnv) .fresh sampleLifetime sv ∧
    (loadEmbeddingStatsSnapshot readingEnv ⟨1, "m", 1, 4, 0, 0⟩ 30).Succeeds sv.store := by
  have hplay : ((finish (reconcileEmbeddingStartup readingEnv (sampleView [0x61]) sampleModel 0) .empty).any
      fun out => (finish (ensureActiveSearchModel out.1.model 0) out.2).any fun out =>
        (playSystem readingEnv OnlyIngests (sampleOutside none 5) (ingestOps [0x61]) (.start out.2)).any
          fun sys => decide (sys.store.documents.seq = 1 ∧ sys.store.models.seq = 1) &&
            sys.store.embeddings.rows.any fun r => decide (r.modelId = 1)) = true := by
    decide +kernel
  obtain ⟨out, hout, hplay⟩ := (Option.any_eq_true _ _).1 hplay
  obtain ⟨out', hout', hplay⟩ := (Option.any_eq_true _ _).1 hplay
  obtain ⟨sys, hsys, hplay⟩ := (Option.any_eq_true _ _).1 hplay
  simp only [Bool.and_eq_true, decide_eq_true_eq, List.any_eq_true] at hplay
  obtain ⟨⟨hdocuments, hmodels⟩, hrow⟩ := hplay
  have hrun : Run (ServerStep readingEnv) .fresh sampleLifetime ⟨sys, true⟩ :=
    .cons (.startup (ok_of_finish hout) (ok_of_finish hout')) (run_work (run_of_playSystem hsys))
  have hone : IsI64 1 := by
    unfold IsI64
    decide
  exact ⟨⟨sys, true⟩, hrun, (stats_available sampleDecode_decodesMembers hrun (hdocuments ▸ hone)
    (hmodels ▸ hone) _ 30).2 hrow⟩

/-- After a startup on an empty database the active model is loaded, and its statistics never are. -/
theorem stats_unavailable_after_startup : ∃ sv model,
    Run (ServerStep readingEnv) .fresh [.startup (fun _ => none) sampleModel 0] sv ∧
    loadActiveModel.Ok sv.store model sv.store ∧
    ∀ now, (loadEmbeddingStatsSnapshot readingEnv model now).Fails sv.store
      (.context "failed to query document embedding counts"
        (.msg "Invalid column type Null at index: 1, name: embedded")) := by
  have hplay : ((finish (reconcileEmbeddingStartup readingEnv (fun _ => none) sampleModel 0) .empty).any
      fun out => (finish (ensureActiveSearchModel out.1.model 0) out.2).any fun out =>
        out.2.searchState.any fun state => (out.2.models.get? state.activeModelId).any fun _ =>
          decide (out.2.jobs.rows = [] ∧ out.2.embeddings.rows = [])) = true := by
    decide +kernel
  obtain ⟨out, hout, hplay⟩ := (Option.any_eq_true _ _).1 hplay
  obtain ⟨out', hout', hplay⟩ := (Option.any_eq_true _ _).1 hplay
  obtain ⟨state, hstate, hplay⟩ := (Option.any_eq_true _ _).1 hplay
  obtain ⟨model, hmodel, hplay⟩ := (Option.any_eq_true _ _).1 hplay
  obtain ⟨hjobs, hrows⟩ := of_decide_eq_true hplay
  refine ⟨⟨.start out'.2, true⟩, model, ?_, loadActiveModel_ok hstate hmodel, fun now => ?_⟩
  · exact .cons (.startup (ok_of_finish hout) (ok_of_finish hout')) (.nil _)
  · refine fails_loadEmbeddingStatsSnapshot ?_ ?_
    · intro e he
      exact absurd (hjobs ▸ he) List.not_mem_nil
    · intro r hr
      exact absurd (hrows ▸ hr) List.not_mem_nil

end Ask
