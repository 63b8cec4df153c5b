/-
  Rebuilding the vector index across interruptions: what a call leaves that
  stops between two statements, and whether the next call may trust it.
-/
import Ask.Mirror
import Mathlib.Data.List.GetD

namespace Ask

open Lib

/-! ## Calls that stop -/

/-- A call of `ensure_active_search_model` that stops after so many statements, if it gets so far;
    it has four of them. -/
structure IndexCall where
  model : EmbeddingModel
  now : ℤ
  statements : ℕ

/-- The store that the call leaves. -/
def IndexCall.leaves (c : IndexCall) (s : Store) : Store :=
  let outcome := ensureActiveSearchModel c.model c.now s
  ((s :: outcome.trace)[c.statements]?).getD outcome.state

/-- One call after the other, with no other writer. -/
def IndexStep (s : Store) (c : IndexCall) (s' : Store) : Prop := s' = c.leaves s

/-- The vector table is not there, or not recorded as the model's. -/
def Store.needsRebuild (s : Store) (model : EmbeddingModel) : Bool :=
  s.vec.isNone || decide (s.searchState.map (fun state => (state.activeModelId, state.dimensions)) ≠
    some (model.id, model.dimensions))

/-- Embedded rows of the model whose vectors have another length. -/
def Store.invalidRows (s : Store) (model : EmbeddingModel) : ℕ :=
  s.embeddings.rows.countP fun r => r.searchable model.id &&
    decide (r.embedding.map (·.length) ≠ some (model.dimensions.toNat * 4))

/-- The number of statements the call gets through: the record of the model needs its row, the
    backfill rows of the right length. -/
def IndexCall.commits (c : IndexCall) (s : Store) : ℕ :=
  if s.needsRebuild c.model = false ∨ c.model.dimensions ≤ 0 then 0
  else if (s.models.get? c.model.id).isSome = false then min c.statements 2
  else if s.invalidRows c.model ≠ 0 then min c.statements 3
  else min c.statements 4

/-- Nothing of the model is to be found. -/
def Unsearchable (s : Store) (modelId : ℤ) : Prop :=
  ∀ r ∈ s.embeddings.rows, r.searchable modelId = false

/-- The call does not stop with a new, empty table under the name of a model that has embedded
    rows: of the one recorded before, after the table was made, or of its own, before the backfill. -/
def IndexCall.Spares (c : IndexCall) (s : Store) : Prop :=
  (c.commits s = 2 → ∀ state, s.searchState = some state → Unsearchable s state.activeModelId) ∧
    (c.commits s = 3 → Unsearchable s c.model.id)

/-- A table under the name of a model mirrors it. -/
def Synced (s : Store) : Prop :=
  ∀ v state, s.vec = some v → s.searchState = some state → MirrorsModel s.embeddings v state.activeModelId

variable {s s' : Store} {model : EmbeddingModel} {now : ℤ} {c : IndexCall}

/-! ## Statement by statement -/

theorem putAll_isSome : ∀ {rows : List (ℤ × Bytes)} {v : VecTable},
    (∀ x ∈ rows, x.2.length = 4 * v.dimensions) → ∃ v', putAll v rows = some v'
  | [], v, _ => ⟨v, rfl⟩
  | (rowid, vector) :: rows, v, h => by
    have hlen : vector.length = 4 * v.dimensions := h _ List.mem_cons_self
    obtain ⟨v₁, hput⟩ : ∃ v₁, v.put rowid vector = some v₁ := ⟨_, dif_pos hlen⟩
    have hrest : ∀ x ∈ rows, x.2.length = 4 * v₁.dimensions := by
      intro x hx
      rw [(VecTable.put_eq_some hput).1]
      exact h x (List.mem_cons_of_mem _ hx)
    obtain ⟨v', hv'⟩ := putAll_isSome hrest
    exact ⟨v', by rw [putAll, hput]; exact hv'⟩

theorem searchable_iff {r : DocumentEmbedding} {modelId : ℤ} : r.searchable modelId = true ↔
    r.modelId = modelId ∧ r.state = .embedded ∧ ∃ v, r.embedding = some v := by
  simp [DocumentEmbedding.searchable, Option.isSome_iff_exists, and_assoc]

/-- Rows of the right length all go into a new table. -/
theorem exists_backfill (h : s.invalidRows model = 0) :
    ∃ v, putAll (.empty model.dimensions.toNat)
      (embeddedVectors s fun r => decide (r.modelId = model.id)) = some v := by
  refine putAll_isSome ?_
  intro x hx
  obtain ⟨r, hr, -, hm, hst, hbytes⟩ := mem_embeddedVectors.1 hx
  have hs : r.searchable model.id = true := searchable_iff.2 ⟨of_decide_eq_true hm, hst, _, hbytes⟩
  have hno := List.countP_eq_zero.1 h r hr
  rw [hs, Bool.true_and, decide_eq_true_eq, not_not, hbytes] at hno
  have hlen : x.2.length = model.dimensions.toNat * 4 := Option.some.inj hno
  show x.2.length = 4 * model.dimensions.toNat
  omega

/-- The table made anew. -/
def Store.created (s : Store) (model : EmbeddingModel) : Store :=
  { s with vec := some (.empty model.dimensions.toNat) }

/-- The new table under the model's name. -/
def Store.recorded (s : Store) (model : EmbeddingModel) (now : ℤ) : Store :=
  { s.created model with searchState := some ⟨model.id, model.dimensions, now⟩ }

/-- The backfill refuses rows of another length, or fills the table. -/
theorem run_backfill (s : Store) (now : ℤ) (hpos : 0 < model.dimensions) :
    (s.invalidRows model ≠ 0 ∧
      (backfillActiveSearchModel model (s.recorded model now)).trace = [] ∧
      (backfillActiveSearchModel model (s.recorded model now)).state = s.recorded model now) ∨
    s.invalidRows model = 0 ∧ ∃ v, MirrorsModel s.embeddings v model.id ∧
      (backfillActiveSearchModel model (s.recorded model now)).trace =
        [{ s.recorded model now with vec := some v }] ∧
      (backfillActiveSearchModel model (s.recorded model now)).state =
        { s.recorded model now with vec := some v } := by
  have hneg : ¬model.dimensions < 0 := by omega
  unfold backfillActiveSearchModel
  rw [if_neg hneg]
  dsimp only
  rw [Tx.run_bind_ok (a := s.invalidRows model) (l := []) rfl]
  by_cases hbad : s.invalidRows model = 0
  · obtain ⟨v, hput⟩ := exists_backfill hbad
    refine .inr ⟨hbad, v, mirrorsModel_putAll hput, ?_⟩
    have hexec : Db.context "failed to backfill sqlite-vec rows from embedded document rows"
        (putVecRows fun r => decide (r.modelId = model.id)) (s.recorded model now) =
        ⟨.ok (), { s.recorded model now with vec := some v },
          [{ s.recorded model now with vec := some v }]⟩ := by
      have hput' : putAll (.empty model.dimensions.toNat)
          (embeddedVectors (s.recorded model now) fun r => decide (r.modelId = model.id)) = some v := hput
      simp only [Db.context, Tx.mapError, putVecRows, Tx.exec, Store.recorded, Store.created] at hput' ⊢
      rw [hput']
      rfl
    rw [if_neg (not_not.2 hbad), Tx.run_bind_ok hexec]
    exact ⟨rfl, rfl⟩
  · rw [if_pos hbad]
    exact .inl ⟨hbad, rfl, rfl⟩

/-- A rebuild, statement by statement. -/
theorem run_rebuild (now : ℤ) (hneed : s.needsRebuild model = true) (hpos : 0 < model.dimensions) :
    ((s.models.get? model.id).isSome = false ∧
      (ensureActiveSearchModel model now s).trace = [{ s with vec := none }, s.created model] ∧
      (ensureActiveSearchModel model now s).state = s.created model) ∨
    ((s.models.get? model.id).isSome = true ∧ s.invalidRows model ≠ 0 ∧
      (ensureActiveSearchModel model now s).trace =
        [{ s with vec := none }, s.created model, s.recorded model now] ∧
      (ensureActiveSearchModel model now s).state = s.recorded model now) ∨
    (s.models.get? model.id).isSome = true ∧ s.invalidRows model = 0 ∧
      ∃ v, MirrorsModel s.embeddings v model.id ∧
        (ensureActiveSearchModel model now s).trace = [{ s with vec := none }, s.created model,
          s.recorded model now, { s.recorded model now with vec := some v }] ∧
        (ensureActiveSearchModel model now s).state = { s.recorded model now with vec := some v } := by
  have hneg : ¬model.dimensions < 0 := by omega
  have hzero : ¬model.dimensions = 0 := by omega
  unfold ensureActiveSearchModel
  have hq : activeIndexRequiresRebuild model s = ⟨.ok true, s, []⟩ := by
    rw [← hneed]
    rfl
  rw [Tx.run_bind_ok hq]
  simp only [Bool.not_true, Bool.false_eq_true, if_false, hneg, hzero, List.nil_append]
  rw [Tx.run_bind_ok (a := ()) (t := { s with vec := none }) (l := [{ s with vec := none }]) rfl,
    Tx.run_bind_ok (a := ()) (t := s.created model) (l := [s.created model]) rfl]
  cases hm : (s.models.get? model.id).isSome with
  | false =>
    have hrecord : (Tx.exec fun s : Store =>
        if (s.models.get? model.id).isSome then
          .ok ((), { s with searchState := some ⟨model.id, model.dimensions, now⟩ })
        else .error (.context "failed to store active vector search model state"
          (.msg "FOREIGN KEY constraint failed")) : Db Unit) (s.created model) =
        ⟨.error (.context "failed to store active vector search model state"
          (.msg "FOREIGN KEY constraint failed")), s.created model, []⟩ := by
      simp only [Tx.exec, Store.created, hm, Bool.false_eq_true, if_false]
    rw [Tx.run_bind_error hrecord]
    exact .inl ⟨rfl, rfl, rfl⟩
  | true =>
    have hrecord : (Tx.exec fun s : Store =>
        if (s.models.get? model.id).isSome then
          .ok ((), { s with searchState := some ⟨model.id, model.dimensions, now⟩ })
        else .error (.context "failed to store active vector search model state"
          (.msg "FOREIGN KEY constraint failed")) : Db Unit) (s.created model) =
        ⟨.ok (), s.recorded model now, [s.recorded model now]⟩ := by
      simp only [Tx.exec, Store.recorded, Store.created, hm, if_true]
    rw [Tx.run_bind_ok hrecord]
    obtain ⟨hbad, htr, hst⟩ | ⟨hgood, v, hv, htr, hst⟩ := run_backfill s now hpos
    · refine .inr (.inl ⟨rfl, hbad, ?_, hst⟩)
      dsimp only
      rw [htr]
      rfl
    · refine .inr (.inr ⟨rfl, hgood, v, hv, ?_, hst⟩)
      dsimp only
      rw [htr]
      rfl

/-- A call for the model that is active, or for one without dimensions, changes nothing. -/
theorem run_idle (now : ℤ) (h : s.needsRebuild model = false ∨ model.dimensions ≤ 0) :
    (ensureActiveSearchModel model now s).trace = [] ∧ (ensureActiveSearchModel model now s).state = s := by
  unfold ensureActiveSearchModel
  have hq : activeIndexRequiresRebuild model s = ⟨.ok (s.needsRebuild model), s, []⟩ := rfl
  rw [Tx.run_bind_ok hq]
  by_cases hneed : s.needsRebuild model = false
  · rw [hneed]
    exact ⟨rfl, rfl⟩
  · rw [Bool.not_eq_false] at hneed
    have hle : model.dimensions ≤ 0 := h.resolve_left (by simp [hneed])
    simp only [hneed, Bool.not_true, Bool.false_eq_true, if_false, List.nil_append]
    by_cases hneg : model.dimensions < 0
    · rw [if_pos hneg]
      exact ⟨rfl, rfl⟩
    · rw [if_neg hneg, if_pos (by omega)]
      exact ⟨rfl, rfl⟩

/-- What a call leaves, by the number of its statements that committed. -/
theorem leaves_cases (c : IndexCall) (s : Store) :
    (c.commits s = 0 ∧ c.leaves s = s) ∨
    (c.commits s = 1 ∧ c.leaves s = { s with vec := none }) ∨
    (c.commits s = 2 ∧ c.leaves s = s.created c.model) ∨
    (c.commits s = 3 ∧ c.leaves s = s.recorded c.model c.now) ∨
    c.commits s = 4 ∧ ∃ v, MirrorsModel s.embeddings v c.model.id ∧
      c.leaves s = { s.recorded c.model c.now with vec := some v } := by
  obtain ⟨model, now, k⟩ := c
  by_cases hidle : s.needsRebuild model = false ∨ model.dimensions ≤ 0
  · obtain ⟨htr, hst⟩ := run_idle now hidle
    refine .inl ⟨if_pos hidle, ?_⟩
    simp only [IndexCall.leaves, htr, hst]
    cases k <;> simp
  have hneed : s.needsRebuild model = true := by
    simpa using (not_or.1 hidle).1
  have hpos : 0 < model.dimensions := by
    have := (not_or.1 hidle).2
    omega
  simp only [IndexCall.commits, IndexCall.leaves, hidle, if_false]
  obtain ⟨hm, htr, hst⟩ | ⟨hm, hbad, htr, hst⟩ | ⟨hm, hgood, v, hv, htr, hst⟩ :=
    run_rebuild now hneed hpos
  · rw [htr, hst]
    rcases k with _ | _ | k <;> simp [hm]
  · rw [htr, hst]
    rcases k with _ | _ | _ | k <;> simp [hm, hbad]
  · rw [htr, hst]
    rcases k with _ | _ | _ | _ | k <;> simp [hm, hgood]
    exact hv

/-! ## Tables that can be trusted -/

/-- An empty table mirrors the models without searchable rows. -/
theorem mirrorsModel_empty {n : ℕ} {modelId : ℤ} :
    MirrorsModel s.embeddings (.empty n) modelId ↔ Unsearchable s modelId := by
  constructor
  · intro h r hr
    by_contra hs
    rw [Bool.not_eq_false, searchable_iff] at hs
    obtain ⟨hm, hst, v, hv⟩ := hs
    exact absurd ((h (r.id, v)).2 ⟨r, hr, rfl, hst, hm, hv⟩) List.not_mem_nil
  · intro h x
    constructor
    · exact fun hx => absurd hx List.not_mem_nil
    · rintro ⟨r, hr, -, hst, hm, hbytes⟩
      have hs := searchable_iff.2 ⟨hm, hst, x.2, hbytes⟩
      rw [h r hr] at hs
      cases hs

/-- A call keeps the table in step with its name exactly when it stops at no empty one that should
    not be. -/
theorem synced_leaves (hs : Synced s) : Synced (c.leaves s) ↔ c.Spares s := by
  unfold IndexCall.Spares
  obtain ⟨hk, hl⟩ | ⟨hk, hl⟩ | ⟨hk, hl⟩ | ⟨hk, hl⟩ | ⟨hk, v, hv, hl⟩ := leaves_cases c s
  · rw [hl, hk]
    simpa using hs
  · rw [hl, hk]
    simp [Synced]
  · rw [hl, hk]
    constructor
    · intro h
      refine ⟨fun _ state hstate => ?_, by simp⟩
      exact mirrorsModel_empty.1 (h _ state rfl hstate)
    · rintro ⟨h, -⟩ v state ⟨⟩ hstate
      exact mirrorsModel_empty.2 (h rfl state hstate)
  · rw [hl, hk]
    constructor
    · intro h
      refine ⟨by simp, fun _ => ?_⟩
      exact mirrorsModel_empty.1 (h _ _ rfl rfl)
    · rintro ⟨-, h⟩ v state ⟨⟩ ⟨⟩
      exact mirrorsModel_empty.2 (h rfl)
  · rw [hl, hk]
    refine ⟨fun _ => ⟨by simp, by simp⟩, ?_⟩
    rintro - v' state ⟨⟩ ⟨⟩
    exact hv

/-- On a table in step with its name, a call that ends well leaves the model's rows. -/
theorem Synced.mirrors {n : ℕ} (hs : Synced s) (h : (ensureActiveSearchModel model now).Ok s n s') :
    MirrorVec s'.vec s'.embeddings model.id := by
  obtain ⟨rfl, ⟨v, hv⟩, state, hstate, hid⟩ | ⟨v, hput, rfl⟩ := ok_ensureActiveSearchModel h
  · exact ⟨v, hv, hid ▸ hs v state hv hstate⟩
  · exact ⟨v, rfl, mirrorsModel_putAll hput⟩

/-- Out of step, the call for the recorded model trusts the table. -/
theorem exists_trusted (hs : ¬Synced s) : ∃ model now, (ensureActiveSearchModel model now).Ok s 0 s ∧
    ¬MirrorVec s.vec s.embeddings model.id := by
  unfold Synced at hs
  push Not at hs
  obtain ⟨v, state, hv, hstate, hno⟩ := hs
  refine ⟨⟨state.activeModelId, "", state.dimensions, 0, 0, 0⟩, 0, ?_, ?_⟩
  · unfold ensureActiveSearchModel
    refine Tx.ok_bind.2 ⟨false, s, ⟨?_, rfl⟩, Tx.ok_pure.2 ⟨rfl, rfl⟩⟩
    simp [activeIndexRequiresRebuild, Tx.query, hv, hstate]
  · rintro ⟨v', hv', hm⟩
    cases hv.symm.trans hv'
    exact hno hm

/-! ## Any number of calls -/

theorem synced_run {s₀ : Store} {calls : List IndexCall} (h₀ : Synced s₀)
    (h : Run (When (fun s c => c.Spares s) IndexStep) s₀ calls s) : Synced s := by
  refine h.invariant (I := Synced) ?_ h₀
  rintro s c s' - ⟨rfl, hc⟩ hs
  exact (synced_leaves hs).2 hc

/-- **A rebuild survives interruptions that do not leave an empty table behind**: after any calls,
    stopped anywhere else, a call that ends well leaves exactly the model's embedded rows; and after
    a call that stops there, some call ends well on a table that lacks rows. -/
theorem rebuild_survives {s₀ : Store} {calls : List IndexCall} (h₀ : Synced s₀)
    (h : Run (When (fun s c => c.Spares s) IndexStep) s₀ calls s) :
    (∀ model now n s', (ensureActiveSearchModel model now).Ok s n s' →
      MirrorVec s'.vec s'.embeddings model.id) ∧
    ∀ c : IndexCall, ¬c.Spares s → ∃ model now,
      (ensureActiveSearchModel model now).Ok (c.leaves s) 0 (c.leaves s) ∧
        ¬MirrorVec (c.leaves s).vec (c.leaves s).embeddings model.id := by
  have hs := synced_run h₀ h
  refine ⟨fun model now n s' hok => hs.mirrors hok, ?_⟩
  intro c hc
  exact exists_trusted fun hl => hc ((synced_leaves hs).1 hl)

/-! ## Calls that stop, and the one that loses rows -/

/-- A store with an embedded row and no vector table. -/
def embeddedStore : Store :=
  let program : Db Unit := do
    let _ ← insertModel sampleModel 0
    let _ ← upsertDocumentAndReplacePendingEmbeddings sampleDocument 1 [(.filename, 0, 0)] 0
    replaceEmbeddingsForDocumentModel 1 1 [⟨.filename, 0, 0, [0, 0, 0, 0]⟩] 0
  (program Store.empty).state

/-- The model of that store. -/
def embeddedModel : EmbeddingModel := ⟨1, "m", 1, 4, 0, 0⟩

/-- Three documents with four, four and two embedded chunks of the first model; nothing of the second
    model, and no vector table. -/
def chunkStore : Store :=
  let ingest (path : String) (chunks : List ChunkRef) : Db Unit := do
    let _ ← upsertDocumentAndReplacePendingEmbeddings { sampleDocument with filepath := path } 1 chunks 0
  let embedded (c : ChunkRef) (x : UInt32) : EmbeddedChunk := ⟨c.1, c.2.1, c.2.2, serializeEmbedding [x]⟩
  let four : List ChunkRef := [(.filename, 0, 0), (.content, 0, 4), (.content, 4, 8), (.content, 8, 12)]
  let program : Db Unit := do
    let _ ← insertModel sampleModel 0
    let _ ← insertModel otherModel 0
    ingest "/r/f" four
    ingest "/r/g" four
    ingest "/r/h" (four.take 2)
    replaceEmbeddingsForDocumentModel 1 1 (List.zipWith embedded four [163, 123, 183, 143]) 0
    replaceEmbeddingsForDocumentModel 2 1 (List.zipWith embedded four [193, 173, 93, 153]) 0
    replaceEmbeddingsForDocumentModel 3 1 (List.zipWith embedded four [148, 203]) 0
  (program Store.empty).state

/-- The store after a whole call for the first model. -/
def indexedStore : Store := (IndexCall.mk embeddedModel 0 4).leaves chunkStore

instance (s : Store) (modelId : ℤ) : Decidable (Unsearchable s modelId) :=
  inferInstanceAs (Decidable (∀ r ∈ s.embeddings.rows, r.searchable modelId = false))

instance (c : IndexCall) (s : Store) : Decidable (c.Spares s) :=
  inferInstanceAs (Decidable ((c.commits s = 2 →
    ∀ state ∈ s.searchState, Unsearchable s state.activeModelId) ∧
      (c.commits s = 3 → Unsearchable s c.model.id)))

theorem synced_of_none (hv : s.vec.isNone = true) : Synced s := by
  intro v state hsome
  rw [hsome] at hv
  cases hv

theorem synced_indexedStore : Synced indexedStore :=
  (synced_leaves (synced_of_none (by decide +kernel))).2 (by decide +kernel)

/-- Two calls for the second model stop, after the first model's table is dropped and before the
    backfill; then a call for the first model finds its ten rows. -/
theorem rebuild_survives_twice : ∃ s s', Run (When (fun s c => c.Spares s) IndexStep) indexedStore
      [⟨⟨2, "n", 1, 4, 0, 0⟩, 1, 1⟩, ⟨⟨2, "n", 1, 4, 0, 0⟩, 2, 3⟩] s ∧
    (ensureActiveSearchModel embeddedModel 3).Ok s 10 s' ∧ MirrorVec s'.vec s'.embeddings 1 := by
  have hrun : Run (When (fun s c => c.Spares s) IndexStep) indexedStore
      [⟨⟨2, "n", 1, 4, 0, 0⟩, 1, 1⟩, ⟨⟨2, "n", 1, 4, 0, 0⟩, 2, 3⟩] _ :=
    .cons ⟨rfl, by decide +kernel⟩ (.cons ⟨rfl, by decide +kernel⟩ (.nil _))
  have hplay : ((finish (ensureActiveSearchModel embeddedModel 3)
      ((IndexCall.mk ⟨2, "n", 1, 4, 0, 0⟩ 2 3).leaves
        ((IndexCall.mk ⟨2, "n", 1, 4, 0, 0⟩ 1 1).leaves indexedStore))).any fun out =>
          decide (out.1 = 10)) = true := by
    decide +kernel
  obtain ⟨⟨n, s'⟩, hfinish, hn⟩ := (Option.any_eq_true _ _).1 hplay
  obtain rfl : n = 10 := of_decide_eq_true hn
  have hok := ok_of_finish hfinish
  exact ⟨_, s', hrun, hok, (rebuild_survives synced_indexedStore hrun).1 _ _ _ _ hok⟩

/-- The first startup is stopped before its backfill: the next call finds a table under the model's
    name, is content with it, and the model's embedded row is missing. -/
theorem rebuild_lost : ∃ s', (ensureActiveSearchModel embeddedModel 2).Ok
      ((IndexCall.mk embeddedModel 1 3).leaves embeddedStore) 0 s' ∧
    ¬MirrorVec s'.vec s'.embeddings 1 := by
  have hplay : ((finish (ensureActiveSearchModel embeddedModel 2)
      ((IndexCall.mk embeddedModel 1 3).leaves embeddedStore)).any fun out =>
        decide (out.1 = 0) && out.2.vec.all (fun v => v.rows.isEmpty) &&
          out.2.embeddings.rows.any fun r => r.searchable 1) = true := by
    decide +kernel
  obtain ⟨⟨n, s'⟩, hfinish, hcheck⟩ := (Option.any_eq_true _ _).1 hplay
  rw [Bool.and_eq_true, Bool.and_eq_true, decide_eq_true_eq] at hcheck
  obtain ⟨⟨rfl, hempty⟩, hrow⟩ := hcheck
  refine ⟨s', ok_of_finish hfinish, ?_⟩
  rintro ⟨v, hv, hm⟩
  obtain ⟨r, hr, hs⟩ := List.any_eq_true.1 hrow
  obtain ⟨hid, hst, bytes, hb⟩ := searchable_iff.1 hs
  have hmem := (hm (r.id, bytes)).2 ⟨r, hr, rfl, hst, hid, hb⟩
  rw [hv] at hempty
  rw [List.isEmpty_iff.1 hempty] at hmem
  exact absurd hmem List.not_mem_nil

end Ask
