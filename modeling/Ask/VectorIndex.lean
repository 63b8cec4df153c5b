/-
  The active vector index: `vector_index.rs`.

  Every statement commits by itself; the states in between are in the trace of
  the program.
-/
import Ask.Effects

namespace Ask

open Lib

/-- No table, or one for another model or another length. -/
def activeIndexRequiresRebuild (model : EmbeddingModel) : Db Bool := Tx.query fun s =>
  .ok (s.vec.isNone || decide
    (s.searchState.map (fun state => (state.activeModelId, state.dimensions)) ≠
      some (model.id, model.dimensions)))

/-- Whether a row is an embedded one of the model, with a vector. -/
def DocumentEmbedding.searchable (modelId : ℤ) (r : DocumentEmbedding) : Bool :=
  decide (r.modelId = modelId) && decide (r.state = .embedded) && r.embedding.isSome

/-- Write the vectors of all embedded rows of the model; how many. -/
def backfillActiveSearchModel (model : EmbeddingModel) : Db ℕ :=
  if model.dimensions < 0 then
    Tx.fail (.context "embedding dimensions must fit into usize"
      (.msg "out of range integral type conversion attempted"))
  else do
    let expectedBytes := model.dimensions.toNat * 4
    let invalidRows ← Tx.query fun s => .ok (s.embeddings.rows.countP fun r =>
      r.searchable model.id && decide (r.embedding.map (·.length) ≠ some expectedBytes))
    if invalidRows ≠ 0 then
      Tx.fail (.msg (s!"cannot backfill vector search index: {invalidRows} embedded rows for " ++
        s!"model {model.name} have invalid dimensions"))
    else do
      Db.context "failed to backfill sqlite-vec rows from embedded document rows"
        (putVecRows fun r => decide (r.modelId = model.id))
      Tx.query fun s => .ok (s.embeddings.rows.countP fun r => r.searchable model.id)

/-- Make the vector table the model's, rebuilding it where it is not. -/
def ensureActiveSearchModel (model : EmbeddingModel) (now : ℤ) : Db ℕ := do
  let needsRebuild ← activeIndexRequiresRebuild model
  if !needsRebuild then pure 0
  else if model.dimensions < 0 then
    Tx.fail (.context "embedding dimensions must fit into usize"
      (.msg "out of range integral type conversion attempted"))
  else if model.dimensions = 0 then Tx.fail (.msg "embedding dimensions must be positive")
  else do
    Tx.exec fun s => .ok ((), { s with vec := none })
    Tx.exec fun s => .ok ((), { s with vec := some (.empty model.dimensions.toNat) })
    Tx.exec fun s =>
      if (s.models.get? model.id).isSome then
        .ok ((), { s with searchState := some ⟨model.id, model.dimensions, now⟩ })
      else .error (.context "failed to store active vector search model state"
        (.msg "FOREIGN KEY constraint failed"))
    backfillActiveSearchModel model

variable {s s' : Store}

theorem ok_activeIndexRequiresRebuild {model : EmbeddingModel} {b : Bool}
    (h : (activeIndexRequiresRebuild model).Ok s b s') :
    s = s' ∧ (b = false → (∃ v, s.vec = some v) ∧
      ∃ state, s.searchState = some state ∧ state.activeModelId = model.id) := by
  obtain ⟨hb, rfl⟩ := Tx.ok_query.1 h
  refine ⟨rfl, fun hf => ?_⟩
  cases hb
  rw [Bool.or_eq_false_iff, decide_eq_false_iff_not, not_not, Option.map_eq_some_iff] at hf
  obtain ⟨hvec, state, hstate, hpair⟩ := hf
  exact ⟨by simpa [Option.isSome_iff_exists] using (Option.isNone_eq_false_iff.1 hvec), state, hstate,
    congrArg Prod.fst hpair⟩

/-- The record of the active model is refused for a model that is not there. -/
theorem ok_recordActive {model : EmbeddingModel} {state : SearchState} {e : AnyError} {u : Unit}
    (h : (Tx.exec fun s : Store =>
      if (s.models.get? model.id).isSome then .ok ((), { s with searchState := some state })
      else .error e).Ok s u s') :
    (s.models.get? model.id).isSome = true ∧ s' = { s with searchState := some state } := by
  rw [Tx.ok_exec] at h
  split_ifs at h with hm
  cases h
  exact ⟨hm, rfl⟩

/-- The index is the model's already, or it was made anew from the model's embedded rows. -/
theorem ok_ensureActiveSearchModel {model : EmbeddingModel} {now : ℤ} {n : ℕ}
    (h : (ensureActiveSearchModel model now).Ok s n s') :
    (s' = s ∧ (∃ v, s.vec = some v) ∧
      ∃ state, s.searchState = some state ∧ state.activeModelId = model.id) ∨
    ∃ v, putAll (.empty model.dimensions.toNat)
        (embeddedVectors s fun r => decide (r.modelId = model.id)) = some v ∧
      s' = { s with vec := some v, searchState := some ⟨model.id, model.dimensions, now⟩ } := by
  unfold ensureActiveSearchModel at h
  rw [Tx.ok_bind] at h
  obtain ⟨b, s₁, h1, h⟩ := h
  obtain ⟨rfl, hfalse⟩ := ok_activeIndexRequiresRebuild h1
  cases b with
  | false =>
    obtain ⟨-, rfl⟩ := Tx.ok_pure.1 h
    exact .inl ⟨rfl, hfalse rfl⟩
  | true =>
    simp only [Bool.not_true, Bool.false_eq_true, if_false] at h
    split_ifs at h with hneg hzero
    · exact absurd h Tx.ok_fail
    · exact absurd h Tx.ok_fail
    · simp only [Tx.ok_bind] at h
      obtain ⟨_, s₁, h1, _, s₂, h2, _, s₃, h3, h⟩ := h
      obtain rfl := ok_exec_ok.1 h1
      obtain rfl := ok_exec_ok.1 h2
      obtain ⟨-, rfl⟩ := ok_recordActive h3
      unfold backfillActiveSearchModel at h
      rw [if_neg hneg, Tx.ok_bind] at h
      obtain ⟨invalid, s₄, h4, h⟩ := h
      obtain ⟨-, rfl⟩ := Tx.ok_query.1 h4
      split_ifs at h with hbad
      · exact absurd h Tx.ok_fail
      · rw [Tx.ok_bind] at h
        obtain ⟨_, s₅, h5, h6⟩ := h
        obtain ⟨-, rfl⟩ := Tx.ok_query.1 h6
        rw [Db.ok_context, putVecRows, Tx.ok_exec] at h5
        dsimp only at h5
        split at h5
        · rename_i v hput
          cases h5
          exact .inr ⟨v, hput, rfl⟩
        · cases h5

/-! ## Every statement -/

/-- Vectors put into a table come from the rows. -/
theorem ok_putVecRows {p : DocumentEmbedding → Bool} {u : Unit} (h : (putVecRows p).Ok s u s') :
    s' = s ∨ ∃ v v', s.vec = some v ∧ putAll v (embeddedVectors s p) = some v' ∧
      s' = { s with vec := some v' } := by
  rw [putVecRows, Tx.ok_exec] at h
  split at h
  · cases h
    exact .inl rfl
  · rename_i v hv
    split at h
    · rename_i v' hput
      cases h
      exact .inr ⟨v, v', hv, hput, rfl⟩
    · cases h

/-- What a statement may do to the table and to the recorded model. -/
inductive IndexChange (s : Store) : Option SearchState → Option VecTable → Prop
  | drop : IndexChange s s.searchState none
  | create (dimensions : ℕ) : IndexChange s s.searchState (some (.empty dimensions))
  | record (state : SearchState) : IndexChange s (some state) s.vec
  | put {p : DocumentEmbedding → Bool} {v v' : VecTable} : s.vec = some v →
      putAll v (embeddedVectors s p) = some v' → IndexChange s s.searchState (some v')

/-- What these changes keep, the call keeps at every statement. -/
theorem keeps_ensureActiveSearchModel {I : Store → Prop} {model : EmbeddingModel} {now : ℤ}
    (hI : ∀ s state vec, IndexChange s state vec → I s → I { s with searchState := state, vec := vec }) :
    Tx.Keeps I (ensureActiveSearchModel model now) := by
  refine Tx.keeps_bind Tx.keeps_query ?_
  intro b
  split_ifs with _ hneg
  · exact Tx.keeps_pure
  · exact Tx.keeps_fail
  · exact Tx.keeps_fail
  · have hstmt : ∀ {f : Store → Store}, (∀ s, I s → I (f s)) →
        Tx.Keeps I (Tx.exec fun s => .ok ((), f s) : Db Unit) := by
      intro f hf
      refine Tx.keeps_exec ?_
      intro s u s' hok hs
      rw [ok_exec_ok.1 hok]
      exact hf s hs
    refine Tx.keeps_bind (hstmt fun s hs => hI s _ _ .drop hs) fun _ =>
      Tx.keeps_bind (hstmt fun s hs => hI s _ _ (.create _) hs) fun _ =>
      Tx.keeps_bind (Tx.keeps_exec fun s u s' hok hs => ?_) ?_
    · obtain ⟨-, rfl⟩ := ok_recordActive hok
      exact hI s _ _ (.record _) hs
    intro _
    unfold backfillActiveSearchModel
    rw [if_neg hneg]
    refine Tx.keeps_bind Tx.keeps_query ?_
    intro invalid
    split_ifs
    · exact Tx.keeps_fail
    · refine Tx.keeps_bind (Tx.keeps_mapError (Tx.keeps_exec ?_)) fun _ => Tx.keeps_query
      intro s u s' hok hs
      obtain rfl | ⟨v, v', hv, hput, rfl⟩ := ok_putVecRows hok
      · exact hs
      · exact hI s _ _ (.put hv hput) hs

theorem traced_ensureActiveSearchModel {model : EmbeddingModel} {now : ℤ} :
    Tx.Traced (ensureActiveSearchModel model now) := by
  refine Tx.traced_bind Tx.traced_query ?_
  intro b
  split_ifs with _ hneg
  · exact Tx.traced_pure
  · exact Tx.traced_fail
  · exact Tx.traced_fail
  · refine Tx.traced_bind Tx.traced_exec fun _ => Tx.traced_bind Tx.traced_exec fun _ =>
      Tx.traced_bind Tx.traced_exec ?_
    intro _
    unfold backfillActiveSearchModel
    rw [if_neg hneg]
    refine Tx.traced_bind Tx.traced_query ?_
    intro invalid
    split_ifs
    · exact Tx.traced_fail
    · exact Tx.traced_bind (Tx.traced_mapError Tx.traced_exec) fun _ => Tx.traced_query

end Ask
