/-
  What the provider's client promises: which vector belongs to which input, and
  that nothing of the batches shows.
-/
import Ask.Embeddings

namespace Ask

/-! ## Responses -/

section responses
variable {decoded : EmbeddingResponse} {model : EmbeddingModel} {n : ℕ} {vectors : List Vector32}
  {items : List EmbeddingResponseItem}

/-- The indices are those of the inputs, each once, in some order. -/
def IndicesMatch (decoded : EmbeddingResponse) (n : ℕ) : Prop :=
  (decoded.data.map (·.index)).Perm (List.range n)

/-- Every embedding has the model's dimensions. -/
def DimensionsMatch (decoded : EmbeddingResponse) (model : EmbeddingModel) : Prop :=
  ∀ item ∈ decoded.data, item.embedding.length = asUsize model.dimensions

instance : Decidable (IndicesMatch decoded n) := inferInstanceAs (Decidable (List.Perm _ _))

instance : Decidable (DimensionsMatch decoded model) :=
  inferInstanceAs (Decidable (∀ item ∈ decoded.data, _))

theorem itemVector_eq_ok {item : EmbeddingResponseItem} {vector : Vector32} :
    itemVector model item = .ok vector ↔
      item.embedding.length = asUsize model.dimensions ∧ vector = item.embedding := by
  unfold itemVector
  split_ifs with h
  · simp [h, eq_comm]
  · simp [h]

theorem mapM_itemVector : items.mapM (itemVector model) = .ok vectors ↔
    (∀ item ∈ items, item.embedding.length = asUsize model.dimensions) ∧
      vectors = items.map (·.embedding) := by
  induction items generalizing vectors with
  | nil => simp [pure, Except.pure, eq_comm]
  | cons item items ih =>
    rw [List.mapM_cons]
    cases hitem : itemVector model item with
    | error e =>
      refine iff_of_false (fun h => by cases h) fun ⟨hdim, _⟩ => ?_
      rw [itemVector_eq_ok.2 ⟨hdim item List.mem_cons_self, rfl⟩] at hitem
      cases hitem
    | ok vector =>
      obtain ⟨hdim, rfl⟩ := itemVector_eq_ok.1 hitem
      cases hrest : items.mapM (itemVector model) with
      | error e =>
        refine iff_of_false (fun h => by cases h) fun ⟨hdims, _⟩ => ?_
        rw [ih.2 ⟨fun i hi => hdims i (List.mem_cons_of_mem item hi), rfl⟩] at hrest
        cases hrest
      | ok rest =>
        obtain ⟨hdims, rfl⟩ := ih.1 hrest
        have hall : ∀ i ∈ item :: items, i.embedding.length = asUsize model.dimensions :=
          List.forall_mem_cons.2 ⟨hdim, hdims⟩
        exact ⟨fun h => ⟨hall, (Except.ok.inj h).symm⟩, fun h => congrArg Except.ok h.2.symm⟩

/-- The order in which the vectors are returned. -/
def sortedItems (decoded : EmbeddingResponse) : List EmbeddingResponseItem :=
  decoded.data.insertionSort fun a b => a.index ≤ b.index

theorem perm_sortedItems : (sortedItems decoded).Perm decoded.data := List.perm_insertionSort _ _

/-- A response is accepted for its count and its dimensions. -/
theorem parseResponseVectors_eq_ok : parseResponseVectors decoded model n = .ok vectors ↔
    decoded.data.length = n ∧ DimensionsMatch decoded model ∧
      vectors = (sortedItems decoded).map (·.embedding) := by
  have hdims : (∀ item ∈ sortedItems decoded, item.embedding.length = asUsize model.dimensions) ↔
      DimensionsMatch decoded model :=
    forall_congr' fun item => by rw [perm_sortedItems.mem_iff]
  have hcount : (sortedItems decoded).length = decoded.data.length := perm_sortedItems.length_eq
  show (if (sortedItems decoded).length = n then (sortedItems decoded).mapM (itemVector model)
    else Except.error _) = _ ↔ _
  rw [hcount]
  split_ifs with hlen
  · rw [mapM_itemVector, hdims]
    exact (and_iff_right hlen).symm
  · exact iff_of_false (fun h => by cases h) fun h => hlen h.1

/-- Sorted indices of all inputs are the inputs' indices in order. -/
theorem getElem?_sortedItems (h : IndicesMatch decoded n) {item : EmbeddingResponseItem}
    (hitem : item ∈ decoded.data) : (sortedItems decoded)[item.index]? = some item := by
  have hsorted : (sortedItems decoded).map (·.index) = List.range n := by
    refine List.Perm.eq_of_pairwise' ?_ List.pairwise_le_range ((perm_sortedItems.map _).trans h)
    exact List.pairwise_map.2 (List.pairwise_insertionSort _ _)
  obtain ⟨k, hk⟩ := List.mem_iff_getElem?.1 (perm_sortedItems.mem_iff.2 hitem)
  have hindex : (List.range n)[k]? = some item.index := by
    rw [← hsorted, List.getElem?_map, hk]
    rfl
  obtain ⟨_, hget⟩ := List.getElem?_eq_some_iff.1 hindex
  rw [List.getElem_range] at hget
  rw [← hget]
  exact hk

/-- A response is accepted exactly if it has one vector of the right dimensions for each input, and
    then each vector is returned at its input. -/
def MatchesInputs (decoded : EmbeddingResponse) (model : EmbeddingModel) (n : ℕ) : Prop :=
  ((∃ vectors, parseResponseVectors decoded model n = .ok vectors) ↔
    IndicesMatch decoded n ∧ DimensionsMatch decoded model) ∧
  ∀ vectors, parseResponseVectors decoded model n = .ok vectors →
    vectors.length = n ∧ ∀ item ∈ decoded.data, vectors[item.index]? = some item.embedding

/-- **When responses are matched to their inputs**: exactly if the indices are those of the inputs, or the
    response is refused anyway. -/
theorem matches_inputs_iff (decoded : EmbeddingResponse) (model : EmbeddingModel) (n : ℕ) :
    MatchesInputs decoded model n ↔
      IndicesMatch decoded n ∨ decoded.data.length ≠ n ∨ ¬DimensionsMatch decoded model := by
  constructor
  · rintro ⟨haccept, -⟩
    by_contra hcon
    rw [not_or, not_or, not_not, not_not] at hcon
    obtain ⟨hindices, hlen, hdims⟩ := hcon
    exact hindices (haccept.1 ⟨_, parseResponseVectors_eq_ok.2 ⟨hlen, hdims, rfl⟩⟩).1
  · intro h
    have hlen : IndicesMatch decoded n → decoded.data.length = n := fun hindices => by
      rw [← List.length_map (·.index), hindices.length_eq, List.length_range]
    have hindices : ∀ vectors, parseResponseVectors decoded model n = .ok vectors → IndicesMatch decoded n := by
      intro vectors hok
      obtain ⟨hcount, hdims, -⟩ := parseResponseVectors_eq_ok.1 hok
      exact h.resolve_right fun h => h.elim (fun h => h hcount) fun h => h hdims
    refine ⟨⟨?_, ?_⟩, fun vectors hok => ?_⟩
    · rintro ⟨vectors, hok⟩
      exact ⟨hindices vectors hok, (parseResponseVectors_eq_ok.1 hok).2.1⟩
    · rintro ⟨hmatch, hdims⟩
      exact ⟨_, parseResponseVectors_eq_ok.2 ⟨hlen hmatch, hdims, rfl⟩⟩
    · have hmatch := hindices vectors hok
      obtain ⟨hcount, -, rfl⟩ := parseResponseVectors_eq_ok.1 hok
      refine ⟨by rw [List.length_map, perm_sortedItems.length_eq, hcount], fun item hitem => ?_⟩
      rw [List.getElem?_map, getElem?_sortedItems hmatch hitem]
      rfl

/-- Two items for the first of two inputs are accepted, and the second one goes to the other input. -/
theorem repeated_index_accepted :
    parseResponseVectors ⟨[⟨0, [1]⟩, ⟨0, [2]⟩]⟩ ⟨1, "m", 1, 4, 0, 0⟩ 2 = .ok [[1], [2]] ∧
      ¬MatchesInputs ⟨[⟨0, [1]⟩, ⟨0, [2]⟩]⟩ ⟨1, "m", 1, 4, 0, 0⟩ 2 := by
  have haccept : parseResponseVectors ⟨[⟨0, [1]⟩, ⟨0, [2]⟩]⟩ ⟨1, "m", 1, 4, 0, 0⟩ 2 = .ok [[1], [2]] :=
    parseResponseVectors_eq_ok.2 (by decide)
  exact ⟨haccept, fun h => absurd (h.1.1 ⟨_, haccept⟩).1 (by decide)⟩

end responses

/-! ## Batches -/

theorem chunks_nil {α : Type} (size : ℕ) : chunks size ([] : List α) = [] := by
  rw [chunks, if_pos (.inl rfl)]

theorem chunks_of_ne_nil {α : Type} {size : ℕ} {l : List α} (hl : l ≠ []) (hsize : 1 ≤ size) :
    chunks size l = l.take size :: chunks size (l.drop size) := by
  rw [chunks, if_neg]
  exact fun h => h.elim hl (by omega)

/-- One call of the closure and what it returned. -/
structure BatchCall where
  batch : List Bytes
  batchIndex : ℕ
  start : ℕ
  end_ : ℕ
  result : Except EmbeddingError (List Vector32)

/-- Why a call ends the batches: the retry delay of its failure, or none for a wrong count. -/
def BatchCall.failure (call : BatchCall) : Option (Option ℕ) :=
  match call.result with
  | .error err => some err.retryAfterSecs
  | .ok vectors => if vectors.length = call.batch.length then none else some none

/-- The vectors that a call returned. -/
def BatchCall.vectors (call : BatchCall) : List Vector32 :=
  match call.result with
  | .error _ => []
  | .ok vectors => vectors

variable {σ : Type} {embedBatch : EmbedBatch σ} {batchSize batchIndex start : ℕ} {inputs rest : List Bytes}
  {s : σ} {calls : List BatchCall} {call : BatchCall} {before : List Vector32}
  {result : Except EmbeddingError (List Vector32)}

/-- The closure with a record of its calls. -/
def recorded (embedBatch : EmbedBatch σ) : EmbedBatch (σ × List BatchCall) :=
  fun batch batchIndex start end_ s =>
    let answer := embedBatch batch batchIndex start end_ s.1
    (answer.1, answer.2, s.2 ++ [⟨batch, batchIndex, start, end_, answer.1⟩])

/-- The call is on the slice of the inputs that it names: from `start`, and as long as the limit and the
    inputs allow. -/
structure OnSlice (inputs : List Bytes) (batchSize start batchIndex : ℕ) (call : BatchCall) : Prop where
  start_eq : call.start = start
  start_lt : call.start < call.end_
  end_eq : call.end_ = min (start + batchSize) inputs.length
  index_eq : call.batchIndex = batchIndex
  batch_eq : call.batch = (inputs.drop call.start).take (call.end_ - call.start)

/-- Calls on consecutive slices of the inputs. -/
inductive Consecutive (inputs : List Bytes) (batchSize : ℕ) : ℕ → ℕ → List BatchCall → Prop
  | nil {start batchIndex : ℕ} : Consecutive inputs batchSize start batchIndex []
  | cons {start batchIndex : ℕ} {call : BatchCall} {calls : List BatchCall} :
      OnSlice inputs batchSize start batchIndex call →
      Consecutive inputs batchSize call.end_ (batchIndex + 1) calls →
      Consecutive inputs batchSize start batchIndex (call :: calls)

/-- How calls on the rest of the inputs end, after the vectors `before`: all inputs have been called for
    and the vectors are joined, or the last call failed, and only that one. -/
inductive Outcome (rest : List Bytes) (before : List Vector32) :
    List BatchCall → Except EmbeddingError (List Vector32) → Prop
  | done {calls : List BatchCall} : (∀ call ∈ calls, call.failure = none) →
      calls.flatMap (·.batch) = rest →
      Outcome rest before calls (.ok (before ++ calls.flatMap (·.vectors)))
  | stopped {calls : List BatchCall} {last : BatchCall} {err : EmbeddingError} :
      (∀ call ∈ calls, call.failure = none) → last.failure = some err.retryAfterSecs →
      Outcome rest before (calls ++ [last]) (.error err)

theorem EmbeddingError.retryAfterSecs_context (context : String) (err : EmbeddingError) :
    (err.context context).retryAfterSecs = err.retryAfterSecs := by
  cases err <;> rfl

/-- A call that did as asked goes before the others. -/
theorem Outcome.cons (hcall : call.failure = none)
    (h : Outcome rest (before ++ call.vectors) calls result) :
    Outcome (call.batch ++ rest) before (call :: calls) result := by
  cases h with
  | done hgood hrest =>
    have hdone : Outcome (call.batch ++ rest) before (call :: calls) _ :=
      .done (List.forall_mem_cons.2 ⟨hcall, hgood⟩) (by rw [List.flatMap_cons, hrest])
    rwa [List.flatMap_cons, ← List.append_assoc] at hdone
  | @stopped calls last _ hgood hlast =>
    have hstopped : Outcome (call.batch ++ rest) before ((call :: calls) ++ [last]) _ :=
      .stopped (List.forall_mem_cons.2 ⟨hcall, hgood⟩) hlast
    exact hstopped

/-- The call is one of the closure's. -/
def Made (embedBatch : EmbedBatch σ) (call : BatchCall) : Prop :=
  ∃ s, call.result = (embedBatch call.batch call.batchIndex call.start call.end_ s).1

/-- Recording does not change what the loop does. -/
theorem batchLoop_recorded (embedBatch : EmbedBatch σ) (batches : List (List Bytes))
    (log : List BatchCall) :
    (batchLoop (recorded embedBatch) batchSize batches batchIndex before (s, log)).1 =
        (batchLoop embedBatch batchSize batches batchIndex before s).1 ∧
      (batchLoop (recorded embedBatch) batchSize batches batchIndex before (s, log)).2.1 =
        (batchLoop embedBatch batchSize batches batchIndex before s).2 := by
  induction batches generalizing batchIndex before s log with
  | nil => exact ⟨rfl, rfl⟩
  | cons batch batches ih =>
    rcases hanswer : embedBatch batch batchIndex (batchIndex * batchSize)
      (batchIndex * batchSize + batch.length) s with ⟨err | vectors, s'⟩
    · simp only [batchLoop, recorded, hanswer, and_self]
    · simp only [batchLoop, recorded, hanswer]
      split_ifs
      · exact ih _
      · exact ⟨rfl, rfl⟩

/-- The call on the first batch of the rest. -/
def firstCall (rest : List Bytes) (batchSize start batchIndex : ℕ)
    (result : Except EmbeddingError (List Vector32)) : BatchCall :=
  ⟨rest.take batchSize, batchIndex, start, start + (rest.take batchSize).length, result⟩

theorem onSlice_firstCall (hsize : 1 ≤ batchSize) (hrest : rest = inputs.drop start) (hne : rest ≠ []) :
    OnSlice inputs batchSize start batchIndex (firstCall rest batchSize start batchIndex result) ∧
      rest.drop batchSize = inputs.drop (start + (rest.take batchSize).length) ∧
      (rest.drop batchSize ≠ [] → (rest.take batchSize).length = batchSize) := by
  have hpos := List.length_pos_iff.2 hne
  have hlen : rest.length = inputs.length - start := by rw [hrest, List.length_drop]
  have htake : (rest.take batchSize).length = min batchSize rest.length := List.length_take
  unfold firstCall
  refine ⟨⟨rfl, by dsimp only; omega, by dsimp only; omega, rfl, ?_⟩, ?_, fun hdrop => ?_⟩
  · dsimp only
    rw [Nat.add_sub_cancel_left, ← hrest, htake, List.take_eq_take_iff]
    omega
  · rw [htake, ← List.drop_drop, ← hrest]
    obtain hle | hle := le_total batchSize rest.length
    · rw [min_eq_left hle]
    · rw [min_eq_right hle, List.drop_of_length_le hle, List.drop_length]
  · have hdroplen := List.length_pos_iff.2 hdrop
    rw [List.length_drop] at hdroplen
    omega

/-- What the loop over the batches of the rest, which starts at `start`, records. -/
theorem calls_batchLoop (hsize : 1 ≤ batchSize) (embedBatch : EmbedBatch σ) (before : List Vector32)
    (s : σ) (log : List BatchCall) (hrest : rest = inputs.drop start)
    (hstart : rest ≠ [] → start = batchIndex * batchSize) :
    ∃ calls,
      (batchLoop (recorded embedBatch) batchSize (chunks batchSize rest) batchIndex before (s, log)).2.2 =
        log ++ calls ∧
      Consecutive inputs batchSize start batchIndex calls ∧
      Outcome rest before calls
        (batchLoop (recorded embedBatch) batchSize (chunks batchSize rest) batchIndex before (s, log)).1 ∧
      ∀ call ∈ calls, Made embedBatch call := by
  induction hlen : rest.length using Nat.strong_induction_on
    generalizing rest start batchIndex before s log with
  | _ length ih =>
    by_cases hne : rest = []
    · subst hne
      rw [chunks_nil]
      have hdone : Outcome [] before [] _ := .done (by simp) rfl
      rw [List.flatMap_nil, List.append_nil] at hdone
      exact ⟨[], (List.append_nil log).symm, .nil, hdone, by simp⟩
    · have hpos := List.length_pos_iff.2 hne
      obtain rfl := hstart hne
      rw [chunks_of_ne_nil hne hsize, batchLoop]
      rcases hanswer : embedBatch (rest.take batchSize) batchIndex (batchIndex * batchSize)
        (batchIndex * batchSize + (rest.take batchSize).length) s with ⟨result, s'⟩
      obtain ⟨hslice, hdrop, hfull⟩ : OnSlice inputs batchSize (batchIndex * batchSize) batchIndex
        (firstCall rest batchSize (batchIndex * batchSize) batchIndex result) ∧ _ :=
          onSlice_firstCall hsize hrest hne
      have hmade : Made embedBatch (firstCall rest batchSize (batchIndex * batchSize) batchIndex result) :=
        ⟨s, congrArg Prod.fst hanswer.symm⟩
      -- a call that fails is the last one
      have hstop : ∀ err : EmbeddingError,
          (firstCall rest batchSize (batchIndex * batchSize) batchIndex result).failure =
            some err.retryAfterSecs → Outcome rest before ([] ++ [_]) (.error err) :=
        fun err => .stopped (by simp)
      simp only [recorded, hanswer]
      cases result with
      | error err =>
        refine ⟨[_], rfl, .cons hslice .nil, hstop _ ?_, List.forall_mem_singleton.2 hmade⟩
        rw [EmbeddingError.retryAfterSecs_context]
        rfl
      | ok vectors =>
        dsimp only
        split_ifs with hcount
        · have hnext : rest.drop batchSize ≠ [] →
              batchIndex * batchSize + (rest.take batchSize).length = (batchIndex + 1) * batchSize := by
            intro hdropne
            rw [hfull hdropne, Nat.succ_mul]
          obtain ⟨calls, hlog, hcalls, hout, hall⟩ := ih (rest.drop batchSize).length
            (by rw [List.length_drop]; omega) (before ++ vectors) s' (log ++ [_]) hdrop hnext rfl
          have hgood : (firstCall rest batchSize (batchIndex * batchSize) batchIndex
            (.ok vectors)).failure = none := if_pos hcount
          have hcons := Outcome.cons hgood hout
          rw [show (firstCall rest batchSize (batchIndex * batchSize) batchIndex (.ok vectors)).batch =
            rest.take batchSize from rfl, List.take_append_drop] at hcons
          refine ⟨_ :: calls, ?_, .cons hslice hcalls, hcons, List.forall_mem_cons.2 ⟨hmade, hall⟩⟩
          rw [hlog, List.append_assoc, List.singleton_append]
          rfl
        · exact ⟨[_], rfl, .cons hslice .nil, hstop _ (if_neg hcount),
            List.forall_mem_singleton.2 hmade⟩

theorem BatchCall.failure_eq_none (h : call.failure = none) :
    call.result = .ok call.vectors ∧ call.vectors.length = call.batch.length := by
  unfold BatchCall.failure at h
  unfold BatchCall.vectors
  cases hresult : call.result with
  | error err => rw [hresult] at h; cases h
  | ok vectors =>
    rw [hresult] at h
    dsimp only at h ⊢
    split_ifs at h with hcount
    exact ⟨rfl, hcount⟩

/-- As many vectors as inputs. -/
theorem Outcome.length_eq {vectors : List Vector32} (h : Outcome inputs [] calls (.ok vectors)) :
    vectors.length = inputs.length := by
  generalize hresult : Except.ok vectors = result at h
  cases h with
  | done hgood hrest =>
    obtain rfl := Except.ok.inj hresult
    have hlengths : calls.map (fun call => call.vectors.length) = calls.map (fun call => call.batch.length) :=
      List.map_congr_left fun call hcall => (BatchCall.failure_eq_none (hgood call hcall)).2
    rw [List.nil_append, List.length_flatMap, hlengths, ← hrest, List.length_flatMap]
  | stopped => cases hresult

/-- Calls that map a function over their batches map it over the inputs. -/
theorem Outcome.eq_map {f : Bytes → Vector32}
    (hf : ∀ batch batchIndex start end_ s, (embedBatch batch batchIndex start end_ s).1 = .ok (batch.map f))
    (hmade : ∀ call ∈ calls, Made embedBatch call) (h : Outcome inputs [] calls result) :
    result = .ok (inputs.map f) := by
  have hcall : ∀ call ∈ calls, call.result = .ok (call.batch.map f) := fun call hcall => by
    obtain ⟨s, hresult⟩ := hmade call hcall
    rw [hresult, hf]
  cases h with
  | done hgood hrest =>
    have hvectors : calls.flatMap (·.vectors) = calls.flatMap fun call => call.batch.map f :=
      List.flatMap_congr fun call hmem => by rw [BatchCall.vectors, hcall call hmem]
    rw [List.nil_append, hvectors, ← List.map_flatMap, hrest]
  | @stopped calls last err hgood hlast =>
    rw [BatchCall.failure, hcall last (by simp)] at hlast
    simp at hlast

/-- **Batching is transparent**: the closure is called on consecutive slices of the inputs until one call
    fails, whose retry delay is that of the error, or all inputs are called for and the vectors are joined;
    a closure that maps a function over its batches maps it over all inputs. -/
theorem batching_transparent (embedBatch : EmbedBatch σ) (inputs : List Bytes) (batchSize : ℕ)
    (hsize : 1 ≤ batchSize) (s : σ) :
    ∃ calls,
      embedInputsInBatches (recorded embedBatch) batchSize inputs (s, []) =
        ((embedInputsInBatches embedBatch batchSize inputs s).1,
          (embedInputsInBatches embedBatch batchSize inputs s).2, calls) ∧
      Consecutive inputs batchSize 0 0 calls ∧
      (∀ call ∈ calls, Made embedBatch call) ∧
      Outcome inputs [] calls (embedInputsInBatches embedBatch batchSize inputs s).1 ∧
      (∀ vectors, (embedInputsInBatches embedBatch batchSize inputs s).1 = .ok vectors →
        vectors.length = inputs.length) ∧
      ∀ f, (∀ batch batchIndex start end_ s,
          (embedBatch batch batchIndex start end_ s).1 = .ok (batch.map f)) →
        (embedInputsInBatches embedBatch batchSize inputs s).1 = .ok (inputs.map f) := by
  have hloop : ∀ {τ : Type} (closure : EmbedBatch τ) (s : τ), embedInputsInBatches closure batchSize inputs s =
      batchLoop closure batchSize (chunks batchSize inputs) 0 [] s := by
    intro τ closure s
    unfold embedInputsInBatches
    split_ifs with hnil
    · rw [List.isEmpty_iff.1 hnil, chunks_nil]
      rfl
    · rfl
  obtain ⟨calls, hlog, hcalls, hout, hmade⟩ := calls_batchLoop hsize embedBatch [] s []
    (show inputs = inputs.drop 0 from List.drop_zero.symm) fun _ => (Nat.zero_mul batchSize).symm
  obtain ⟨hresult, hstate⟩ := batchLoop_recorded embedBatch (chunks batchSize inputs) []
  rw [hloop, hloop]
  rw [hresult] at hout
  exact ⟨calls, Prod.ext hresult (Prod.ext hstate hlog), hcalls, hmade, hout,
    fun vectors hok => (hok ▸ hout).length_eq, fun f hf => hout.eq_map hf hmade⟩

/-- Three inputs in batches of two, each mapped to its length. -/
theorem batching_transparent_three :
    (embedInputsInBatches (fun batch _ _ _ s => (.ok (batch.map fun input => [input.length.toUInt32]), s)) 2
      [[1], [2, 2], [3, 3, 3]] ()).1 = .ok [[1], [2], [3]] := by
  obtain ⟨-, -, -, -, -, -, hmap⟩ := batching_transparent
    (fun batch _ _ _ s => (.ok (batch.map fun input => [input.length.toUInt32]), s)) [[1], [2, 2], [3, 3, 3]] 2
    (by decide) ()
  exact hmap (fun input => [input.length.toUInt32]) fun _ _ _ _ _ => rfl

end Ask
