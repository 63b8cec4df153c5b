/-
  What the HTTP client sends, and what comes of the answers.
-/
import Ask.EmbeddingsLaw
import Ask.Provider

namespace Ask

open Lib

variable {σ : Type} {client : HttpEmbeddingClient} {net : Network σ} {model : EmbeddingModel}
  {inputs batch : List Bytes} {batches : List (List Bytes)} {x : Exchange} {xs : List Exchange}
  {vectors : List Vector32} {result : Except EmbeddingError (List Vector32)} {err : EmbeddingError}
  {f : Bytes → Vector32}

/-! ## One answer -/

/-- The retry delay after an exchange that failed. -/
def Exchange.retryAfterSecs (x : Exchange) : Option ℕ :=
  if x.transient then some transientRetryDelaySecs else none

theorem retryAfterSecs_classifyRequestError (e : RequestError) (modelName providerMode : String) :
    (classifyRequestError e modelName providerMode).retryAfterSecs =
      if e.transient then some transientRetryDelaySecs else none := by
  unfold classifyRequestError
  dsimp only
  split_ifs <;> rfl

/-- The vectors of an answer. -/
theorem readAnswer_eq_ok (hrequest : x.request = client.request model inputs) :
    client.readAnswer net model inputs.length x.answer = .ok vectors ↔ x.Gives net.decode model vectors := by
  have hlen : x.request.body.input.length = inputs.length := by rw [hrequest]; rfl
  unfold HttpEmbeddingClient.readAnswer Exchange.Gives
  simp only [bind_eq_ok, mapError_eq_ok, hlen]
  refine exists_congr fun response => ?_
  constructor
  · rintro ⟨hanswer, body, htext, h⟩
    split_ifs at h with hstatus
    obtain ⟨decoded, hdecode, hparse⟩ := bind_eq_ok.1 h
    exact ⟨body, decoded, hanswer, by simpa using hstatus, htext, mapError_eq_ok.1 hdecode,
      mapError_eq_ok.1 hparse⟩
  · rintro ⟨body, decoded, hanswer, hstatus, htext, hdecode, hparse⟩
    refine ⟨hanswer, body, htext, ?_⟩
    rw [if_neg (by simp [hstatus])]
    exact bind_eq_ok.2 ⟨decoded, mapError_eq_ok.2 hdecode, mapError_eq_ok.2 hparse⟩

/-- An error has the delay of its exchange. -/
theorem retryAfterSecs_readAnswer {n : ℕ} (h : client.readAnswer net model n x.answer = .error err) :
    err.retryAfterSecs = x.retryAfterSecs := by
  unfold HttpEmbeddingClient.readAnswer at h
  unfold Exchange.retryAfterSecs Exchange.transient
  rw [bind_eq_error] at h
  simp only [bind_eq_error, mapError_eq_error, mapError_eq_ok] at h
  obtain ⟨e, hanswer, rfl⟩ | ⟨response, hanswer, ⟨e, htext, rfl⟩ | ⟨body, htext, h⟩⟩ := h
  · rw [hanswer]
    exact retryAfterSecs_classifyRequestError e _ _
  · simp [hanswer, htext, Except.isOk, Except.toBool, EmbeddingError.retryAfterSecs]
  · simp only [hanswer, htext, Except.isOk, Except.toBool, Bool.true_and]
    split_ifs at h with hstatus hserver
    · cases h
      rw [if_pos hserver]
      rfl
    · cases h
      rw [if_neg hserver]
      rfl
    · -- a success is no fault of the server
      have hserver : ¬response.status.isServerError = true := by
        unfold StatusCode.isSuccess at hstatus
        unfold StatusCode.isServerError
        simp at hstatus ⊢
        omega
      rw [if_neg hserver]
      obtain h | ⟨decoded, -, h⟩ := bind_eq_error.1 h
      · obtain ⟨e, -, rfl⟩ := mapError_eq_error.1 h
        rfl
      · obtain ⟨e, -, rfl⟩ := mapError_eq_error.1 h
        rfl

theorem Exchange.Gives.length (h : x.Gives net.decode model vectors) :
    vectors.length = x.request.body.input.length ∧ ∀ v ∈ vectors, v.length = asUsize model.dimensions := by
  obtain ⟨response, body, decoded, -, -, -, -, hparse⟩ := h
  obtain ⟨hcount, hdims, rfl⟩ := parseResponseVectors_eq_ok.1 hparse
  constructor
  · rw [List.length_map, perm_sortedItems.length_eq, hcount]
  · intro v hv
    obtain ⟨item, hitem, rfl⟩ := List.mem_map.1 hv
    exact hdims item (perm_sortedItems.mem_iff.1 hitem)

theorem exists_gives {each : List (List Vector32)}
    (h : List.Forall₂ (fun x vs => Exchange.Gives net.decode model x vs) xs each) :
    ∀ x ∈ xs, ∃ vs, x.Gives net.decode model vs := by
  induction h with
  | nil => simp
  | cons hgives _ ih => exact List.forall_mem_cons.2 ⟨⟨_, hgives⟩, ih⟩

theorem length_of_gives {each : List (List Vector32)}
    (h : List.Forall₂ (fun x vs => Exchange.Gives net.decode model x vs) xs each) :
    ∀ v ∈ each.flatten, v.length = asUsize model.dimensions := by
  induction h with
  | nil => simp
  | cons hgives _ ih =>
    rw [List.flatten_cons, List.forall_mem_append]
    exact ⟨hgives.length.2, ih⟩

theorem length_flatten_of_gives {each : List (List Vector32)}
    (h : List.Forall₂ (fun x vs => Exchange.Gives net.decode model x vs) xs each) :
    each.flatten.length = (xs.map (·.request.body.input)).flatten.length := by
  induction h with
  | nil => rfl
  | cons hgives _ ih =>
    rw [List.map_cons, List.flatten_cons, List.flatten_cons, List.length_append, List.length_append, ih,
      hgives.length.1]

/-! ## All batches -/

theorem flatten_chunks {α : Type} {size : ℕ} (hsize : 0 < size) (l : List α) : (chunks size l).flatten = l := by
  induction hlen : l.length using Nat.strong_induction_on generalizing l with
  | _ n ih =>
    obtain rfl | hne := eq_or_ne l []
    · rw [chunks_nil]
      rfl
    · have hpos := List.length_pos_iff.2 hne
      have hdrop : (l.drop size).length < n := by
        rw [List.length_drop]
        omega
      rw [chunks_of_ne_nil hne hsize, List.flatten_cons, ih _ hdrop _ rfl, List.take_append_drop]

/-- What is exchanged for the batches, and what comes of it: each answer gives the vectors of its batch, up
    to the last batch or to one that fails. -/
inductive Conversation (client : HttpEmbeddingClient) (net : Network σ) (model : EmbeddingModel) :
    List (List Bytes) → List Exchange → Except EmbeddingError (List Vector32) → Prop
  | done : Conversation client net model [] [] (.ok [])
  | answered {batch : List Bytes} {batches : List (List Bytes)} {x : Exchange} {xs : List Exchange}
      {vectors : List Vector32} {result : Except EmbeddingError (List Vector32)} :
      x.request = client.request model batch → x.Gives net.decode model vectors →
      Conversation client net model batches xs result →
      Conversation client net model (batch :: batches) (x :: xs) (result.map (vectors ++ ·))
  | failed {batch : List Bytes} {batches : List (List Bytes)} {x : Exchange} {err : EmbeddingError} :
      x.request = client.request model batch → (∀ vectors, ¬x.Gives net.decode model vectors) →
      err.retryAfterSecs = x.retryAfterSecs →
      Conversation client net model (batch :: batches) [x] (.error err)

/-- One batch of the client. -/
abbrev HttpEmbeddingClient.embedBatch (client : HttpEmbeddingClient) {τ : Type} (net : Network τ)
    (model : EmbeddingModel) : EmbedBatch τ := fun batch _ _ _ s => client.embedHttpBatch net model batch s

theorem conversation_batchLoop (client : HttpEmbeddingClient) (net : Network σ) (model : EmbeddingModel)
    (batches : List (List Bytes)) (size batchIndex : ℕ) (before : List Vector32) (s : σ) (log : List Exchange) :
    ∃ xs result, Conversation client net model batches xs result ∧
      (batchLoop (client.embedBatch net model) size batches batchIndex before s).1 = result.map (before ++ ·) ∧
      batchLoop (client.embedBatch net.logged model) size batches batchIndex before (s, log) =
        ((batchLoop (client.embedBatch net model) size batches batchIndex before s).1,
          (batchLoop (client.embedBatch net model) size batches batchIndex before s).2, log ++ xs) := by
  induction batches generalizing batchIndex before s log with
  | nil => exact ⟨[], _, .done, by simp [batchLoop, Except.map], by simp [batchLoop]⟩
  | cons batch batches ih =>
    obtain ⟨answer, s', hsend⟩ : ∃ answer s', net.send (client.request model batch) s = (answer, s') :=
      ⟨_, _, rfl⟩
    have hbatch : client.embedBatch net model batch batchIndex (batchIndex * size)
        (batchIndex * size + batch.length) s =
          (client.readAnswer net model batch.length answer, s') := by
      simp [HttpEmbeddingClient.embedHttpBatch, hsend]
    have hlogged : client.embedBatch net.logged model batch batchIndex (batchIndex * size)
        (batchIndex * size + batch.length) (s, log) = (client.readAnswer net model batch.length answer,
          s', log ++ [⟨client.request model batch, answer⟩]) := by
      simp [HttpEmbeddingClient.embedHttpBatch, Network.logged, hsend, HttpEmbeddingClient.readAnswer]
    simp only [batchLoop, hbatch, hlogged]
    cases hread : client.readAnswer net model batch.length answer with
    | error err =>
      refine ⟨[⟨client.request model batch, answer⟩], .error _, .failed rfl ?_ ?_, rfl, rfl⟩
      · intro vectors hgives
        have hok := (readAnswer_eq_ok (x := ⟨client.request model batch, answer⟩) rfl).2 hgives
        cases hread.symm.trans hok
      · rw [EmbeddingError.retryAfterSecs_context]
        exact retryAfterSecs_readAnswer (x := ⟨client.request model batch, answer⟩) hread
    | ok vectors =>
      have hgives : (⟨client.request model batch, answer⟩ : Exchange).Gives net.decode model vectors :=
        (readAnswer_eq_ok rfl).1 hread
      have hcount : vectors.length = batch.length := hgives.length.1
      obtain ⟨xs, result, hconv, hresult, hlog⟩ := ih (batchIndex + 1) (before ++ vectors) s'
        (log ++ [⟨client.request model batch, answer⟩])
      dsimp only
      rw [if_pos hcount, if_pos hcount, hlog, hresult]
      refine ⟨_, _, .answered rfl hgives hconv, ?_, by simp⟩
      cases result <;> simp [Except.map]

namespace Conversation

theorem requests (h : Conversation client net model batches xs result) :
    xs.map (·.request.body.input) <+: batches ∧
      ∀ x ∈ xs, x.request = client.request model x.request.body.input := by
  induction h with
  | done => simp
  | answered hrequest _ _ ih =>
    refine ⟨?_, List.forall_mem_cons.2 ⟨?_, ih.2⟩⟩
    · rw [List.map_cons, hrequest]
      exact List.prefix_cons_inj _ |>.2 ih.1
    · rw [hrequest]
      rfl
  | failed hrequest =>
    rw [List.map_singleton, List.forall_mem_singleton, hrequest]
    exact ⟨by simp [HttpEmbeddingClient.request], rfl⟩

theorem ok (h : Conversation client net model batches xs (.ok vectors)) :
    xs.map (·.request.body.input) = batches ∧
      ∃ each, List.Forall₂ (fun x vs => x.Gives net.decode model vs) xs each ∧ vectors = each.flatten := by
  generalize hresult : Except.ok vectors = result at h
  induction h generalizing vectors with
  | done =>
    cases hresult
    exact ⟨rfl, [], .nil, rfl⟩
  | @answered batch batches x xs vs result hrequest hgives _ ih =>
    cases result with
    | error e => cases hresult
    | ok rest =>
      cases hresult
      obtain ⟨hinputs, each, hall, rfl⟩ := ih rfl
      refine ⟨?_, vs :: each, .cons hgives hall, rfl⟩
      rw [List.map_cons, hinputs, hrequest]
      rfl
  | failed => cases hresult

theorem error (h : Conversation client net model batches xs (.error err)) :
    ∃ before last, xs = before ++ [last] ∧ (∀ x ∈ before, ∃ vs, x.Gives net.decode model vs) ∧
      (∀ vs, ¬last.Gives net.decode model vs) ∧ err.retryAfterSecs = last.retryAfterSecs := by
  generalize hresult : Except.error err = result at h
  induction h with
  | done => cases hresult
  | @answered batch batches x xs vs result hrequest hgives _ ih =>
    cases result with
    | ok rest => cases hresult
    | error e =>
      cases hresult
      obtain ⟨before, last, rfl, hbefore, hlast⟩ := ih rfl
      exact ⟨x :: before, last, rfl, List.forall_mem_cons.2 ⟨⟨vs, hgives⟩, hbefore⟩, hlast⟩
  | @failed _ _ x _ _ hnot hretry =>
    cases hresult
    exact ⟨[], x, rfl, List.forall_mem_nil _, hnot, hretry⟩

end Conversation

/-! ## A provider that serves a function -/

/-- Each request is answered, in any order, with the vector of each input at its index. -/
structure Serves (net : Network σ) (client : HttpEmbeddingClient) (model : EmbeddingModel)
    (f : Bytes → Vector32) : Prop where
  built : net.client = .ok ()
  dimensions : ∀ input, (f input).length = asUsize model.dimensions
  answers : ∀ inputs s, ∃ response body decoded, (net.send (client.request model inputs) s).1 = .ok response ∧
    response.status.isSuccess = true ∧ response.text = .ok body ∧ net.decode body = .ok decoded ∧
    decoded.data.Perm (inputs.mapIdx fun index input => ⟨index, f input⟩)

theorem parseResponseVectors_of_perm {decoded : EmbeddingResponse}
    (hdims : ∀ input, (f input).length = asUsize model.dimensions)
    (h : decoded.data.Perm (inputs.mapIdx fun index input => ⟨index, f input⟩)) :
    parseResponseVectors decoded model inputs.length = .ok (inputs.map f) := by
  have hmem : ∀ item ∈ decoded.data, ∃ k : Fin inputs.length, item = ⟨k, f inputs[k]⟩ := by
    intro item hitem
    obtain ⟨k, hk, rfl⟩ := List.mem_mapIdx.1 (h.mem_iff.1 hitem)
    exact ⟨⟨k, hk⟩, rfl⟩
  refine parseResponseVectors_eq_ok.2 ⟨by rw [h.length_eq, List.length_mapIdx], ?_, ?_⟩
  · intro item hitem
    obtain ⟨k, rfl⟩ := hmem item hitem
    exact hdims _
  · have hsorted : sortedItems decoded = inputs.mapIdx fun index input => ⟨index, f input⟩ := by
      refine List.Perm.eq_of_pairwise ?_ (List.pairwise_insertionSort _ _) ?_ (perm_sortedItems.trans h)
      · intro a b ha hb hab hba
        obtain ⟨k, rfl⟩ := hmem a (perm_sortedItems.mem_iff.1 ha)
        obtain ⟨k', rfl⟩ := hmem b (h.mem_iff.2 hb)
        obtain rfl := Fin.ext (le_antisymm hab hba)
        rfl
      · refine List.pairwise_iff_getElem.2 fun i j hi hj hij => ?_
        simpa using hij.le
    rw [hsorted]
    refine List.ext_getElem (by simp) fun i hi hi' => ?_
    simp

theorem embedHttpBatch_of_serves (h : Serves net client model f) (inputs : List Bytes) (s : σ) :
    (client.embedHttpBatch net model inputs s).1 = .ok (inputs.map f) := by
  obtain ⟨response, body, decoded, hsend, hstatus, htext, hdecode, hperm⟩ := h.answers inputs s
  refine (readAnswer_eq_ok (x := ⟨client.request model inputs, _⟩) rfl).2 ?_
  exact ⟨response, body, decoded, hsend, hstatus, htext, hdecode,
    parseResponseVectors_of_perm h.dimensions hperm⟩

/-! ## The whole request -/

/-- What the client exchanges: nothing where it cannot be built, and the batches' conversation otherwise. -/
theorem embed_logged (client : HttpEmbeddingClient) (net : Network σ) (model : EmbeddingModel)
    (inputs : List Bytes) (s : σ) (log : List Exchange) :
    ∃ xs, client.embed net.logged model inputs (s, log) =
        ((client.embed net model inputs s).1, (client.embed net model inputs s).2, log ++ xs) ∧
      (Conversation client net model (chunks client.maxBatchSize inputs) xs
          (client.embed net model inputs s).1 ∨
        xs = [] ∧ (∃ e, net.client = .error e) ∧
          ∃ err, (client.embed net model inputs s).1 = .error err ∧ err.retryAfterSecs = none) := by
  have hbuilt : net.logged.client = net.client := rfl
  unfold HttpEmbeddingClient.embed embedInputsInBatches
  rw [hbuilt]
  split_ifs with hempty
  · rw [List.isEmpty_iff.1 hempty, chunks_nil]
    exact ⟨[], by rw [List.append_nil], .inl .done⟩
  · rcases hclient : net.client with e | -
    · exact ⟨[], by simp, .inr ⟨rfl, ⟨e, rfl⟩, _, rfl, rfl⟩⟩
    · obtain ⟨xs, result, hconv, hresult, hlog⟩ := conversation_batchLoop client net model
        (chunks client.maxBatchSize inputs) client.maxBatchSize 0 [] s log
      refine ⟨xs, hlog, .inl ?_⟩
      dsimp only
      rw [hresult]
      cases result <;> exact hconv

theorem embed_of_serves (h : Serves net client model f) (inputs : List Bytes) (s : σ) :
    (client.embed net model inputs s).1 = .ok (inputs.map f) := by
  obtain ⟨calls, -, -, hout, hmade⟩ := calls_batchLoop client.pos (client.embedBatch net model) [] s []
    (show inputs = inputs.drop 0 from List.drop_zero.symm) fun _ => (Nat.zero_mul _).symm
  rw [(batchLoop_recorded _ _ _).1] at hout
  have hall := hout.eq_map (fun batch _ _ _ s => embedHttpBatch_of_serves h batch s) hmade
  unfold HttpEmbeddingClient.embed embedInputsInBatches
  split_ifs with hempty
  · rw [List.isEmpty_iff.1 hempty]
    rfl
  · rw [h.built]
    exact hall

/-- **What the client exchanges, and what comes of it.**  It sends the inputs batch by batch, until an
    answer does not give the vectors of its batch.  If all do, their vectors are joined, one of the model's
    dimensions for each input; if not, the error's delay is that of the last exchange.  And a provider that
    serves a function makes the client map it over the inputs, whatever the limit is. -/
theorem http_embed (client : HttpEmbeddingClient) (net : Network σ) (model : EmbeddingModel)
    (inputs : List Bytes) (s : σ) :
    ∃ exchanges, client.embed net.logged model inputs (s, []) =
        ((client.embed net model inputs s).1, (client.embed net model inputs s).2, exchanges) ∧
      exchanges.map (·.request.body.input) <+: chunks client.maxBatchSize inputs ∧
      (∀ x ∈ exchanges, x.request = client.request model x.request.body.input) ∧
      (∀ vectors, (client.embed net model inputs s).1 = .ok vectors →
        exchanges.map (·.request.body.input) = chunks client.maxBatchSize inputs ∧
        (∃ each, List.Forall₂ (fun x vs => x.Gives net.decode model vs) exchanges each ∧
          vectors = each.flatten) ∧
        vectors.length = inputs.length ∧ ∀ v ∈ vectors, v.length = asUsize model.dimensions) ∧
      (∀ err, (client.embed net model inputs s).1 = .error err →
        (exchanges = [] ∧ (∃ e, net.client = .error e) ∧ err.retryAfterSecs = none) ∨
        ∃ before last, exchanges = before ++ [last] ∧
          (∀ x ∈ before, ∃ vs, x.Gives net.decode model vs) ∧ (∀ vs, ¬last.Gives net.decode model vs) ∧
          err.retryAfterSecs = if last.transient then some 300 else none) ∧
      ∀ f, Serves net client model f → (client.embed net model inputs s).1 = .ok (inputs.map f) := by
  obtain ⟨xs, hlog, hconv⟩ := embed_logged client net model inputs s []
  refine ⟨xs, hlog, ?_⟩
  rcases hconv with hconv | ⟨rfl, hbuilt, err, herr, hretry⟩
  · refine ⟨hconv.requests.1, hconv.requests.2, ?_, ?_, fun f hf => embed_of_serves hf inputs s⟩
    · intro vectors hok
      rw [hok] at hconv
      obtain ⟨hinputs, each, hall, rfl⟩ := hconv.ok
      refine ⟨hinputs, ⟨each, hall, rfl⟩, ?_, length_of_gives hall⟩
      rw [length_flatten_of_gives hall, hinputs, flatten_chunks client.pos]
    · intro err herr
      rw [herr] at hconv
      exact .inr hconv.error
  · rw [herr]
    refine ⟨by simp, by simp, by simp, ?_, ?_⟩
    · rintro _ ⟨⟩
      exact .inl ⟨rfl, hbuilt, hretry⟩
    · intro f hf
      obtain ⟨e, he⟩ := hbuilt
      rw [hf.built] at he
      cases he

/-- The sum of an input's bytes. -/
def byteSum (input : Bytes) : UInt8 := input.foldl (· + ·) 0

/-- A provider whose vectors are these sums, which it lists from the last input to the first. -/
def sumNetwork : Network Unit where
  client := .ok ()
  send request s :=
    (.ok ⟨⟨200, "200 OK"⟩, .ok (String.ofList (request.body.input.map fun input => .ofUInt8 (byteSum input)))⟩,
      s)
  decode body := .ok ⟨(body.toList.mapIdx fun index c => ⟨index, [c.val]⟩).reverse⟩

theorem serves_sumNetwork (client : HttpEmbeddingClient) :
    Serves sumNetwork client ⟨1, "m", 1, 4, 0, 0⟩ fun input => [(byteSum input).toUInt32] where
  built := rfl
  dimensions _ := rfl
  answers inputs s := by
    refine ⟨_, _, _, rfl, rfl, rfl, rfl, (List.reverse_perm _).trans (.of_eq ?_)⟩
    rw [String.toList_ofList]
    have hval : ∀ b : UInt8, (Char.ofUInt8 b).val = b.toUInt32 := fun _ => rfl
    refine List.ext_getElem ?_ fun i hi hi' => ?_
    · simp only [HttpEmbeddingClient.request, List.length_mapIdx, List.length_map]
    · simp only [HttpEmbeddingClient.request, List.getElem_mapIdx, List.getElem_map, hval]

/-- Three inputs in batches of two: each has its own vector. -/
theorem http_embed_sums :
    ((⟨.tei "http://localhost:18080/", 2, by decide⟩ : HttpEmbeddingClient).embed sumNetwork
      ⟨1, "m", 1, 4, 0, 0⟩ [[1], [2, 3], [9]] ()).1 = .ok [[1], [5], [9]] := by
  obtain ⟨-, -, -, -, -, -, hserves⟩ := http_embed ⟨.tei "http://localhost:18080/", 2, by decide⟩
    sumNetwork ⟨1, "m", 1, 4, 0, 0⟩ [[1], [2, 3], [9]] ()
  exact hserves _ (serves_sumNetwork _)

end Ask
