/-
  The HTTP client of the embedding provider: `HttpEmbeddingClient` of
  `embeddings.rs`.

  The network and the decoder of a body are parameters; `logged` is a network
  that keeps what was sent and answered.
-/
import Ask.Config
import Ask.Embeddings

namespace Ask

/-! ## Requests and answers -/

/-- Default retry delay for transient embedding provider failures. -/
def transientRetryDelaySecs : ℕ := 300

/-- A status with the text that shows it. -/
structure StatusCode where
  code : ℕ
  text : String
  deriving DecidableEq, Repr

/-- 2xx -/
def StatusCode.isSuccess (status : StatusCode) : Bool := 200 ≤ status.code && status.code < 300

/-- 5xx -/
def StatusCode.isServerError (status : StatusCode) : Bool := 500 ≤ status.code && status.code < 600

/-- The body of a request to the provider. -/
structure EmbeddingRequest where
  model : String
  input : List Bytes
  deriving DecidableEq, Repr

/-- `POST` with a JSON body. -/
structure HttpRequest where
  url : String
  body : EmbeddingRequest
  bearerAuth : Option String
  deriving DecidableEq, Repr

/-- A response with its body, if that can be read. -/
structure HttpResponse where
  status : StatusCode
  text : Except AnyError String

/-- `reqwest::Error`. -/
structure RequestError where
  isConnect : Bool
  isTimeout : Bool
  isRequest : Bool
  isBody : Bool
  text : String
  deriving DecidableEq, Repr

/-- What is outside of the client; `client` is the outcome of building one of `reqwest`'s. -/
structure Network (σ : Type) where
  client : Except AnyError Unit
  send : HttpRequest → σ → Except RequestError HttpResponse × σ
  decode : String → Except AnyError EmbeddingResponse

/-! ## The client -/

/-- A client; its batch size is positive. -/
structure HttpEmbeddingClient where
  provider : EmbeddingProvider
  maxBatchSize : ℕ
  pos : 0 < maxBatchSize

/-- Whether a failed request may work later. -/
def RequestError.transient (err : RequestError) : Bool :=
  err.isConnect || err.isTimeout || err.isRequest || err.isBody

/-- The error of a request that got no answer. -/
def classifyRequestError (err : RequestError) (modelName providerMode : String) : EmbeddingError :=
  let source : AnyError := .msg ("embedding provider request failed for model " ++ modelName ++ " (" ++
    providerMode ++ "): " ++ err.text)
  if err.transient then .retryable transientRetryDelaySecs source else .permanent source

namespace HttpEmbeddingClient

/-- `HttpEmbeddingClient::new` -/
def new (provider : EmbeddingProvider) (maxBatchSize : ℕ) : Except AnyError HttpEmbeddingClient :=
  if h : 0 < maxBatchSize then .ok ⟨provider, maxBatchSize, h⟩
  else .error (.msg "max_batch_size must be greater than 0")

variable {σ : Type} (client : HttpEmbeddingClient) (net : Network σ) (model : EmbeddingModel)

/-- The request for a batch of inputs. -/
def request (inputs : List Bytes) : HttpRequest where
  url := trimEndMatches (fun c => c = '/') client.provider.baseUrl ++ "/embeddings"
  body := ⟨model.name, inputs⟩
  bearerAuth :=
    match client.provider with
    | .tei _ => none
    | .openAi _ authToken => some authToken

/-- The end of `embed_http_batch`: what the answer to a request of that many inputs gives. -/
def readAnswer (expectedVectors : ℕ) (answer : Except RequestError HttpResponse) :
    Except EmbeddingError (List Vector32) := do
  let response ← answer.mapError fun err => classifyRequestError err model.name client.provider.modeName
  let body ← response.text.mapError fun err =>
    .permanent (.context "failed to read embedding provider response body" err)
  if response.status.isSuccess = false then
    let source : AnyError := .msg ("embedding provider returned " ++ response.status.text ++ ": " ++
      trimText body)
    if response.status.isServerError then .error (.retryable transientRetryDelaySecs source)
    else .error (.permanent source)
  else
    let decoded ← (net.decode body).mapError fun err =>
      .permanent (.context "failed to decode embedding provider response" err)
    (parseResponseVectors decoded model expectedVectors).mapError .permanent

/-- One request, and what its answer comes to. -/
def embedHttpBatch (inputs : List Bytes) (s : σ) : Except EmbeddingError (List Vector32) × σ :=
  let answer := net.send (client.request model inputs) s
  (client.readAnswer net model inputs.length answer.1, answer.2)

/-- All inputs, in batches; nothing is asked for none. -/
def embed (inputs : List Bytes) (s : σ) : Except EmbeddingError (List Vector32) × σ :=
  if inputs.isEmpty then (.ok [], s)
  else match net.client with
    | .error err => (.error (.permanent (.context "failed to build embedding HTTP client" err)), s)
    | .ok () => embedInputsInBatches (fun batch _ _ _ s => client.embedHttpBatch net model batch s)
        client.maxBatchSize inputs s

end HttpEmbeddingClient

/-! ## Exchanges -/

/-- A request and what came back. -/
structure Exchange where
  request : HttpRequest
  answer : Except RequestError HttpResponse

/-- The network with a log of its exchanges. -/
def Network.logged {σ : Type} (net : Network σ) : Network (σ × List Exchange) where
  client := net.client
  send request s :=
    let answer := net.send request s.1
    (answer.1, answer.2, s.2 ++ [⟨request, answer.1⟩])
  decode := net.decode

/-- The answer gives the vectors: a success whose body decodes to as many as there are inputs, of the
    model's dimensions. -/
def Exchange.Gives (decode : String → Except AnyError EmbeddingResponse) (model : EmbeddingModel)
    (x : Exchange) (vectors : List Vector32) : Prop :=
  ∃ response body decoded, x.answer = .ok response ∧ response.status.isSuccess = true ∧
    response.text = .ok body ∧ decode body = .ok decoded ∧
    parseResponseVectors decoded model x.request.body.input.length = .ok vectors

/-- A failure that may pass: the request did not get through, or the server says that it is at fault. -/
def Exchange.transient (x : Exchange) : Bool :=
  match x.answer with
  | .error err => err.transient
  | .ok response => response.text.isOk && response.status.isServerError

end Ask
