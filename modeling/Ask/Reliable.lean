/-
  A reliable outside: no access fails, the provider embeds each input by itself,
  and where a path has no readable file nothing is there.

  A dispatch of an embed job always ends well then, as long as the rows of its
  pair are of the plan of the file they were recorded for.
-/
import Ask.EmbedLaw
import Ask.Lib.Works
import Ask.OrderLaw
import Ask.RebuildLaw

namespace Ask

open Lib Act Task

variable {E : Env} {view : View} {vector : EmbeddingModel → Bytes → Vector32} {α : Type} {w w₁ : World}
  {s s' : Store} {path : String} {file : Bytes} {d : Document} {m : EmbeddingModel} {docId now : ℤ}
  {rows : List DocumentEmbedding} {ec : List EmbeddedChunk}

/-- The provider answers with the vectors of the inputs, and what is no file is not found. -/
def Obliging (view : View) (vector : EmbeddingModel → Bytes → Vector32) : (r : Req) → r.Ans → Prop
  | .embed model inputs, a => a = .ok (inputs.map (vector model))
  | .metadata path, a => view path = none → ∃ e, a = .error e ∧ e.notFound = true
  | _, _ => True

/-- The world answers, nothing fails, and the provider obliges. -/
def Reliable (view : View) (vector : EmbeddingModel → Bytes → Vector32) (w : World) (r : Req) (a : r.Ans)
    (w' : World) : Prop := Answers view False w r a w' ∧ Obliging view vector r a

theorem Obliging.embedsEach {r : Req} {a : r.Ans} (h : Obliging view vector r a) : EmbedsEach vector r a := by
  cases r with
  | embed model inputs =>
    rintro vectors rfl
    exact Except.ok.inj h
  | _ => trivial

/-! ## Requests are answered -/

theorem works_connect : Works (Reliable view vector) connect w := by
  refine works_bind (works_ask ⟨.ok (), w, ⟨rfl, .inl rfl⟩, trivial⟩) ?_
  intro a w₁ h
  obtain ⟨⟨-, rfl | ⟨hfalse, -⟩⟩, -⟩ := done_ask.1 h
  · exact works_ofExcept rfl
  · exact hfalse.elim

theorem works_db {op : DbReq} (h : Tx.Succeeds op.run w.store) : Works (Reliable view vector) (db op) w := by
  obtain ⟨v, store, hok⟩ := h
  refine works_bind (works_ask ⟨.ok v, _, .inl ⟨v, store, rfl, hok, rfl⟩, trivial⟩) ?_
  intro a w₁ h
  obtain ⟨⟨v', _, rfl, -⟩ | ⟨hfalse, -⟩, -⟩ := done_ask.1 h
  · exact works_ofExcept rfl
  · exact hfalse.elim

theorem works_unixNow : Works (Reliable view vector) unixNow w := works_ask ⟨0, w, rfl, trivial⟩

theorem works_context {p : Act α} {text : String} (hp : Works (Reliable view vector) p w) :
    Works (Reliable view vector) (context text p) w := works_mapError hp

theorem works_tryMetadata : Works (Reliable view vector) (tryMetadata path) w := by
  refine works_ask ?_
  cases hfile : view path with
  | some file =>
    refine ⟨.ok ⟨true, file.length, none⟩, w, ⟨rfl, .inl ⟨file, _, hfile, rfl, rfl, rfl⟩⟩, ?_⟩
    intro hnone
    rw [hfile] at hnone
    cases hnone
  | none =>
    exact ⟨.error ⟨true, "No such file or directory (os error 2)"⟩, w,
      ⟨rfl, .inr (.inl ⟨hfile, .inr ⟨_, rfl, rfl⟩⟩)⟩, fun _ => ⟨_, rfl, rfl⟩⟩

section
variable (hfile : view path = some file)

include hfile

theorem works_openFile : Works (Reliable view vector) (openFile path) w := by
  refine works_bind (works_ask ⟨.ok (), w, ⟨rfl, .inl ⟨file, hfile, rfl⟩⟩, trivial⟩) ?_
  intro a w₁ h
  obtain ⟨⟨-, ⟨_, -, rfl⟩ | ⟨hnone | hfalse, -⟩⟩, -⟩ := done_ask.1 h
  · exact works_ofExcept rfl
  · exact absurd (hfile.symm.trans hnone) (Option.some_ne_none file)
  · exact hfalse.elim

theorem works_readFile : Works (Reliable view vector) (readFile path) w := by
  refine works_bind (works_ask ⟨.ok file, w, ⟨rfl, .inl ⟨file, hfile, rfl⟩⟩, trivial⟩) ?_
  intro a w₁ h
  obtain ⟨⟨-, ⟨_, -, rfl⟩ | ⟨hnone | hfalse, -⟩⟩, -⟩ := done_ask.1 h
  · exact works_ofExcept rfl
  · exact absurd (hfile.symm.trans hnone) (Option.some_ne_none file)
  · exact hfalse.elim

theorem works_metadata : Works (Reliable view vector) (metadata path) w := by
  refine works_bind works_tryMetadata ?_
  intro a w₁ h
  obtain ⟨⟨-, ⟨_, _, -, rfl, -⟩ | ⟨hnone, -⟩ | ⟨hfalse, -⟩⟩, -⟩ := done_ask.1 h
  · exact works_ofExcept rfl
  · exact absurd (hfile.symm.trans hnone) (Option.some_ne_none file)
  · exact hfalse.elim

theorem works_hashFile : Works (Reliable view vector) (hashFile E path) w :=
  works_bind (works_context (works_openFile hfile)) fun _ _ _ =>
    works_bind (works_context (works_readFile hfile)) fun _ _ _ => works_pure

theorem works_readPrefixWithBudget (budget : ℕ) :
    Works (Reliable view vector) (readPrefixWithBudget path budget) w :=
  works_bind (works_context (works_metadata hfile)) fun _ _ _ =>
    works_bind (works_context (works_openFile hfile)) fun _ _ _ =>
      works_bind (works_context (works_readFile hfile)) fun _ _ _ => works_pure

end

/-! ## Preparing the rows of a plan -/

/-- Rows of the plan of a file are prepared from that file. -/
theorem exists_prepared (hrows : ∀ r ∈ rows, r.ref ∈ planRefs E file m) :
    ∃ prepared, prepareEmbeddedChunks path docId rows (fun budget =>
      (.ok (readContentPrefixWithBudget file budget) : Except AnyError _)) = .ok prepared := by
  have hends : ∀ r ∈ rows, r.chunkType = .content →
      r.chunkEnd ∈ (rows.filter fun row => row.chunkType = .content).map (·.chunkEnd) :=
    fun r hr hty => List.mem_map.2 ⟨r, List.mem_filter.2 ⟨hr, decide_eq_true hty⟩, rfl⟩
  have hfilename : ∀ (content : Option Lib.Utf8.Str) (r : DocumentEmbedding), r.chunkType = .filename →
      ∃ c, prepareChunk path docId content r = .ok c :=
    fun content r hty => ⟨⟨r.chunkType, r.chunkStart, r.chunkEnd, utf8Bytes path⟩, by simp [prepareChunk, hty]⟩
  unfold prepareEmbeddedChunks readContentFor
  cases hmax : maxContentEnd rows with
  | none =>
    refine exists_mapM_eq_ok.2 fun r hr => ?_
    cases hty : r.chunkType with
    | filename => exact hfilename none r hty
    | content =>
      have hmem := hends r hr hty
      rw [List.max?_eq_none_iff.1 hmax] at hmem
      cases hmem
  | some e =>
    obtain ⟨hmem, hle⟩ := List.max?_eq_some_iff.1 hmax
    obtain ⟨r₀, hr₀, rfl⟩ := List.mem_map.1 hmem
    obtain ⟨hr₀, hty₀⟩ := List.mem_filter.1 hr₀
    obtain ⟨hf, -⟩ | ⟨-, content, hc, a₀, e, -, he, hlt₀, -, heb⟩ := mem_planned (hrows r₀ hr₀)
    · exact absurd (hf.symm.trans (of_decide_eq_true hty₀)) (by simp)
    obtain ⟨cut, hcut, hbytes⟩ := readContentPrefixWithBudget_again hc (by omega) heb
    have hbudget : usizeTryFrom r₀.chunkEnd "content chunk_end must fit into usize" = .ok e := by
      simp [usizeTryFrom, he]
    simp only [hbudget]
    show ∃ prepared, List.mapM (prepareChunk path docId
      (readContentPrefixWithBudget file e).content) rows = .ok prepared
    rw [hcut]
    refine exists_mapM_eq_ok.2 fun r hr => ?_
    obtain ⟨hf, -⟩ | ⟨hty, content', hc', a, b, ha, hb, hab, hba, hbb⟩ := mem_planned (hrows r hr)
    · exact hfilename _ r hf
    · obtain rfl : content = content' := Option.some.inj (hc.symm.trans hc')
      have hbe : b ≤ e := by
        have := hle r.chunkEnd (hends r hr hty)
        omega
      exact ⟨_, prepareChunk_planned hty ha hb hab hba hbb heb hbe hbytes⟩

theorem done_readContentFor (E : Env) (hfile : view path = some file) {content : Option Lib.Utf8.Str}
    (h : Done (Reliable view vector) (readContentFor rows (readPrefixWithBudget path)) w content w₁) :
    readContentFor rows (fun budget =>
      (.ok (readContentPrefixWithBudget file budget) : Except AnyError _)) = .ok content := by
  unfold readContentFor at h ⊢
  cases hmax : maxContentEnd rows with
  | none =>
    rw [hmax] at h
    obtain ⟨rfl, -⟩ := done_pure.1 h
    rfl
  | some e =>
    rw [hmax] at h
    obtain ⟨n, w₂, hn, h1⟩ := done_bind.1 h
    obtain ⟨hbudget, rfl⟩ := done_ofExcept.1 hn
    obtain ⟨plan, w₃, hread, h2⟩ := done_bind.1 h1
    obtain ⟨rfl, -⟩ := done_pure.1 h2
    obtain ⟨-, file', hfile', rfl⟩ := done_file (E := E) And.left (calls_readPrefixWithBudget _ _)
      (fun _ => yields_readPrefixWithBudget _ _) hread
    obtain rfl := Option.some.inj (hfile.symm.trans hfile')
    simp only [hbudget]
    rfl

theorem works_prepareEmbeddedChunks (E : Env) {prepared : List PreparedChunk}
    (hfile : view path = some file)
    (h : prepareEmbeddedChunks path docId rows (fun budget =>
      (.ok (readContentPrefixWithBudget file budget) : Except AnyError _)) = .ok prepared) :
    Works (Reliable view vector) (prepareEmbeddedChunks path docId rows (readPrefixWithBudget path)) w := by
  obtain ⟨content, hcontent, hmapM⟩ := bind_eq_ok.1 h
  refine works_bind ?_ fun content' w₁ hdone => ?_
  · unfold readContentFor at hcontent ⊢
    cases hmax : maxContentEnd rows with
    | none => exact works_pure
    | some e =>
      rw [hmax] at hcontent
      obtain ⟨n, hn, -⟩ := bind_eq_ok.1 hcontent
      refine works_bind (works_ofExcept hn) ?_
      intro n w₁ _
      exact works_bind (works_readPrefixWithBudget hfile n) fun _ _ _ => works_pure
  · obtain rfl := Except.ok.inj (hcontent.symm.trans (done_readContentFor E hfile hdone))
    exact works_ofExcept hmapM

/-! ## Replacing the rows of a pair -/

theorem succeeds_insertEmbeddedRows {modelId : ℤ} {text : EmbeddedChunk → String} :
    ∀ {ec : List EmbeddedChunk} {s : Store}, s.hasPair docId modelId = true →
      (ec.map fun c => (c.chunkType, c.chunkStart)).Nodup →
      (∀ c ∈ ec, ∀ r ∈ s.embeddings.rows, r.uniqueKey ≠ ((docId, modelId), c.chunkType, c.chunkStart)) →
      Tx.Succeeds (Tx.each (fun c => Db.context (text c) (insertEmbeddedChunk docId modelId c now)) ec) s
  | [], s, _, _, _ => Tx.succeeds_pure
  | c :: ec, s, hpair, hnd, hfree => by
    rw [List.map_cons, List.nodup_cons] at hnd
    have hins : ∃ e, s.embeddings.insert (embeddedRow docId modelId now c) = some e := by
      cases hcase : s.embeddings.insert (embeddedRow docId modelId now c) with
      | some e => exact ⟨e, rfl⟩
      | none =>
        obtain ⟨r, hr, hkey⟩ := AutoTable.insert_eq_none.1 hcase
        exact absurd hkey (hfree c List.mem_cons_self r hr)
    obtain ⟨e, he⟩ := hins
    have hrun : (insertEmbeddedChunk docId modelId c now).Ok s () { s with embeddings := e } := by
      rw [insertEmbeddedChunk, Tx.ok_exec, if_pos hpair, he]
    refine Tx.succeeds_bind (Tx.succeeds_mapError ⟨(), _, hrun⟩) fun u s₁ hok => ?_
    obtain ⟨-, rfl⟩ := (Db.ok_context.1 hok).unique hrun
    refine succeeds_insertEmbeddedRows hpair hnd.2 ?_
    intro c' hc' r hr hkey
    rw [(AutoTable.insert_eq_some.1 he).2.1] at hr
    rcases List.mem_append.1 hr with hr | hr
    · exact hfree c' (List.mem_cons_of_mem c hc') r hr hkey
    · -- the row of `c` itself
      rw [List.mem_singleton.1 hr] at hkey
      exact hnd.1 (List.mem_map.2 ⟨c', hc', (congrArg Prod.snd hkey).symm⟩)

theorem succeeds_putVecRows {p : DocumentEmbedding → Bool}
    (h : ∀ v, s.vec = some v → ∀ x ∈ embeddedVectors s p, x.2.length = 4 * v.dimensions) :
    Tx.Succeeds (putVecRows p) s := by
  cases hv : s.vec with
  | none => exact ⟨(), s, by rw [putVecRows, Tx.ok_exec, hv]⟩
  | some v =>
    obtain ⟨v', hv'⟩ := putAll_isSome (h v hv)
    exact ⟨(), { s with vec := some v' }, by rw [putVecRows, Tx.ok_exec, hv]; simp only [hv']⟩

theorem dimensions_vecWithout {p : DocumentEmbedding → Bool} {v' : VecTable} (h : s.vecWithout p = some v') :
    ∃ v, s.vec = some v ∧ v'.dimensions = v.dimensions := by
  obtain ⟨v, hv, rfl⟩ := Option.map_eq_some_iff.1 h
  exact ⟨v, hv, rfl⟩

/-- Chunks of the right size with distinct keys replace the rows of a pair. -/
theorem succeeds_replaceEmbeddings (hm : m ∈ s.models.rows) (hdim : 0 ≤ m.dimensions)
    (hpair : s.hasPair docId m.id = true) (hlen : ∀ c ∈ ec, c.embedding.length = m.dimensions.toNat * 4)
    (hkeys : (ec.map fun c => (c.chunkType, c.chunkStart)).Nodup)
    (hvec : ∀ v, s.vec = some v → v.dimensions = m.dimensions.toNat) :
    Tx.Succeeds (replaceEmbeddingsForDocumentModel docId m.id ec now) s := by
  unfold replaceEmbeddingsForDocumentModel
  have hload : (loadExpectedEmbeddingBytes m.id).Ok s (m.dimensions.toNat * 4) s := by
    rw [loadExpectedEmbeddingBytes, Tx.ok_query, AutoTable.get?_eq_some.2 ⟨hm, rfl⟩]
    exact ⟨if_pos hdim, rfl⟩
  refine Tx.succeeds_bind ⟨_, _, hload⟩ fun expected s₁ hok => ?_
  obtain ⟨rfl, rfl⟩ := hload.unique hok
  have hvalid : (validateChunkEmbeddingLengths ec (m.dimensions.toNat * 4)).Ok s () s := by
    unfold validateChunkEmbeddingLengths
    rw [List.find?_eq_none.2 fun c hc => by simp [hlen c hc]]
    exact Tx.ok_pure.2 ⟨rfl, rfl⟩
  refine Tx.succeeds_bind ⟨_, _, hvalid⟩ fun u s₁ hok => ?_
  obtain ⟨-, rfl⟩ := hvalid.unique hok
  refine Tx.succeeds_transaction ?_
  refine Tx.succeeds_bind succeeds_exec_ok fun _ s₁ h1 => ?_
  obtain rfl := ok_exec_ok.1 h1
  refine Tx.succeeds_bind succeeds_exec_ok fun _ s₂ h2 => ?_
  obtain rfl := ok_exec_ok.1 h2
  refine Tx.succeeds_bind (succeeds_insertEmbeddedRows hpair hkeys ?_) fun _ s₃ h3 => ?_
  · intro c _ r hr hkey
    have hne := (AutoTable.mem_delete.1 hr).2
    have hp : r.pair = (docId, m.id) := congrArg Prod.fst hkey
    simp [hp] at hne
  obtain ⟨-, e, rfl, hins⟩ := ok_insertEmbeddedRows h3
  refine Tx.succeeds_mapError (succeeds_putVecRows ?_)
  intro v' hv' x hx
  obtain ⟨v, hv, hdim'⟩ := dimensions_vecWithout hv'
  obtain ⟨r, hr, -, hp, -, hbytes⟩ := mem_embeddedVectors.1 hx
  rw [hdim', hvec v hv, mul_comm]
  rcases hins.sound r hr with hr | ⟨-, c, hc, he⟩
  · have hne := (AutoTable.mem_delete.1 hr).2
    rw [hp] at hne
    cases hne
  · rw [he] at hbytes
    rw [← Option.some.inj hbytes]
    exact hlen c hc

/-! ## Embedding the rows of a pair -/

theorem length_serializeEmbedding : ∀ v : Vector32, (serializeEmbedding v).length = 4 * v.length
  | [] => rfl
  | x :: v => by
    have ih := length_serializeEmbedding v
    rw [serializeEmbedding] at ih ⊢
    rw [List.flatMap_cons, List.length_append, ih, List.length_cons, leBytes]
    simp only [List.length_cons, List.length_nil]
    omega

/-- What holds of the model and the index when the rows of a pair can be replaced. -/
structure Fits (vector : EmbeddingModel → Bytes → Vector32) (m : EmbeddingModel) (s : Store) : Prop where
  mem : m ∈ s.models.rows
  dimensions : 0 ≤ m.dimensions
  length : ∀ input, (vector m input).length = m.dimensions.toNat
  index : ∀ v, s.vec = some v → v.dimensions = m.dimensions.toNat

theorem keys_of_refs {prepared : List PreparedChunk} {vectors : List Vector32}
    (hlen : vectors.length = prepared.length) (hrefs : prepared.map (·.ref) = rows.map (·.ref))
    (hkeys : (rows.map fun r => (r.chunkType, r.chunkStart)).Nodup) :
    ((embeddedChunks prepared vectors).map fun c => (c.chunkType, c.chunkStart)).Nodup := by
  have hmap : ∀ {β : Type} (f : β → ChunkRef) (l : List β),
      l.map (fun b => ((f b).1, (f b).2.1)) = (l.map f).map fun c => (c.1, c.2.1) := by
    intro β f l
    rw [List.map_map]
    rfl
  have hchunks := (hmap EmbeddedChunk.ref (embeddedChunks prepared vectors)).trans
    (congrArg (List.map fun c : ChunkRef => (c.1, c.2.1)) ((refs_embeddedChunks hlen).trans hrefs))
  have hrows := hmap DocumentEmbedding.ref rows
  exact (congrArg List.Nodup (hchunks.trans hrows.symm)).mpr hkeys

theorem works_embedRows (E : Env) (hfits : Fits vector m w.store) (hpair : w.store.hasPair d.id m.id = true)
    (hfile : view d.filepath = some file) (hrows : ∀ r ∈ rows, r.ref ∈ planRefs E file m)
    (hkeys : (rows.map fun r => (r.chunkType, r.chunkStart)).Nodup) :
    Works (Reliable view vector) (embedRows d m rows) w := by
  obtain ⟨prepared, hprepared⟩ := @exists_prepared E d.filepath file m d.id _ hrows
  refine works_bind (works_context (works_prepareEmbeddedChunks E hfile hprepared)) ?_
  intro prepared' w₁ h1
  obtain ⟨hs₁, hprep⟩ := done_file (E := E) And.left (calls_prepareEmbeddedChunks _ _ _)
    (fun _ => yields_prepareEmbeddedChunks hfile d.id rows) (done_context.1 h1)
  obtain rfl := Except.ok.inj (hprepared.symm.trans (hprep prepared' rfl))
  refine works_bind (works_ask ⟨.ok _, _, .inl ⟨_, rfl, rfl⟩, rfl⟩) ?_
  intro answer w₂ h2
  obtain ⟨hanswers, rfl⟩ := done_ask.1 h2
  have hs₂ : w₂.store = w₁.store := by
    obtain ⟨_, -, rfl⟩ | ⟨rfl, -⟩ := hanswers
    · rfl
    · rfl
  refine works_bind (works_context (works_ofExcept rfl)) ?_
  intro vectors w₃ h3
  obtain ⟨hvectors, rfl⟩ := done_ofExcept.1 (done_context.1 h3)
  obtain rfl := Except.ok.inj hvectors
  have hlen : ((prepared.map (·.input)).map (vector m)).length = prepared.length := by simp
  rw [if_neg (not_not.2 hlen)]
  refine works_bind (works_context works_connect) ?_
  intro u w₄ h4
  obtain rfl := done_connect And.left (done_context.1 h4)
  refine works_bind works_unixNow ?_
  intro now w₅ h5
  obtain rfl := done_unixNow And.left h5
  refine works_context (works_db ?_)
  rw [hs₂, hs₁]
  refine succeeds_replaceEmbeddings hfits.mem hfits.dimensions hpair ?_
    (keys_of_refs hlen (refs_prepareEmbeddedChunks hprepared) hkeys) hfits.index
  intro c hc
  rw [List.map_map] at hc
  rw [@vector_of_mem_embeddedChunks d _ _ (vector m) _ (input_of_prepared hprepared) hc,
    length_serializeEmbedding, hfits.length, mul_comm]

/-! ## The handler and the dispatch -/

theorem succeeds_deleteDocument (docId : ℤ) (s : Store) : Tx.Succeeds (deleteDocument docId) s :=
  Tx.succeeds_transaction <| Tx.succeeds_bind succeeds_exec_ok fun _ _ _ =>
    Tx.succeeds_bind succeeds_exec_ok fun _ _ _ => succeeds_exec_ok

/-- A listing of a pair has each place once. -/
theorem nodup_listRecoverable {modelId : ℤ}
    (h : (listRecoverableEmbeddingsForModel docId modelId).Ok s rows s') :
    (rows.map fun r => (r.chunkType, r.chunkStart)).Nodup := by
  obtain ⟨hrows, rfl⟩ := Tx.ok_query.1 h
  obtain rfl := Except.ok.inj hrows
  refine ((List.perm_insertionSort chunkOrder _).map _).nodup_iff.2 ?_
  rw [List.Nodup, List.pairwise_map]
  refine (s.embeddings.unique.filter _).imp_of_mem ?_
  intro r r' hr hr' hne hplace
  have hp : r.pair = (docId, modelId) := (of_decide_eq_true (List.mem_filter.1 hr).2).1
  have hp' : r'.pair = (docId, modelId) := (of_decide_eq_true (List.mem_filter.1 hr').2).1
  exact hne (Prod.ext (hp.trans hp'.symm) hplace)

theorem works_replanDocumentFromPath (E : Env) (hm : m ∈ w.store.models.rows)
    (hfile : view d.filepath = some file) :
    Works (Reliable view vector) (replanDocumentFromPath E d m now) w := by
  refine works_bind (works_context (works_metadata hfile)) ?_
  intro metadata w₁ h1
  obtain ⟨hs₁, -⟩ := done_file (E := E) And.left (calls_context (calls_metadata _))
    (fun _ => yields_any (calls_context (calls_metadata _))) h1
  refine works_bind (works_context (works_hashFile hfile)) ?_
  intro fileHash w₂ h2
  obtain ⟨hs₂, -⟩ := done_hashFile And.left (done_context.1 h2)
  refine works_bind (works_context (works_readPrefixWithBudget hfile _)) ?_
  intro contentPlan w₃ h3
  obtain ⟨hs₃, -⟩ := done_file (E := E) And.left (calls_readPrefixWithBudget _ _)
    (fun _ => yields_readPrefixWithBudget _ _) (done_context.1 h3)
  refine works_bind (works_db (succeeds_upsert ⟨m, ?_, rfl⟩)) fun _ _ _ => works_pure
  rwa [hs₃, hs₂, hs₁]

theorem works_embedFile {entry : JobQueueEntry} (hfits : Fits vector m w.store)
    (hd : d ∈ w.store.documents.rows) (hfile : view d.filepath = some file)
    (hplanned : E.hash file = d.fileHash → ∀ r ∈ w.store.embeddings.rows, r.pair = (d.id, m.id) →
      r.ref ∈ planRefs E file m) :
    Works (Reliable view vector) (embedFile E entry d m) w := by
  refine works_bind (works_context (works_hashFile hfile)) ?_
  intro currentHash w₁ h1
  obtain ⟨hs₁, file', hfile', rfl⟩ := done_hashFile And.left (done_context.1 h1)
  obtain rfl := Option.some.inj (hfile.symm.trans hfile')
  split_ifs with hhash
  · -- the file is another one
    refine works_bind (works_context works_connect) fun _ w₂ h2 => ?_
    obtain rfl := done_connect And.left (done_context.1 h2)
    refine works_bind (works_context (works_db succeeds_exec_ok)) fun _ w₃ h3 => ?_
    have hs₃ := ok_exec_ok.1 (done_db And.left (done_context.1 h3))
    refine works_bind works_unixNow fun now w₄ h4 => ?_
    obtain rfl := done_unixNow And.left h4
    refine works_context (works_replanDocumentFromPath E ?_ hfile)
    rw [hs₃, hs₁]
    exact hfits.mem
  · refine works_bind (works_context works_connect) fun _ w₂ h2 => ?_
    obtain rfl := done_connect And.left (done_context.1 h2)
    refine works_bind (works_db ⟨_, _, rfl, rfl⟩) fun rows w₃ h3 => ?_
    have hlist := done_db And.left h3
    obtain ⟨hs₃, hmem⟩ := ok_listRecoverableEmbeddingsForModel hlist
    split_ifs with hnil
    · exact works_pure
    · rw [← hs₁, ← hs₃] at hfits hd hplanned
      refine works_embedRows E hfits ?_ hfile ?_ (nodup_listRecoverable hlist)
      · exact hasPair_iff.2 ⟨⟨d, hd, rfl⟩, m, hfits.mem, rfl⟩
      · intro r hr
        obtain ⟨hr, hp, -⟩ := (hmem r).1 hr
        rw [← hs₃] at hr
        exact hplanned (not_not.1 hhash) r hr hp

/-- The rows of a pair are of the plan of its file, when that is the file recorded. -/
def PlannedFor (E : Env) (view : View) (s : Store) (m : EmbeddingModel) (docId : ℤ) : Prop :=
  ∀ d ∈ s.documents.rows, d.id = docId → ∀ file, view d.filepath = some file → E.hash file = d.fileHash →
    ∀ r ∈ s.embeddings.rows, r.pair = (d.id, m.id) → r.ref ∈ planRefs E file m

theorem works_embedDocumentProcess {entry : JobQueueEntry} {modelId : ℤ}
    (hdecode : E.decodeEmbedPayload entry.payload = .ok ⟨docId, m.id⟩) (hfits : Fits vector m w.store)
    (hplanned : PlannedFor E view w.store m docId) :
    Works (Reliable view vector) (embedDocumentProcess E ⟨entry, modelId⟩) w := by
  unfold embedDocumentProcess
  refine works_bind (works_context (works_ofExcept hdecode)) fun payload w₁ h1 => ?_
  obtain ⟨hpayload, rfl⟩ := done_ofExcept.1 (done_context.1 h1)
  obtain rfl := Except.ok.inj (hdecode.symm.trans hpayload)
  refine works_bind (works_context works_connect) fun _ w₂ h2 => ?_
  obtain rfl := done_connect And.left (done_context.1 h2)
  refine works_bind (works_db ⟨_, _, rfl, rfl⟩) fun found w₃ h3 => ?_
  obtain ⟨hget, hs₃⟩ := Tx.ok_query.1 (done_db And.left h3)
  obtain rfl := Except.ok.inj hget
  cases hfound : w₂.store.documents.get? docId with
  | none => exact works_context (works_db succeeds_exec_ok)
  | some d =>
    obtain ⟨hd, rfl⟩ := AutoTable.get?_eq_some.1 hfound
    refine works_bind (works_db ⟨_, _, rfl, rfl⟩) fun found w₄ h4 => ?_
    obtain ⟨hget', hs₄⟩ := Tx.ok_query.1 (done_db And.left h4)
    obtain rfl := Except.ok.inj hget'
    rw [← hs₃, AutoTable.get?_eq_some.2 ⟨hfits.mem, rfl⟩]
    refine works_bind works_pure fun model w₅ h5 => ?_
    obtain ⟨rfl, rfl⟩ := done_pure.1 h5
    refine works_bind works_tryMetadata fun answer w₆ h6 => ?_
    obtain ⟨⟨rfl, hcase⟩, hobliging⟩ := done_ask.1 h6
    have hs₆ : w₆.store = w₂.store := hs₄.symm.trans hs₃.symm
    cases hfile : view d.filepath with
    | some file =>
      obtain ⟨_, _, -, rfl, -⟩ | ⟨hnone, -⟩ | ⟨hfalse, -⟩ := hcase
      · rw [← hs₆] at hfits hplanned hd
        exact works_embedFile hfits hd hfile fun hhash => hplanned d hd rfl file hfile hhash
      · rw [hfile] at hnone
        cases hnone
      · exact hfalse.elim
    | none =>
      obtain ⟨e, rfl, hnot⟩ := hobliging hfile
      dsimp only
      rw [if_pos hnot]
      refine works_bind (works_context works_connect) fun _ w₇ h7 => ?_
      exact works_context (works_db (succeeds_deleteDocument d.id _))

/-- **A dispatch of an embed job ends well** outside of which nothing fails. -/
theorem works_dispatchJob {entry : JobQueueEntry} {modelId : ℤ} (hty : entry.jobType = .embedDocument)
    (hdecode : E.decodeEmbedPayload entry.payload = .ok ⟨docId, m.id⟩) (hfits : Fits vector m w.store)
    (hplanned : PlannedFor E view w.store m docId) :
    Works (Reliable view vector) (dispatchJob E entry modelId) w := by
  rw [dispatchJob_eq, hty]
  refine works_andThen (works_embedDocumentProcess hdecode hfits hplanned) fun _ w₁ _ => ?_
  refine works_bind (works_context works_connect) fun _ w₂ h2 => ?_
  exact works_context (works_db succeeds_exec_ok)

end Ask
