/-
  What a search returns: the documents in the order of their best chunks, as
  far as the limit goes.
-/
import Ask.CollapseLaw
import Ask.Mirror
import Ask.RebuildLaw

namespace Ask

open Lib

/-! ## The query -/

section query
variable {D : Type} [LinearOrder D] {dist : Bytes → Bytes → D} {matchRows : MatchRows D} {s s' : Store}
  {v : VecTable} {q : Bytes} {modelId : ℤ} {limit : ℕ}

/-- By distance, then by row id. -/
def DocumentSearchResult.key (h : DocumentSearchResult D) : D ×ₗ ℤ := toLex (h.distance, h.embeddingId)

/-- The same of a near row. -/
def nearKey (x : ℤ × D) : D ×ₗ ℤ := toLex (x.2, x.1)

theorem hitOrder_iff {a b : DocumentSearchResult D} : hitOrder a b ↔ a.key ≤ b.key := by
  rw [DocumentSearchResult.key, DocumentSearchResult.key, Prod.Lex.toLex_le_toLex]
  rfl

instance : Std.Total (hitOrder (D := D)) where
  total a b := by
    rw [hitOrder_iff, hitOrder_iff]
    exact le_total a.key b.key

instance : IsTrans (DocumentSearchResult D) hitOrder where
  trans _ _ _ hab hbc := hitOrder_iff.2 ((hitOrder_iff.1 hab).trans (hitOrder_iff.1 hbc))

/-- All rows of the table with their distances, the nearest first. -/
def VecTable.nearest (v : VecTable) (dist : Bytes → Bytes → D) (q : Bytes) : List (ℤ × D) :=
  (v.rows.map fun x => (x.1, dist q x.2)).insertionSort fun a b => nearKey a ≤ nearKey b

/-- The query returns the `k` rows nearest to the vector, by distance and row id. -/
def Nearest (dist : Bytes → Bytes → D) (matchRows : MatchRows D) : Prop :=
  ∀ v q k rows, matchRows v q k = .ok rows → rows.Perm ((v.nearest dist q).take k)

theorem mem_nearest {x : ℤ × D} : x ∈ v.nearest dist q ↔ ∃ y ∈ v.rows, (y.1, dist q y.2) = x := by
  rw [VecTable.nearest, List.mem_insertionSort, List.mem_map]

theorem nodup_nearest : (v.nearest dist q).Pairwise fun a b => a.1 ≠ b.1 := by
  refine List.pairwise_map.1 (((List.perm_insertionSort _ _).map Prod.fst).nodup_iff.2 ?_)
  rw [List.map_map]
  exact v.nodup

theorem pairwise_nearest : (v.nearest dist q).Pairwise fun a b => nearKey a < nearKey b := by
  have hsorted : (v.nearest dist q).Pairwise fun a b => nearKey a ≤ nearKey b :=
    List.pairwise_insertionSort _ _
  refine (hsorted.and nodup_nearest).imp ?_
  rintro a b ⟨hle, hne⟩
  exact lt_of_le_of_ne hle fun heq => hne (congrArg (fun k => (ofLex k).2) heq)

/-! ## The hits of an index -/

/-- The chunks of the model that can be found, with their documents and distances. -/
def Store.indexedHits (s : Store) (dist : Bytes → Bytes → D) (q : Bytes) (modelId : ℤ) :
    Set (DocumentSearchResult D) :=
  {h | ∃ r ∈ s.embeddings.rows, ∃ d ∈ s.documents.rows, r.documentId = d.id ∧ r.modelId = modelId ∧
    r.state = .embedded ∧ ∃ vector, r.embedding = some vector ∧ h = searchHit d r (dist q vector)}

/-- Every hit of a table that could be returned, the nearest first. -/
def Store.allHits (s : Store) (v : VecTable) (dist : Bytes → Bytes → D) (q : Bytes) (modelId : ℤ) :
    List (DocumentSearchResult D) := (v.nearest dist q).filterMap (s.joinHit modelId)

omit [LinearOrder D] in
theorem joinHit_eq_some {x : ℤ × D} {h : DocumentSearchResult D} : s.joinHit modelId x = some h ↔
    ∃ r ∈ s.embeddings.rows, ∃ d ∈ s.documents.rows, r.id = x.1 ∧ d.id = r.documentId ∧
      r.modelId = modelId ∧ r.state = .embedded ∧ h = searchHit d r x.2 := by
  unfold Store.joinHit
  simp only [Option.bind_eq_some_iff, AutoTable.get?_eq_some, Option.ite_none_right_eq_some,
    Option.some.injEq]
  constructor
  · rintro ⟨r, ⟨hr, hid⟩, d, ⟨hd, hdoc⟩, ⟨hm, hst⟩, rfl⟩
    exact ⟨r, hr, d, hd, hid, hdoc, hm, hst, rfl⟩
  · rintro ⟨r, hr, d, hd, hid, hdoc, hm, hst, rfl⟩
    exact ⟨r, ⟨hr, hid⟩, d, ⟨hd, hdoc⟩, ⟨hm, hst⟩, rfl⟩

omit [LinearOrder D] in
theorem key_of_joinHit {x : ℤ × D} {h : DocumentSearchResult D} (hx : s.joinHit modelId x = some h) :
    h.key = nearKey x := by
  obtain ⟨r, -, d, -, hid, -, -, -, rfl⟩ := joinHit_eq_some.1 hx
  exact congrArg (fun id => toLex (x.2, id)) hid

theorem pairwise_allHits : (s.allHits v dist q modelId).Pairwise fun a b => a.key < b.key := by
  refine pairwise_nearest.filterMap _ ?_
  intro x x' hlt h hx h' hx'
  rwa [key_of_joinHit hx, key_of_joinHit hx']

/-- A chunk makes one hit. -/
theorem nodup_allHits : ((s.allHits v dist q modelId).map (·.embeddingId)).Nodup := by
  refine List.pairwise_map.2 (nodup_nearest.filterMap _ ?_)
  intro x x' hne h hx h' hx'
  obtain ⟨r, -, d, -, hid, -, -, -, rfl⟩ := joinHit_eq_some.1 hx
  obtain ⟨r', -, d', -, hid', -, -, -, rfl⟩ := joinHit_eq_some.1 hx'
  show r.id ≠ r'.id
  rwa [hid, hid']

theorem mem_allHits (hm : MirrorsModel s.embeddings v modelId) {h : DocumentSearchResult D} :
    h ∈ s.allHits v dist q modelId ↔ h ∈ s.indexedHits dist q modelId := by
  unfold Store.allHits
  rw [List.mem_filterMap]
  constructor
  · rintro ⟨x, hx, hhit⟩
    obtain ⟨y, hy, rfl⟩ := mem_nearest.1 hx
    obtain ⟨r, hr, d, hd, hid, hdoc, hmod, hst, rfl⟩ := joinHit_eq_some.1 hhit
    obtain ⟨r', hr', hid', -, -, hvec⟩ := (hm y).1 hy
    obtain rfl := AutoTable.eq_of_key hr hr' (hid.trans hid'.symm)
    exact ⟨r, hr, d, hd, hdoc.symm, hmod, hst, y.2, hvec, rfl⟩
  · rintro ⟨r, hr, d, hd, hdoc, hmod, hst, vector, hvec, rfl⟩
    have hrow : (r.id, vector) ∈ v.rows := (hm _).2 ⟨r, hr, rfl, hst, hmod, hvec⟩
    exact ⟨_, mem_nearest.2 ⟨_, hrow, rfl⟩,
      joinHit_eq_some.2 ⟨r, hr, d, hd, rfl, hdoc.symm, hmod, hst, rfl⟩⟩

/-- Every row of the table is joined. -/
theorem isSome_joinHit (hm : MirrorsModel s.embeddings v modelId) (hfk : ForeignKeys s) {x : ℤ × D}
    (hx : x ∈ v.nearest dist q) : (s.joinHit modelId x).isSome = true := by
  obtain ⟨y, hy, rfl⟩ := mem_nearest.1 hx
  obtain ⟨r, hr, hid, hst, hmod, -⟩ := (hm y).1 hy
  obtain ⟨⟨d, hd, hdoc⟩, -⟩ := hasPair_iff.1 (hfk r hr)
  exact Option.isSome_iff_exists.2 ⟨_, joinHit_eq_some.2 ⟨r, hr, d, hd, hid, hdoc, hmod, hst, rfl⟩⟩

theorem filterMap_take_nearest (hm : MirrorsModel s.embeddings v modelId) (hfk : ForeignKeys s) (k : ℕ) :
    ((v.nearest dist q).take k).filterMap (s.joinHit modelId) = (s.allHits v dist q modelId).take k := by
  have htake : ∀ (l : List (ℤ × D)), (∀ x ∈ l, (s.joinHit modelId x).isSome = true) → ∀ k,
      (l.take k).filterMap (s.joinHit modelId) = (l.filterMap (s.joinHit modelId)).take k := by
    intro l
    induction l with
    | nil => simp
    | cons x l ih =>
      intro hl k
      obtain ⟨h, hx⟩ := Option.isSome_iff_exists.1 (hl x List.mem_cons_self)
      cases k with
      | zero => rfl
      | succ k =>
        rw [List.take_succ_cons, List.filterMap_cons_some hx, List.filterMap_cons_some hx,
          List.take_succ_cons, ih (fun y hy => hl y (List.mem_cons_of_mem x hy))]
  exact htake _ (fun x hx => isSome_joinHit hm hfk hx) k

/-- The hits of the nearest rows, in order, are the first of all hits. -/
theorem hits_of_nearest (hm : MirrorsModel s.embeddings v modelId) (hfk : ForeignKeys s)
    {rows : List (ℤ × D)} {k : ℕ} (hrows : rows.Perm ((v.nearest dist q).take k)) :
    (rows.filterMap (s.joinHit modelId)).insertionSort hitOrder = (s.allHits v dist q modelId).take k := by
  have hperm := (List.perm_insertionSort hitOrder _).trans (hrows.filterMap (s.joinHit modelId))
  rw [filterMap_take_nearest hm hfk] at hperm
  have hstrict : ((s.allHits v dist q modelId).take k).Pairwise fun a b => a.key < b.key :=
    pairwise_allHits.sublist (List.take_sublist k _)
  refine hperm.eq_of_pairwise ?_ (List.pairwise_insertionSort _ _) (hstrict.imp ?_)
  · -- equal keys come from one row
    intro a b ha hb hab hba
    have hkey := le_antisymm (hitOrder_iff.1 hab) (hitOrder_iff.1 hba)
    obtain ⟨x, -, hx⟩ := List.mem_filterMap.1 (List.mem_of_mem_take (hperm.mem_iff.1 ha))
    obtain ⟨y, -, hy⟩ := List.mem_filterMap.1 (List.mem_of_mem_take hb)
    rw [key_of_joinHit hx, key_of_joinHit hy] at hkey
    obtain ⟨hd, hid⟩ := Prod.mk.inj (toLex.injective hkey)
    obtain rfl : x = y := Prod.ext hid hd
    exact Option.some.inj (hx.symm.trans hy)
  · intro a b hlt
    exact hitOrder_iff.2 hlt.le

theorem ok_searchDocumentsByEmbedding {model : EmbeddingModel} {vector : Vector32}
    {hits : List (DocumentSearchResult D)} (hlimit : limit ≠ 0)
    (h : (searchDocumentsByEmbedding matchRows model vector limit).Ok s hits s') :
    ∃ state v rows, s.searchState = some state ∧ state.activeModelId = model.id ∧ s.vec = some v ∧
      matchRows v (serializeEmbedding vector) limit = .ok rows ∧
      hits = (rows.filterMap (s.joinHit model.id)).insertionSort hitOrder := by
  unfold searchDocumentsByEmbedding at h
  rw [if_neg hlimit] at h
  simp only [Tx.ok_bind] at h
  obtain ⟨_, s₁, h1, _, s₂, h2, h3⟩ := h
  obtain rfl : s = s₁ := by
    unfold validateQueryEmbeddingDimensions at h1
    split_ifs at h1
    · exact absurd h1 Tx.ok_fail
    · exact (Tx.ok_pure.1 h1).2
    · exact absurd h1 Tx.ok_fail
  obtain ⟨hactive, rfl⟩ := Tx.ok_query.1 h2
  obtain ⟨hrows, rfl⟩ := Tx.ok_query.1 h3
  cases hst : s.searchState with
  | none =>
    rw [hst] at hactive
    cases hactive
  | some state =>
    rw [hst] at hactive
    dsimp only at hactive
    split_ifs at hactive with hid
    cases hv : s.vec with
    | none =>
      rw [hv] at hrows
      cases hrows
    | some v =>
      rw [hv] at hrows
      dsimp only at hrows
      cases hmatch : matchRows v (serializeEmbedding vector) limit with
      | error e =>
        rw [hmatch] at hrows
        cases hrows
      | ok rows =>
        rw [hmatch] at hrows
        cases hrows
        exact ⟨state, v, rows, rfl, not_not.1 hid, rfl, hmatch, rfl⟩

end query

/-! ## Ranks -/

section ranks
variable {D : Type} [LinearOrder D] {dist : Bytes → Bytes → D} {s : Store} {v : VecTable} {q : Bytes}
  {modelId : ℤ} {R : List (DocumentSearchResult D)}

/-- A list ranks the documents of an index: one hit for each, the best of its chunks, in order. -/
abbrev DocumentRanking (S : Set (DocumentSearchResult D)) (R : List (DocumentSearchResult D)) : Prop :=
  Ranking (fun a b => a.key < b.key) DocumentSearchResult.documentId S R

/-- The documents with a chunk in the index. -/
def Store.indexedDocuments (s : Store) (modelId : ℤ) : List Document :=
  s.documents.rows.filter fun d => s.embeddings.rows.any fun r =>
    decide (r.documentId = d.id) && r.searchable modelId

/-- A document's chunks in the index. -/
def Store.indexedChunks (s : Store) (modelId docId : ℤ) : List DocumentEmbedding :=
  s.embeddings.rows.filter fun r => decide (r.documentId = docId) && r.searchable modelId

omit [LinearOrder D] in
theorem exists_hit_iff {docId : ℤ} : (∃ h ∈ s.indexedHits dist q modelId, h.documentId = docId) ↔
    docId ∈ (s.indexedDocuments modelId).map (·.id) := by
  simp only [Store.indexedDocuments, List.mem_map, List.mem_filter, List.any_eq_true, Bool.and_eq_true,
    decide_eq_true_eq, searchable_iff]
  constructor
  · rintro ⟨h, ⟨r, hr, d, hd, hdoc, hm, hst, vector, hvec, rfl⟩, rfl⟩
    exact ⟨d, ⟨hd, r, hr, hdoc, hm, hst, vector, hvec⟩, rfl⟩
  · rintro ⟨d, ⟨hd, r, hr, hdoc, hm, hst, vector, hvec⟩, rfl⟩
    exact ⟨_, ⟨r, hr, d, hd, hdoc, hm, hst, vector, hvec, rfl⟩, rfl⟩

/-- A ranking has a hit for each indexed document. -/
theorem length_ranking (h : DocumentRanking (s.indexedHits dist q modelId) R) :
    R.length = (s.indexedDocuments modelId).length := by
  have hids : ((s.indexedDocuments modelId).map (·.id)).Nodup := by
    refine List.Nodup.sublist (List.filter_sublist.map _) ?_
    exact List.pairwise_map.2 (s.documents.sorted.imp fun hlt => hlt.ne)
  have hperm : (R.map (·.documentId)).Perm ((s.indexedDocuments modelId).map (·.id)) := by
    refine (List.perm_ext_iff_of_nodup h.nodup hids).2 fun docId => ?_
    have hiff : (∃ h ∈ s.indexedHits dist q modelId, h.documentId = docId) ↔ _ := exists_hit_iff
    rw [← hiff, List.mem_map]
    constructor
    · rintro ⟨a, ha, hid⟩
      exact ⟨a, (h.best a ha).1, hid⟩
    · rintro ⟨b, hb, rfl⟩
      exact h.complete b hb
  simpa using hperm.length_eq

/-- A document has as many hits as chunks in the index, at most. -/
theorem count_allHits_le (hm : MirrorsModel s.embeddings v modelId) (docId : ℤ) :
    ((s.allHits v dist q modelId).map (·.documentId)).count docId ≤
      (s.indexedChunks modelId docId).length := by
  have hsub : ((s.allHits v dist q modelId).filter fun h => h.documentId = docId).map (·.embeddingId) ⊆
      (s.indexedChunks modelId docId).map (·.id) := by
    intro id hid
    obtain ⟨h, hh, rfl⟩ := List.mem_map.1 hid
    obtain ⟨hh, hdoc⟩ := List.mem_filter.1 hh
    obtain ⟨r, hr, d, -, hrd, hmod, hst, vector, hvec, rfl⟩ := (mem_allHits hm).1 hh
    refine List.mem_map.2 ⟨r, List.mem_filter.2 ⟨hr, ?_⟩, rfl⟩
    rw [Bool.and_eq_true, decide_eq_true_eq, searchable_iff]
    exact ⟨hrd.trans (of_decide_eq_true hdoc), hmod, hst, vector, hvec⟩
  have hnodup := nodup_allHits.sublist ((List.filter_sublist (p := fun h => decide (h.documentId = docId))
    (l := s.allHits v dist q modelId)).map (·.embeddingId))
  have hlen := (hnodup.subperm hsub).length_le
  rw [List.length_map, List.length_map] at hlen
  rw [List.count, List.countP_map, List.countP_eq_length_filter]
  simpa [Function.comp_def, beq_eq_decide] using hlen

/-- The first hit of each document, in order, ranks the index. -/
theorem ranking_allHits (hm : MirrorsModel s.embeddings v modelId) : DocumentRanking
    (s.indexedHits dist q modelId) (firsts DocumentSearchResult.documentId (s.allHits v dist q modelId)) := by
  have hset : s.indexedHits dist q modelId = {h | h ∈ s.allHits v dist q modelId} := by
    ext h
    exact (mem_allHits hm).symm
  rw [hset]
  exact ranking_firsts pairwise_allHits

/-- Where no document has more than `k` chunks in the index, none has more hits. -/
theorem count_allHits_le_of_few (hm : MirrorsModel s.embeddings v modelId) {k : ℕ}
    (hfew : ∀ d ∈ s.documents.rows, (s.indexedChunks modelId d.id).length ≤ k) (docId : ℤ) :
    ((s.allHits v dist q modelId).map DocumentSearchResult.documentId).count docId ≤ k := by
  by_cases hmem : docId ∈ (s.allHits v dist q modelId).map DocumentSearchResult.documentId
  · obtain ⟨h, hh, rfl⟩ := List.mem_map.1 hmem
    obtain ⟨r, -, d, hd, -, -, -, _, -, rfl⟩ := (mem_allHits hm).1 hh
    exact (count_allHits_le hm d.id).trans (hfew d hd)
  · rw [List.count_eq_zero_of_not_mem hmem]
    exact Nat.zero_le k

end ranks

/-! ## Searches -/

section search
variable {D : Type} {dist : Bytes → Bytes → D} {view : SearchView D} {query : String} {limit : ℕ}
  {includeLocation : Bool} {s : Store}

/-- The search finds the active model, its index and a vector of its dimension, and the index
    answers. -/
structure Answerable (view : SearchView D) (s : Store) (query : String) (limit : ℕ)
    (model : EmbeddingModel) (vector : Vector32) : Prop where
  load : ∃ s₀ state, view.load = .ok s₀ ∧ s₀.searchState = some state ∧
    s₀.models.get? state.activeModelId = some model
  embed : ∃ rest, view.embed model [query] = .ok (vector :: rest)
  length : (vector.length : ℤ) = model.dimensions
  active : ∃ updatedAt, s.searchState = some ⟨model.id, model.dimensions, updatedAt⟩
  answers : ∃ v rows, s.vec = some v ∧
    view.matchRows v (serializeEmbedding vector) (expandedRawLimit limit) = .ok rows

namespace Answerable

variable {model : EmbeddingModel} {vector : Vector32} (h : Answerable view s query limit model vector)
include h

theorem exists_model : ∃ s₀, view.load = .ok s₀ ∧ (loadActiveModel s₀).result = .ok model := by
  obtain ⟨s₀, state, hload, hstate, hmodel⟩ := h.load
  exact ⟨s₀, hload, (loadActiveModel_ok hstate hmodel).1⟩

theorem ok_validate : (validateQueryEmbeddingDimensions vector model).Ok s () s := by
  have hlen := h.length
  rw [validateQueryEmbeddingDimensions, if_neg (by omega), if_pos hlen]
  exact Tx.ok_pure.2 ⟨rfl, rfl⟩

theorem ok_ensureActiveVecModel : (ensureActiveVecModel model).Ok s () s := by
  obtain ⟨updatedAt, hactive⟩ := h.active
  obtain ⟨v, rows, hv, -⟩ := h.answers
  refine Tx.ok_query.2 ⟨?_, rfl⟩
  rw [hactive, hv]
  simp

variable [LinearOrder D]

theorem exists_hits : ∃ hits, (searchDocumentsByEmbedding view.matchRows model vector
    (expandedRawLimit limit) s).result = .ok hits := by
  obtain ⟨v, rows, hv, hrows⟩ := h.answers
  have hok : ∃ hits s', (searchDocumentsByEmbedding view.matchRows model vector
      (expandedRawLimit limit)).Ok s hits s' := by
    unfold searchDocumentsByEmbedding
    split_ifs
    · exact ⟨[], s, Tx.ok_pure.2 ⟨rfl, rfl⟩⟩
    · simp only [Tx.ok_bind, Tx.ok_query]
      refine ⟨(rows.filterMap (s.joinHit model.id)).insertionSort hitOrder, s, (), s, h.ok_validate,
        (), s, h.ok_ensureActiveVecModel, ?_, rfl⟩
      rw [hv]
      simp only [hrows]
      rfl
  obtain ⟨hits, s', hok⟩ := hok
  exact ⟨hits, hok.1⟩

variable [Sub D] [Div D] [OfNat D 0] [OfNat D 1] [OfNat D 2]

theorem exists_results (hquery : view.query = .ok s) :
    ∃ results, searchDocuments view query limit includeLocation = .ok results := by
  obtain ⟨s₀, hload, hmodel⟩ := h.exists_model
  obtain ⟨rest, hembed⟩ := h.embed
  obtain ⟨hits, hhits⟩ := h.exists_hits
  refine ⟨collapseToDocuments hits limit includeLocation, ?_⟩
  unfold searchDocuments
  simp only [bind_eq_ok, mapError_eq_ok]
  refine ⟨s₀, hload, model, hmodel, _, hembed, ?_⟩
  simp only [List.head?_cons, bind_eq_ok, mapError_eq_ok]
  exact ⟨s, hquery, hits, hhits, rfl⟩

end Answerable

variable [LinearOrder D] [Sub D] [Div D] [OfNat D 0] [OfNat D 1] [OfNat D 2]

theorem expandedRawLimit_eq (hmax : limit ≤ 100) : expandedRawLimit limit = 4 * limit := by
  unfold expandedRawLimit searchRawLimitMultiplier searchRawLimitCap usizeMax
  omega

/-- A search that returns asked the provider for the query's vector and collapsed the hits. -/
theorem ok_searchDocuments {results : List (SearchDocumentResult D)} (hquery : view.query = .ok s)
    (h : searchDocuments view query limit includeLocation = .ok results) :
    ∃ model vector rest hits s', view.embed model [query] = .ok (vector :: rest) ∧
      (searchDocumentsByEmbedding view.matchRows model vector (expandedRawLimit limit)).Ok s hits s' ∧
      results = collapseToDocuments hits limit includeLocation := by
  unfold searchDocuments at h
  simp only [bind_eq_ok, mapError_eq_ok] at h
  obtain ⟨s₀, -, model, -, vectors, hembed, h⟩ := h
  cases vectors with
  | nil => cases h
  | cons vector rest =>
    simp only [List.head?_cons, bind_eq_ok, mapError_eq_ok] at h
    obtain ⟨s₁, hs₁, hits, hhits, h⟩ := h
    obtain rfl := Except.ok.inj (hquery.symm.trans hs₁)
    exact ⟨model, vector, rest, hits, _, hembed, ⟨hhits, rfl⟩, (Except.ok.inj h).symm⟩

/-- **A search returns the best documents**: over an index that mirrors the active model, the results
    are the first documents of the ranking by best chunk, each with its best chunk's score; where no
    document has more than four chunks, they are as many as the limit and the index allow. -/
theorem search_ranks_documents (hnear : Nearest dist view.matchRows) (hlimit : 0 < limit)
    (hmax : limit ≤ 100) (hquery : view.query = .ok s) (hfk : ForeignKeys s) (hmirror : Mirror s) :
    (∀ results, searchDocuments view query limit includeLocation = .ok results →
      ∃ model state vector rest R, s.searchState = some state ∧ state.activeModelId = model.id ∧
        view.embed model [query] = .ok (vector :: rest) ∧
        DocumentRanking (s.indexedHits dist (serializeEmbedding vector) model.id) R ∧
        results.map (fun x => (x.filepath, x.matchScore)) =
          (R.take results.length).map (fun h => (h.filepath, distanceToScore h.distance)) ∧
        results.length ≤ limit ∧
        ((∀ d ∈ s.documents.rows, (s.indexedChunks model.id d.id).length ≤ 4) →
          results.length = min limit (s.indexedDocuments model.id).length)) ∧
    ∀ model vector, Answerable view s query limit model vector →
      ∃ results, searchDocuments view query limit includeLocation = .ok results := by
  refine ⟨fun results h => ?_, fun model vector hready => hready.exists_results hquery⟩
  obtain ⟨model, vector, rest, hits, s', hembed, hhits, rfl⟩ := ok_searchDocuments hquery h
  rw [expandedRawLimit_eq hmax] at hhits
  obtain ⟨state, v, rows, hstate, hid, hv, hrows, rfl⟩ := ok_searchDocumentsByEmbedding (by omega) hhits
  obtain ⟨v', hv', hm⟩ := hmirror state hstate
  obtain rfl := Option.some.inj (hv.symm.trans hv')
  rw [hid] at hm
  rw [hits_of_nearest hm hfk (hnear _ _ _ _ hrows)]
  set all := s.allHits v dist (serializeEmbedding vector) model.id
  have hranking : DocumentRanking (s.indexedHits dist (serializeEmbedding vector) model.id)
      (firsts DocumentSearchResult.documentId all) := ranking_allHits hm
  have hprefix : firsts DocumentSearchResult.documentId (all.take (4 * limit)) <+: firsts _ all :=
    firsts_take_prefix all (4 * limit)
  have hresults : (collapseToDocuments (all.take (4 * limit)) limit includeLocation).map
      (fun x => (x.filepath, x.matchScore)) = (shown (all.take (4 * limit)) limit).map
        fun h => (h.filepath, distanceToScore h.distance) := by
    rw [collapseToDocuments_eq, List.map_map]
    rfl
  have hlen := congrArg List.length hresults
  rw [List.length_map, List.length_map] at hlen
  have hshown : shown (all.take (4 * limit)) limit <+: firsts _ all :=
    (List.take_prefix limit _).trans hprefix
  refine ⟨model, state, vector, rest, _, hstate, hid, hembed, hranking, ?_, ?_, fun hchunks => ?_⟩
  · rw [hresults, hlen, ← List.prefix_iff_eq_take.1 hshown]
  · rw [hlen]
    exact List.length_take_le ..
  · have hcount : ∀ docId, (all.map DocumentSearchResult.documentId).count docId ≤ 4 :=
      count_allHits_le_of_few hm hchunks
    have hmin : min limit _ ≤ _ := le_length_firsts_take hcount
    rw [← length_ranking hranking, hlen, List.length_take]
    have := hprefix.length_le
    omega

end search

/-! ## A search of three documents -/

/-- The number that four bytes stand for. -/
def leNat (bytes : Bytes) : ℕ := bytes.foldr (fun b n => b.toNat + 256 * n) 0

/-- A distance of one-dimensional vectors. -/
def sampleDist (a b : Bytes) : ℚ := ((leNat a : ℤ) - leNat b).natAbs / 100

/-- A quiet server over one store, with the sample provider. -/
def sampleSearch (s : Store) : SearchView ℚ where
  load := .ok s
  query := .ok s
  embed _ inputs := .ok (inputs.map fun text => sampleVector (utf8Bytes text))
  matchRows v q k := .ok ((v.nearest sampleDist q).take k)

theorem nearest_sampleSearch (s : Store) : Nearest sampleDist (sampleSearch s).matchRows := by
  intro v q k rows hrows
  cases hrows
  exact .refl _

/-- Ten chunks of three documents, of which a limit of two takes up eight: the two best documents, in
    the order of their nearest chunks. -/
theorem sample_search : ∃ results R,
    searchDocuments (sampleSearch indexedStore) "q" 2 true = .ok results ∧
    results.map (fun x => (x.filepath, x.matchScore)) = [("/r/f", 19 / 20), ("/r/g", 9 / 10)] ∧
    DocumentRanking (indexedStore.indexedHits sampleDist (serializeEmbedding [113]) 1) R ∧
    results.map (fun x => (x.filepath, x.matchScore)) =
      (R.take 2).map (fun h => (h.filepath, distanceToScore h.distance)) ∧
    results.length = min 2 (indexedStore.indexedDocuments 1).length := by
  have hplay : ((searchDocuments (sampleSearch indexedStore) "q" 2 true).toOption.any fun results =>
      decide (results.map (fun x => (x.filepath, x.matchScore)) =
        [("/r/f", 19 / 20), ("/r/g", 9 / 10)])) = true := by
    decide +kernel
  obtain ⟨results, hresults, hfound⟩ := (Option.any_eq_true _ _).1 hplay
  replace hfound := of_decide_eq_true hfound
  have hok : searchDocuments (sampleSearch indexedStore) "q" 2 true = .ok results :=
    toOption_eq_some.1 hresults
  have hstate : indexedStore.searchState = some ⟨1, 1, 0⟩ := by decide +kernel
  have hvec : indexedStore.vec.isSome = true := by decide +kernel
  have hfk : ForeignKeys indexedStore := by
    unfold ForeignKeys
    decide +kernel
  have hchunks : ∀ d ∈ indexedStore.documents.rows, (indexedStore.indexedChunks 1 d.id).length ≤ 4 := by
    decide +kernel
  have hmirror : Mirror indexedStore := by
    intro state hst
    obtain ⟨v, hv⟩ := Option.isSome_iff_exists.1 hvec
    exact ⟨v, hv, synced_indexedStore v state hv hst⟩
  obtain ⟨model, state, vector, rest, R, hst, hid, hembed, hR, hmap, -, hlen⟩ :=
    (search_ranks_documents (nearest_sampleSearch _) (by simp) (by simp) rfl hfk hmirror).1 results hok
  obtain rfl := Option.some.inj (hstate.symm.trans hst)
  replace hid : model.id = 1 := hid.symm
  rw [hid] at hR hlen
  have hvector : sampleVector (utf8Bytes "q") = [113] := by decide +kernel
  cases hembed
  dsimp only at hR
  rw [hvector] at hR
  have hlength : results.length = 2 := by simpa using congrArg List.length hfound
  rw [hlength] at hmap
  exact ⟨results, R, hok, hfound, hR, hmap, hlen hchunks⟩

end Ask
