/-
  A library that was synced and is then searched: what a search finds is told
  by the files alone.
-/
import Ask.IngestLaw
import Ask.SearchLaw

namespace Ask

open Lib Lib.OsStr

variable {E : Env} {host : Host} {view : View} {vector : EmbeddingModel → Bytes → Vector32} {m : EmbeddingModel}
  {s s' s₁ : Store} {modelId docId : ℤ} {path : String}

/-! ## Libraries on their way -/

/-- Each document has work left, or is true to its file. -/
def AllUnderway (E : Env) (view : View) (vector : EmbeddingModel → Bytes → Vector32) (m : EmbeddingModel)
    (s : Store) : Prop :=
  ∀ d ∈ s.documents.rows, Underway E view vector m d.id d.filepath s

/-- Each document is there with its file, and embedded as planned from it. -/
def InSync (E : Env) (view : View) (vector : EmbeddingModel → Bytes → Vector32) (m : EmbeddingModel)
    (s : Store) : Prop :=
  ∀ d ∈ s.documents.rows, TrueToFile E view vector m d.id d.filepath s

theorem DispatchOutcome.searchState {jobId : ℤ} (h : DispatchOutcome E view vector m jobId docId s s') :
    s'.searchState = s.searchState := by
  cases h with
  | gone | idle => rfl
  | deleted _ _ _ hdel => rw [ok_deleteDocument hdel]
  | embedded _ _ _ _ _ _ _ hr => exact hr.searchState
  | replanned _ _ _ _ _ _ _ hok =>
    obtain ⟨_, hi, -⟩ := seededWith_upsert hok
    exact hi.searchState

/-- Rounds bring no new documents, and leave the search state and the index's place. -/
theorem Drainable.run_frame {rounds : List (ℤ × Except AnyError Unit)} (hs : Drainable E view vector m s)
    (h : Run (Tick E view vector modelId) s rounds s') :
    (∀ d ∈ s'.documents.rows, ∃ d₀ ∈ s.documents.rows, d₀.id = d.id) ∧ s'.searchState = s.searchState ∧
      s'.vec.isSome = s.vec.isSome := by
  induction h with
  | nil => exact ⟨fun d hd => ⟨d, hd, rfl⟩, rfl, rfl⟩
  | @cons s s₁ _ round _ hstep _ ih =>
    obtain ⟨hids, hstate, hvec⟩ := ih (hs.step hstep).1
    obtain ⟨-, entry, docId, -, -, hout⟩ := hs.tick hstep
    refine ⟨fun d hd => ?_, hstate.trans hout.searchState, hvec.trans (isSome_vec_of_tick hs hstep)⟩
    obtain ⟨d₁, hd₁, hid⟩ := hids d hd
    rcases hout.of_mem_documents hd₁ with hold | ⟨hid₁, -, ⟨d₀, hd₀, hid₀⟩, -⟩
    · exact ⟨d₁, hold, hid⟩
    · exact ⟨d₀, (List.mem_filter.1 hd₀).1, hid₀.trans (hid₁.symm.trans hid)⟩

/-- A library on its way is in sync when no job is left. -/
theorem Drainable.inSync {rounds : List (ℤ × Except AnyError Unit)} (hs : Drainable E view vector m s)
    (hvec : s.vec.isSome = true) (hall : AllUnderway E view vector m s)
    (h : Run (Tick E view vector modelId) s rounds s') (hempty : s'.jobs.rows = []) :
    InSync E view vector m s' ∧ ∀ p, (∃ docId, s'.PathOf docId p) ↔
      (∃ docId, s.PathOf docId p) ∧ (view p).isSome = true := by
  have htrue : ∀ d ∈ s.documents.rows, TrueToFile E view vector m d.id d.filepath s' := by
    intro d hd
    rcases hs.run_underway hvec h (hall d hd) with ⟨hleft, -⟩ | htrue
    · have hasked := (hs.run h).1.queued _ hleft
      rw [asked, hempty] at hasked
      cases hasked
    · exact htrue
  have hold : ∀ d ∈ s'.documents.rows, ∃ d₀ ∈ s.documents.rows, d₀.id = d.id ∧ d₀.filepath = d.filepath := by
    intro d hd
    obtain ⟨d₀, hd₀, hid⟩ := (hs.run_frame h).1 d hd
    have hunderway : Underway E view vector m d₀.id d₀.filepath s' := .inr (htrue d₀ hd₀)
    exact ⟨d₀, hd₀, hid, (hunderway.filepath hd hid.symm).symm⟩
  have hsync : InSync E view vector m s' := by
    intro d hd
    obtain ⟨d₀, hd₀, hid, hpath⟩ := hold d hd
    rw [← hid, ← hpath]
    exact htrue d₀ hd₀
  refine ⟨hsync, fun p => ⟨?_, ?_⟩⟩
  · rintro ⟨docId, d, hd, rfl, rfl⟩
    obtain ⟨d₀, hd₀, -, hpath⟩ := hold d hd
    refine ⟨⟨d₀.id, d₀, hd₀, rfl, hpath⟩, ?_⟩
    have htrue := hsync d hd
    unfold TrueToFile at htrue
    split at htrue
    · exact absurd rfl (htrue d hd)
    · rename_i file hfile
      rw [hfile]
      rfl
  · rintro ⟨⟨docId, d, hd, rfl, rfl⟩, hfile⟩
    obtain ⟨file, hfile⟩ := Option.isSome_iff_exists.1 hfile
    have htrue := htrue d hd
    unfold TrueToFile at htrue
    rw [hfile] at htrue
    obtain ⟨⟨d', hd', -, hpath, -⟩, -⟩ := htrue
    exact ⟨d'.id, d', hd', rfl, hpath⟩

/-- A document that is there after some files were ingested is as it was, or one of them that was
    planned. -/
theorem FilesIngested.kept_or_planned {files : List String} (h : FilesIngested E view m files s s₁)
    {d : Document} (hd : d ∈ s₁.documents.rows) :
    (d ∈ s.documents.rows ∧ (d.filepath ∈ files → Recorded E view s d.filepath)) ∧ SameFor d.id s s₁ ∨
      ∃ file, PlannedFile E view m s₁ d file := by
  rcases h.documents d hd with hold | ⟨-, hplanned⟩
  · have hrecorded : d.filepath ∈ files → Recorded E view s d.filepath := by
      intro hp
      obtain ⟨d', hd', hpath, hhash⟩ := h.recorded _ hp
      obtain rfl := h.wellFormed.paths d' hd' d hd hpath
      exact ⟨d', hold, rfl, hhash⟩
    exact .inl ⟨⟨hold, hrecorded⟩, h.kept d hold hrecorded⟩
  · exact .inr hplanned

/-- A library stays on its way when files are ingested, if each document was, or is of a file that is
    taken up and not recorded as it is now. -/
theorem FilesIngested.allUnderway {files : List String} (h : FilesIngested E view m files s s₁)
    (hall : ∀ d ∈ s.documents.rows, Underway E view vector m d.id d.filepath s ∨
      d.filepath ∈ files ∧ ¬Recorded E view s d.filepath) : AllUnderway E view vector m s₁ := by
  intro d hd
  rcases h.kept_or_planned hd with ⟨⟨hold, hrecorded⟩, hsame⟩ | ⟨file, hplanned⟩
  · refine hsame.underway ((hall d hold).resolve_right fun hnew => ?_)
    exact hnew.2 (hrecorded hnew.1)
  · exact .inl ⟨hplanned.recoverable, d, hd, rfl, rfl⟩

/-- The paths of the library are those before and the files that were taken up. -/
theorem FilesIngested.paths {files : List String} (h : FilesIngested E view m files s s₁) (p : String) :
    (∃ docId, s₁.PathOf docId p) ↔ p ∈ files ∨ ∃ docId, s.PathOf docId p := by
  constructor
  · rintro ⟨docId, d, hd, -, rfl⟩
    rcases h.documents d hd with hold | ⟨⟨hp, -⟩, -⟩
    · exact .inr ⟨d.id, d, hold, rfl, rfl⟩
    · exact .inl hp
  · rintro (hp | ⟨docId, d, hd, -, rfl⟩)
    · obtain ⟨d, hd, hpath, -⟩ := h.recorded p hp
      exact ⟨d.id, d, hd, rfl, hpath⟩
    · obtain ⟨d', hd', -, hpath⟩ := h.ids d hd
      exact ⟨d'.id, d', hd', rfl, hpath⟩

/-! ## The hits of a library in sync -/

section hits
variable {D : Type} {dist : Bytes → Bytes → D} {q : Bytes} {v : VecTable}

/-- The index of a library in sync mirrors the model. -/
theorem InSync.mirrors (hsync : InSync E view vector m s) (hs : WellFormed s)
    (hmodel : ∀ r ∈ s.embeddings.rows, r.modelId = m.id) (hv : s.vec = some v) :
    MirrorsModel s.embeddings v m.id := by
  intro x
  constructor
  · intro hx
    obtain ⟨r, hr, hid, hst, hbytes⟩ := hs.indexed v hv x hx
    exact ⟨r, hr, hid, hst, hmodel r hr, hbytes⟩
  · rintro ⟨r, hr, hid, -, hm, hbytes⟩
    obtain ⟨path, d, hd, hdoc, rfl⟩ := hs.exists_path hr
    have htrue := hsync d hd
    unfold TrueToFile at htrue
    split at htrue
    · exact absurd rfl (htrue d hd)
    · obtain ⟨-, -, hrows⟩ := htrue
      obtain ⟨-, bytes, -, hbytes', hvec⟩ := hrows r hr (Prod.ext hdoc.symm hm)
      obtain rfl := Option.some.inj (hbytes.symm.trans hbytes')
      rw [hid] at hvec
      exact (mem_vecRows_of_some hv).1 hvec

/-- The distances of a file's chunks from a query. -/
def chunkDistances (E : Env) (vector : EmbeddingModel → Bytes → Vector32) (m : EmbeddingModel)
    (dist : Bytes → Bytes → D) (q : Bytes) (path : String) (file : Bytes) : Set D :=
  {x | ∃ c ∈ planRefs E file m, x = dist q (serializeEmbedding (vector m (chunkInput path file c)))}

/-- The hits of a path in the library are the chunks of its file. -/
theorem InSync.distances (hsync : InSync E view vector m s) (hpath : ∃ docId, s.PathOf docId path)
    {file : Bytes} (hfile : view path = some file) :
    {x | ∃ h ∈ s.indexedHits dist q m.id, h.filepath = path ∧ h.distance = x} =
      chunkDistances E vector m dist q path file := by
  have htrue : ∀ d ∈ s.documents.rows, d.filepath = path →
      TrueToFile E view vector m d.id path s := fun d hd heq => heq ▸ hsync d hd
  unfold TrueToFile at htrue
  rw [hfile] at htrue
  ext x
  constructor
  · rintro ⟨h, ⟨r, hr, d, hd, hdoc, hm, -, bytes, hbytes, rfl⟩, hname, rfl⟩
    have hp : r.pair = (d.id, m.id) := Prod.ext hdoc hm
    obtain ⟨-, hrefs, hrows⟩ := htrue d hd hname
    obtain ⟨-, bytes', hvector, hbytes', -⟩ := hrows r hr hp
    obtain rfl := Option.some.inj (hbytes.symm.trans hbytes')
    have hplanned : r.ref ∈ refsOf s.embeddings (d.id, m.id) := ⟨r, hr, hp, rfl⟩
    rw [hrefs] at hplanned
    exact ⟨r.ref, hplanned, by rw [hvector]; rfl⟩
  · rintro ⟨c, hc, rfl⟩
    obtain ⟨docId, d, hd, rfl, hname⟩ := hpath
    obtain ⟨-, hrefs, hrows⟩ := htrue d hd hname
    have hplanned : c ∈ refsOf s.embeddings (d.id, m.id) := by
      rw [hrefs]
      exact hc
    obtain ⟨r, hr, hp, rfl⟩ := hplanned
    obtain ⟨hst, bytes, hvector, hbytes, -⟩ := hrows r hr hp
    refine ⟨_, ⟨r, hr, d, hd, congrArg Prod.fst hp, congrArg Prod.snd hp, hst, bytes, hbytes, rfl⟩,
      hname, ?_⟩
    rw [hvector]
    rfl

/-- A document has as many chunks in the index as its file's plan, at most. -/
theorem InSync.length_indexedChunks (hsync : InSync E view vector m s) {d : Document}
    (hd : d ∈ s.documents.rows) : ∃ file, view d.filepath = some file ∧
      (s.indexedChunks m.id d.id).length ≤ (planRefs E file m).length := by
  have htrue := hsync d hd
  unfold TrueToFile at htrue
  split at htrue
  · exact absurd rfl (htrue d hd)
  · rename_i file hfile
    obtain ⟨-, hrefs, -⟩ := htrue
    refine ⟨file, hfile, ?_⟩
    have hpair : ∀ r ∈ s.indexedChunks m.id d.id, r ∈ s.embeddings.rows ∧ r.pair = (d.id, m.id) := by
      intro r hr
      obtain ⟨hr, hkind⟩ := List.mem_filter.1 hr
      rw [Bool.and_eq_true, decide_eq_true_eq, searchable_iff] at hkind
      exact ⟨hr, Prod.ext hkind.1 hkind.2.1⟩
    have hnodup : ((s.indexedChunks m.id d.id).map (·.ref)).Nodup := by
      refine List.pairwise_map.2 ((s.embeddings.unique.filter _).imp_of_mem ?_)
      intro r r' hr hr' hne href
      have hp := (hpair r hr).2.trans (hpair r' hr').2.symm
      exact hne (Prod.ext hp (congrArg (fun c : ChunkRef => (c.1, c.2.1)) href))
    have hsub : (s.indexedChunks m.id d.id).map (·.ref) ⊆ planRefs E file m := by
      intro c hc
      obtain ⟨r, hr, rfl⟩ := List.mem_map.1 hc
      obtain ⟨hr, hp⟩ := hpair r hr
      have hplanned : r.ref ∈ refsOf s.embeddings (d.id, m.id) := ⟨r, hr, hp, rfl⟩
      rwa [hrefs] at hplanned
    simpa using (hnodup.subperm hsub).length_le

end hits

/-! ## A search of the library -/

section find
variable {D : Type} [LinearOrder D] [Sub D] [Div D] [OfNat D 0] [OfNat D 1] [OfNat D 2]
  {dist : Bytes → Bytes → D} {search : SearchView D} {query : String} {limit : ℕ} {includeLocation : Bool}

/-- What is shown of the first hits: the first documents, as many as the limit allows or the hits tell. -/
theorem collapse_take (all : List (DocumentSearchResult D)) (limit : ℕ) (includeLocation : Bool) :
    ∃ n ≤ limit, (collapseToDocuments (all.take (4 * limit)) limit includeLocation).map
        (fun x => (x.filepath, x.matchScore)) = ((firsts DocumentSearchResult.documentId all).take n).map
          (fun h => (h.filepath, distanceToScore h.distance)) ∧
      ((∀ docId, (all.map DocumentSearchResult.documentId).count docId ≤ 4) →
        ((firsts DocumentSearchResult.documentId all).take n).length = limit ∨
          (firsts DocumentSearchResult.documentId all).take n = firsts DocumentSearchResult.documentId all) := by
  have hprefix : firsts DocumentSearchResult.documentId (all.take (4 * limit)) <+: firsts _ all :=
    firsts_take_prefix all (4 * limit)
  refine ⟨(shown (all.take (4 * limit)) limit).length, List.length_take_le .., ?_, fun hcount => ?_⟩
  · have hshown : shown (all.take (4 * limit)) limit <+: firsts _ all :=
      (List.take_prefix limit _).trans hprefix
    rw [← List.prefix_iff_eq_take.1 hshown, collapseToDocuments_eq, List.map_map]
    rfl
  · have hmin : min limit _ ≤ _ := le_length_firsts_take hcount
    have hle := hprefix.length_le
    have hlen : (shown (all.take (4 * limit)) limit).length = min limit _ := List.length_take
    rw [List.length_take]
    rcases le_total limit (firsts DocumentSearchResult.documentId all).length with h | h
    · exact .inl (by omega)
    · exact .inr (List.take_of_length_le (by omega))

/-- The distance of a file of the library: that of its nearest chunk. -/
def LibraryDistance (E : Env) (view : View) (vector : EmbeddingModel → Bytes → Vector32) (m : EmbeddingModel)
    (dist : Bytes → Bytes → D) (q : Bytes) (library : Set String) (path : String) (x : D) : Prop :=
  path ∈ library ∧ ∃ file, view path = some file ∧ IsLeast (chunkDistances E vector m dist q path file) x

/-- The results are the closest files of the library, with the scores of their distances: as many as the
    limit and the library allow, where no file has more than four chunks. -/
def AnswersFrom (E : Env) (view : View) (vector : EmbeddingModel → Bytes → Vector32) (m : EmbeddingModel)
    (dist : Bytes → Bytes → D) (q : Bytes) (library : Set String) (limit : ℕ)
    (results : List (SearchDocumentResult D)) : Prop :=
  ∃ found : List (String × D), found.length ≤ limit ∧
    results.map (fun x => (x.filepath, x.matchScore)) = found.map (fun x => (x.1, distanceToScore x.2)) ∧
    Closest (LibraryDistance E view vector m dist q library) found ∧
    ((∀ p ∈ library, ∀ file, view p = some file → (planRefs E file m).length ≤ 4) →
      found.length = limit ∨ ∀ p ∈ library, p ∈ found.map Prod.fst)

/-- The paths of the documents. -/
def Store.library (s : Store) : Set String := {p | ∃ docId, s.PathOf docId p}

omit [LinearOrder D] [Sub D] [Div D] [OfNat D 0] [OfNat D 1] [OfNat D 2] in
/-- A hit's path tells its document. -/
theorem WellFormed.filepath_eq_iff (hs : WellFormed s) {q : Bytes} : ∀ a ∈ s.indexedHits dist q m.id,
    ∀ b ∈ s.indexedHits dist q m.id, a.filepath = b.filepath ↔ a.documentId = b.documentId := by
  rintro _ ⟨r, -, d, hd, -, -, -, -, -, rfl⟩ _ ⟨r', -, d', hd', -, -, -, -, -, rfl⟩
  constructor
  · intro hname
    rw [show d = d' from hs.paths d hd d' hd' hname]
    rfl
  · intro hid
    rw [show d = d' from AutoTable.eq_of_key hd hd' hid]
    rfl

omit [LinearOrder D] [Sub D] [Div D] [OfNat D 0] [OfNat D 1] [OfNat D 2] in
/-- Every document of a library in sync has a hit. -/
theorem InSync.exists_hit (hsync : InSync E view vector m s) {q : Bytes} {p : String} (hp : p ∈ s.library) :
    ∃ h ∈ s.indexedHits dist q m.id, h.filepath = p := by
  obtain ⟨docId, d, hd, hid, hname⟩ := hp
  obtain ⟨file, hfile, -⟩ := hsync.length_indexedChunks hd
  have hchunk : dist q (serializeEmbedding (vector m (chunkInput p file (.filename, 0, 0)))) ∈
      chunkDistances E vector m dist q p file := ⟨_, filename_mem_planned, rfl⟩
  rw [← hsync.distances ⟨docId, d, hd, hid, hname⟩ (hname ▸ hfile)] at hchunk
  obtain ⟨h, hh, hpath, -⟩ := hchunk
  exact ⟨h, hh, hpath⟩

omit [Sub D] [Div D] [OfNat D 0] [OfNat D 1] [OfNat D 2] in
/-- The first documents of a ranking of a library in sync are its closest files. -/
theorem InSync.closest {q : Bytes} {R : List (DocumentSearchResult D)} (hsync : InSync E view vector m s)
    (hs : WellFormed s) (hR : DocumentRanking (s.indexedHits dist q m.id) R) (n : ℕ) :
    Closest (LibraryDistance E view vector m dist q s.library)
      ((R.take n).map fun h => (h.filepath, h.distance)) := by
  have hdistance : LibraryDistance E view vector m dist q s.library = fun p x =>
      IsLeast {x | ∃ h ∈ s.indexedHits dist q m.id, h.filepath = p ∧ h.distance = x} x := by
    ext p x
    constructor
    · rintro ⟨hp, file, hfile, hleast⟩
      rwa [hsync.distances hp hfile]
    · intro hleast
      obtain ⟨h, hh, hname, -⟩ := hleast.1
      obtain ⟨r, -, d, hd, -, -, -, _, -, rfl⟩ := hh
      have hp : p ∈ s.library := ⟨d.id, d, hd, rfl, hname⟩
      obtain ⟨file, hfile, -⟩ := hsync.length_indexedChunks hd
      have hfile : view p = some file := hname ▸ hfile
      rw [hsync.distances hp hfile] at hleast
      exact ⟨hp, file, hfile, hleast⟩
  rw [hdistance]
  refine hR.closest (fun a b hlt => ?_) hs.filepath_eq_iff n
  exact (Prod.Lex.toLex_lt_toLex.1 hlt).elim le_of_lt fun heq => heq.1.le

omit [LinearOrder D] [Sub D] [Div D] [OfNat D 0] [OfNat D 1] [OfNat D 2] in
theorem loadActiveModel_of_mem {state : SearchState} (hm : m ∈ s.models.rows)
    (hstate : s.searchState = some state) (hid : state.activeModelId = m.id) :
    (loadActiveModel s).result = .ok m :=
  (loadActiveModel_ok hstate (AutoTable.get?_eq_some.2 ⟨hm, hid.symm⟩)).1

/-- A search that returns embedded its query for the model that is active. -/
theorem ok_searchDocuments_model (hload : search.load = .ok s)
    (hmodel : (loadActiveModel s).result = .ok m) (hquery : search.query = .ok s₁)
    {results : List (SearchDocumentResult D)}
    (h : searchDocuments search query limit includeLocation = .ok results) :
    ∃ queryVector rest hits s', search.embed m [query] = .ok (queryVector :: rest) ∧
      (searchDocumentsByEmbedding search.matchRows m queryVector (expandedRawLimit limit)).Ok s₁ hits s' ∧
      results = collapseToDocuments hits limit includeLocation := by
  unfold searchDocuments at h
  simp only [bind_eq_ok, mapError_eq_ok] at h
  obtain ⟨s₀, hs₀, m₀, hm₀, vectors, hembed, h⟩ := h
  obtain rfl := Except.ok.inj (hload.symm.trans hs₀)
  obtain rfl := Except.ok.inj (hmodel.symm.trans hm₀)
  cases vectors with
  | nil => cases h
  | cons queryVector rest =>
    simp only [List.head?_cons, bind_eq_ok, mapError_eq_ok] at h
    obtain ⟨s₂, hs₂, hits, hhits, h⟩ := h
    obtain rfl := Except.ok.inj (hquery.symm.trans hs₂)
    exact ⟨queryVector, rest, hits, _, hembed, ⟨hhits, rfl⟩, (Except.ok.inj h).symm⟩

/-- A search that returns found the closest files of the library. -/
theorem InSync.found (hsync : InSync E view vector m s) (hs : WellFormed s)
    (hmodel : ∀ r ∈ s.embeddings.rows, r.modelId = m.id) (hm : m ∈ s.models.rows)
    (hactive : ∃ state, s.searchState = some state ∧ state.activeModelId = m.id)
    (hnear : Nearest dist search.matchRows) (hlimit : 0 < limit) (hmax : limit ≤ 100)
    (hload : search.load = .ok s) (hquery : search.query = .ok s) {results : List (SearchDocumentResult D)}
    (h : searchDocuments search query limit includeLocation = .ok results) :
    ∃ queryVector rest, search.embed m [query] = .ok (queryVector :: rest) ∧
      AnswersFrom E view vector m dist (serializeEmbedding queryVector) s.library limit results := by
  obtain ⟨state, hstate, hid⟩ := hactive
  obtain ⟨queryVector, rest, hits, s', hembed, hhits, rfl⟩ :=
    ok_searchDocuments_model hload (loadActiveModel_of_mem hm hstate hid) hquery h
  refine ⟨queryVector, rest, hembed, ?_⟩
  rw [expandedRawLimit_eq hmax] at hhits
  obtain ⟨_, v, rows, -, -, hv, hrows, rfl⟩ := ok_searchDocumentsByEmbedding (by omega) hhits
  have hmirror : MirrorsModel s.embeddings v m.id := hsync.mirrors hs hmodel hv
  rw [hits_of_nearest hmirror hs.foreignKeys (hnear _ _ _ _ hrows)]
  set all := s.allHits v dist (serializeEmbedding queryVector) m.id
  have hR : DocumentRanking (s.indexedHits dist (serializeEmbedding queryVector) m.id)
      (firsts DocumentSearchResult.documentId all) := ranking_allHits hmirror
  obtain ⟨n, hn, hshown, hfull⟩ := collapse_take all limit includeLocation
  refine ⟨_, ?_, ?_, hsync.closest hs hR n, fun hfew => ?_⟩
  · rw [List.length_map]
    exact (List.length_take_le ..).trans hn
  · rw [hshown, List.map_map]
    rfl
  · have hcount : ∀ docId, (all.map DocumentSearchResult.documentId).count docId ≤ 4 := by
      refine count_allHits_le_of_few hmirror fun d hd => ?_
      obtain ⟨file, hfile, hle⟩ := hsync.length_indexedChunks hd
      exact hle.trans (hfew d.filepath ⟨d.id, d, hd, rfl, rfl⟩ file hfile)
    rw [List.length_map]
    refine (hfull hcount).imp_right fun hall p hp => ?_
    obtain ⟨h, hh, hpath⟩ := hsync.exists_hit hp
    obtain ⟨a, ha, hdoc⟩ := hR.complete h hh
    rw [hall, List.map_map]
    exact List.mem_map.2 ⟨a, ha, ((hs.filepath_eq_iff a (hR.best a ha).1 h hh).2 hdoc).trans hpath⟩

/-! ## An ingest job, its rounds, and a search -/

/-- What is in the library when a job's files were taken up and embedded: those files and the documents
    of before, as far as the files are there. -/
def libraryAfter (view : View) (s : Store) (files : List String) : Set String :=
  {p | (p ∈ files ∨ p ∈ s.library) ∧ (view p).isSome = true}

/-- **A search finds the closest files**: when the rounds after an ingest job have emptied the queue, the
    library holds the job's files and those of before that are still there, each as it is now, and a
    search answers with the files whose nearest chunks are nearest to the query. -/
theorem library_searched {w w' : World} {entry : JobQueueEntry} {route : IngestRoute}
    {payload : IngestFolderPayload} {isMatch : String → Bool} {fuel : ℕ} {files : List String}
    {rounds : List (ℤ × Except AnyError Unit)} (hs : WellFormed w.store)
    (hty : entry.jobType = route.jobType) (hdecode : E.decodeIngestPayload entry.payload = .ok payload)
    (hmatch : E.compilePattern payload.filePattern = .ok isMatch) (hm : m ∈ w.store.models.rows)
    (hfiles : host.jobFiles fuel route payload isMatch = some files)
    (hlibrary : ∀ d ∈ w.store.documents.rows, Underway E host.view vector m d.id d.filepath w.store ∨
      d.filepath ∈ files ∧ ¬Recorded E host.view w.store d.filepath)
    (hdrains : Drainable E host.view vector m { w.store with jobs := completeJob w.store.jobs entry.id })
    (hvec : w.store.vec.isSome = true)
    (hactive : ∃ updatedAt, w.store.searchState = some ⟨m.id, m.dimensions, updatedAt⟩)
    (hembed : DecodesMembers E.decodeEmbedPayload) (hmodel : IsI64 m.id) (hentry : entry ∈ w.store.jobs.rows)
    (h : host.Done (dispatchJob E entry m.id) w () w') (hids : ∀ d ∈ w'.store.documents.rows, IsI64 d.id)
    (hrounds : Run (Tick E host.view vector modelId) w'.store rounds s') (hempty : s'.jobs.rows = [])
    (hnear : Nearest dist search.matchRows) (hlimit : 0 < limit) (hmax : limit ≤ 100)
    (hload : search.load = .ok s') (hquery : search.query = .ok s') :
    (InSync E host.view vector m s' ∧ s'.library = libraryAfter host.view w.store files) ∧
    (∀ results, searchDocuments search query limit includeLocation = .ok results →
      ∃ queryVector rest, search.embed m [query] = .ok (queryVector :: rest) ∧
        AnswersFrom E host.view vector m dist (serializeEmbedding queryVector)
          (libraryAfter host.view w.store files) limit results) ∧
    ∀ queryVector rest, search.embed m [query] = .ok (queryVector :: rest) →
      (queryVector.length : ℤ) = m.dimensions →
      (∀ v, ∃ rows, search.matchRows v (serializeEmbedding queryVector) (expandedRawLimit limit) = .ok rows) →
      ∃ results, searchDocuments search query limit includeLocation = .ok results := by
  obtain ⟨fuel', files', s₁, hfiles', hrun, hstore⟩ := run_of_done_dispatch hty hdecode hmatch hm h
  obtain rfl := jobFiles_unique hfiles hfiles'
  have hjob := jobType_ne_embed hty
  rw [hstore] at hrounds hids
  have hdrains' := drainable_run hentry hjob hrun hs hembed hids hmodel hdrains
  have hingested := (filesIngested_run hrun hs).completed hentry hjob
  have hvec' : ({ s₁ with jobs := completeJob s₁.jobs entry.id } : Store).vec.isSome = true := by
    have hdim := congrArg Option.isSome hingested.dimensions
    rw [Option.isSome_map, Option.isSome_map] at hdim
    exact hdim.trans hvec
  obtain ⟨hsync, hpaths⟩ := hdrains'.inSync hvec' (hingested.allUnderway hlibrary) hrounds hempty
  have heq : s'.library = libraryAfter host.view w.store files := by
    ext p
    exact (hpaths p).trans (and_congr_left fun _ => hingested.paths p)
  obtain ⟨-, hstate, hvec''⟩ := hdrains'.run_frame hrounds
  obtain ⟨updatedAt, hactive⟩ := hactive
  have hactive' : s'.searchState = some ⟨m.id, m.dimensions, updatedAt⟩ :=
    hstate.trans (hingested.searchState.trans hactive)
  have hend := (hdrains'.run hrounds).1
  refine ⟨⟨hsync, heq⟩, fun results hresults => ?_, fun queryVector rest hvector hlen hrows => ?_⟩
  · rw [← heq]
    exact hsync.found hend.wellFormed hend.ofModel hend.fits.mem ⟨_, hactive', rfl⟩ hnear hlimit hmax hload
      hquery hresults
  · obtain ⟨v, hv⟩ := Option.isSome_iff_exists.1 (hvec''.trans hvec')
    obtain ⟨rows, hrows⟩ := hrows v
    have hanswerable : Answerable search s' query limit m queryVector :=
      ⟨⟨s', _, hload, hactive', AutoTable.get?_eq_some.2 ⟨hend.fits.mem, rfl⟩⟩, ⟨rest, hvector⟩, hlen,
        ⟨updatedAt, hactive'⟩, v, rows, hv, hrows⟩
    exact hanswerable.exists_results hquery

end find

/-! ## A library with several files -/

/-- Files in `/old`, and files in `/srv`, of which one was edited. -/
def libraryEntries (edited : Bool) : List (List String × Node String Bytes) :=
  [([], .dir), (["old"], .dir), (["old", "e.txt"], .file [0x61]), (["old", "f.txt"], .file fourBytes),
    (["srv"], .dir), (["srv", "a.txt"], .file (if edited then fourBytes else [0x61])),
    (["srv", "b.txt"], .file [0x62]), (["srv", "sub"], .dir), (["srv", "sub", "c.txt"], .file eightBytes)]

/-- The walk of `/srv`. -/
def libraryWalk : List DirEntry :=
  [⟨"/srv", some false⟩, ⟨"/srv/b.txt", some true⟩, ⟨"/srv/sub", some false⟩, ⟨"/srv/sub/c.txt", some true⟩,
    ⟨"/srv/a.txt", some true⟩]

/-- A host with three text files below `/srv`, before or after an edit. -/
def libraryHost (edited : Bool) : Host where
  tree := FileTree.ofEntries (libraryEntries edited) rfl (by revert edited; decide)
  valid names h := by
    obtain ⟨e, he, rfl⟩ := FileTree.exists_mem_of_lookup h
    have hvalid : ∀ edited, ∀ e ∈ libraryEntries edited, ∀ n ∈ e.1, ValidName n := by decide
    exact hvalid edited e he
  named names h := by
    obtain ⟨e, he, rfl⟩ := FileTree.exists_mem_of_lookup h
    have htext : ∀ edited, ∀ e ∈ libraryEntries edited, ∀ n ∈ e.1, TextName n := by decide
    exact htext edited e he
  cwd := []
  cwd_dir := rfl
  readDir _ := .ok []
  revParse _ := .error "not a repository"
  lsFiles _ := .error "not a repository"
  walk root := if root = "/srv" then libraryWalk.map .ok else []
  walk_file root entry hroot hmem hfile := by
    obtain ⟨e, he, rfl⟩ := FileTree.exists_mem_of_lookup (p := root) (fun h => by cases h.symm.trans hroot)
    split_ifs at hmem with hsrv
    · have hroots : ∀ edited, ∀ e ∈ libraryEntries edited, pathText e.1 = "/srv" → e.1 = ["srv"] := by
        decide +kernel
      have hfiles : ∀ edited, ∀ entry ∈ libraryWalk, entry.isFile = some true → ∃ e ∈ libraryEntries edited,
          ["srv"] <+: e.1 ∧ entry.path = pathText e.1 ∧ ∃ content ∈ [[0x61], [0x62], fourBytes, eightBytes],
            (libraryEntries edited).lookup e.1 = some (.file content) := by
        decide +kernel
      obtain ⟨entry', hentry, heq⟩ := List.mem_map.1 hmem
      cases heq
      obtain ⟨e', -, ⟨names, hnames⟩, hpath, content, -, hcontent⟩ := hfiles edited entry hentry hfile
      rw [hroots edited e he hsrv]
      exact ⟨names, content, hpath.trans (congrArg pathText hnames.symm),
        (congrArg (fun p => List.lookup p (libraryEntries edited)) hnames).trans hcontent⟩
    · cases hmem

/-- The rest of the world while jobs run. -/
def libraryOutside (edited : Bool) (time : ℤ) : Outside :=
  { sampleOutside none time with view := (libraryHost edited).view }

/-- The chunks planned for a file. -/
def libraryPlan (file : Bytes) : List ChunkRef := planRefs syncEnv file embeddedModel

/-- The document of that file is upserted with its plan. -/
def libraryUpsert (path : String) (file : Bytes) : StoreOp :=
  .db (.upsertDocument { sampleDocument with filepath := path, fileHash := syncEnv.hash file } 1
    (libraryPlan file) 20)

/-- The document of that file is embedded. -/
def libraryEmbed (docId : ℤ) (path : String) (file : Bytes) : StoreOp :=
  .db (.replaceEmbeddings docId 1 ((libraryPlan file).map fun ref =>
    ⟨ref.1, ref.2.1, ref.2.2, serializeEmbedding (sampleVector (chunkInput path file ref))⟩) 20)

/-- A server starts and claims the job of `/srv`.  One of its files is in the library as it was before it
    was edited; beside it there are a file with work left, a file that is embedded, and one that is gone. -/
def libraryCalls : List StoreOp :=
  [.reconcile (fun _ => none) sampleModel 0, .activate embeddedModel 0,
    .enqueue .ingestFolder (ingestPayloadJson linkPayload) 5, .claim 10,
    libraryUpsert "/srv/a.txt" [0x61], libraryEmbed 1 "/srv/a.txt" [0x61],
    libraryUpsert "/old/e.txt" [0x61],
    libraryUpsert "/old/f.txt" fourBytes, libraryEmbed 3 "/old/f.txt" fourBytes,
    libraryUpsert "/old/x.txt" [0x62]]

/-- The store with its earlier documents and the job. -/
@[irreducible] def libraryStore : Store := (callStores syncEnv libraryCalls .empty).getD .empty

/-- The folder job, as claimed. -/
def libraryEntry : JobQueueEntry := ⟨1, .ingestFolder, ingestPayloadJson linkPayload, some 10, 5⟩

theorem decode_library : syncEnv.decodeIngestPayload libraryEntry.payload = .ok linkPayload := decode_link

/-- The files of the job, in the walk's order. -/
def libraryFiles : List String := ["/srv/b.txt", "/srv/sub/c.txt", "/srv/a.txt"]

/-- A dispatch of the folder job, run. -/
def playFolder (edited : Bool) (entry : JobQueueEntry) (s : Store) : Option World :=
  match (dispatchJob syncEnv entry 1).play
      (fun _ w r => (libraryHost edited).reply (libraryOutside edited 20) 0 w r) 0 ⟨s, [], []⟩ with
  | some (.ok (), w) => some w
  | _ => none

theorem done_of_playFolder {edited : Bool} {entry : JobQueueEntry} {s : Store} {w : World}
    (h : playFolder edited entry s = some w) :
    (libraryHost edited).Done (dispatchJob syncEnv entry 1) ⟨s, [], []⟩ () w := by
  unfold playFolder at h
  split at h
  · rename_i w₁ hplay
    cases h
    refine Proc.runs_play (fun _ w r out hr => ?_) hplay
    exact Host.answers_of_reply rfl hr
  · cases h

/-- The rounds of these times. -/
def playTicks (o : Outside) : List ℤ → Store → Option Store
  | [], s => some s
  | now :: times, s => (playTick syncEnv o s now).bind (playTicks o times)

theorem run_of_playTicks {o : Outside} (hembed : ∀ model inputs, o.embed model inputs = inputs.map sampleVector) :
    ∀ {times : List ℤ} {s s' : Store}, playTicks o times s = some s' →
      Run (Tick syncEnv o.view (fun _ => sampleVector) 1) s (times.map fun now => (now, .ok ())) s'
  | [], _, _, h => by
      cases h
      exact .nil _
  | now :: times, s, s', h => by
      obtain ⟨s₁, hs₁, h⟩ := Option.bind_eq_some_iff.1 h
      exact .cons (tick_of_playTick hembed hs₁) (run_of_playTicks hembed h)

theorem run_libraryStore : Run (StoreStep syncEnv) .empty libraryCalls libraryStore := by
  obtain ⟨s, hs⟩ := Option.isSome_iff_exists.1
    (by decide +kernel : (callStores syncEnv libraryCalls .empty).isSome = true)
  have heq : libraryStore = s := by
    unfold libraryStore
    exact Option.getD_eq_iff.2 (.inl hs)
  rw [heq]
  exact run_of_callStores hs

/-- The pair's rows are those planned for the file. -/
theorem refsOf_eq_plan {s : Store} {p : Pair} {refs : List ChunkRef}
    (h : ((s.embeddings.rows.filter fun r => r.pair = p).map (·.ref)).Perm refs) :
    refsOf s.embeddings p = {c | c ∈ refs} := by
  ext c
  refine Iff.trans ?_ h.mem_iff
  simp only [refsOf, Set.mem_ofPred_eq, List.mem_map, List.mem_filter, decide_eq_true_eq, and_assoc]

theorem drainable_library : Drainable syncEnv (libraryHost true).view (fun _ => sampleVector) embeddedModel
    { libraryStore with jobs := completeJob libraryStore.jobs libraryEntry.id } := by
  have hrows : ∀ r ∈ libraryStore.embeddings.rows, r.modelId = embeddedModel.id := by decide +kernel
  have hplans : ∀ d ∈ libraryStore.documents.rows, ((libraryHost true).view d.filepath).all (fun file =>
      decide (syncEnv.hash file = d.fileHash → ((libraryStore.embeddings.rows.filter fun r =>
        r.pair = (d.id, embeddedModel.id)).map (·.ref)).Perm (libraryPlan file))) = true := by
    decide +kernel
  have hjobs : ∀ k ∈ asked (completeJob libraryStore.jobs libraryEntry.id), ∃ docId ∈ [1, 2, 3, 4],
      k = embedJobKey (docId, 1) ∧ (sampleDecode k.2).toOption = some ⟨docId, 1⟩ := by
    decide +kernel
  have hqueued : ∀ p ∈ libraryStore.recoverablePairs,
      embedJobKey p ∈ asked (completeJob libraryStore.jobs libraryEntry.id) := by
    decide +kernel
  have hvec : (libraryStore.vec.all fun v => v.dimensions = 1) = true := by decide +kernel
  refine ⟨(wellFormed_run run_libraryStore).completed _, ⟨by decide +kernel, by decide, fun _ => rfl, ?_⟩, hrows,
    ?_, ?_, hqueued⟩
  · intro v hv
    rw [show libraryStore.vec = some v from hv, Option.all_some] at hvec
    exact of_decide_eq_true hvec
  · intro d hd file hfile hhash
    have hplan := hplans d hd
    rw [hfile, Option.all_some] at hplan
    exact .inr (refsOf_eq_plan (of_decide_eq_true hplan hhash))
  · intro k hk
    obtain ⟨docId, -, hkey, hdecode⟩ := hjobs k hk
    exact ⟨docId, hkey, toOption_eq_some.1 hdecode⟩

/-- The embedded file is in the library as it is. -/
theorem trueToFile_library : TrueToFile syncEnv (libraryHost true).view (fun _ => sampleVector) embeddedModel 3
    "/old/f.txt" libraryStore := by
  have hview : (libraryHost true).view "/old/f.txt" = some fourBytes := by decide +kernel
  have hrows : ∀ r ∈ libraryStore.embeddings.rows, r.pair = (3, embeddedModel.id) → r.state = .embedded ∧
      r.embedding = some (serializeEmbedding (sampleVector (chunkInput "/old/f.txt" fourBytes r.ref))) ∧
        (r.id, serializeEmbedding (sampleVector (chunkInput "/old/f.txt" fourBytes r.ref))) ∈
          libraryStore.vecRows := by
    decide +kernel
  unfold TrueToFile
  rw [hview]
  refine ⟨by decide +kernel, refsOf_eq_plan (by decide +kernel), fun r hr hp => ?_⟩
  obtain ⟨hstate, hembedding, hvec⟩ := hrows r hr hp
  exact ⟨hstate, _, rfl, hembedding, hvec⟩

/-- Each document of the library has work left, is true to its file, or is to be ingested again. -/
theorem underway_library : ∀ d ∈ libraryStore.documents.rows,
    Underway syncEnv (libraryHost true).view (fun _ => sampleVector) embeddedModel d.id d.filepath libraryStore ∨
      d.filepath ∈ libraryFiles ∧ ¬Recorded syncEnv (libraryHost true).view libraryStore d.filepath := by
  have hcases : ∀ d ∈ libraryStore.documents.rows,
      (d.id, embeddedModel.id) ∈ libraryStore.recoverablePairs ∨ (d.id = 3 ∧ d.filepath = "/old/f.txt") ∨
        d.filepath ∈ libraryFiles ∧ ∀ d' ∈ libraryStore.documents.rows, d'.filepath = d.filepath →
          ((libraryHost true).view d.filepath).map syncEnv.hash ≠ some d'.fileHash := by
    decide +kernel
  intro d hd
  rcases hcases d hd with hleft | ⟨hid, hpath⟩ | ⟨hmem, hchanged⟩
  · exact .inl (.inl ⟨hleft, d, hd, rfl, rfl⟩)
  · rw [hid, hpath]
    exact .inl (.inr trueToFile_library)
  · refine .inr ⟨hmem, ?_⟩
    rintro ⟨d', hd', hpath', hhash⟩
    exact hchanged d' hd' hpath' hhash

/-- An edited file and two new ones beside a file with work left, one that is embedded and one that is gone:
    five files are found, the two nearest of them by a search for two. -/
theorem sample_library_searched : ∃ (w : World) (s' : Store) (results : List (SearchDocumentResult ℚ)),
    (libraryHost true).Done (dispatchJob syncEnv libraryEntry 1) ⟨libraryStore, [], []⟩ () w ∧
    Run (Tick syncEnv (libraryHost true).view (fun _ => sampleVector) 1) w.store
      ([60, 61, 62, 63, 64, 65].map fun now => (now, .ok ())) s' ∧
    (s'.documents.rows.map Document.filepath =
        ["/srv/a.txt", "/old/e.txt", "/old/f.txt", "/srv/b.txt", "/srv/sub/c.txt"] ∧
      s'.library = libraryAfter (libraryHost true).view libraryStore libraryFiles) ∧
    searchDocuments (sampleSearch s') "q" 2 true = .ok results ∧
    results.map (fun x => (x.filepath, x.matchScore)) = [("/srv/b.txt", 37 / 40), ("/old/e.txt", 23 / 25)] ∧
    AnswersFrom syncEnv (libraryHost true).view (fun _ => sampleVector) embeddedModel sampleDist
      (serializeEmbedding (sampleVector (utf8Bytes "q")))
      (libraryAfter (libraryHost true).view libraryStore libraryFiles) 2 results := by
  have hplay : ((playFolder true libraryEntry libraryStore).any fun w =>
      (w.store.documents.rows.all fun d => decide (d.id ≤ 6 ∧ 0 ≤ d.id)) &&
        (playTicks (libraryOutside true 40) [60, 61, 62, 63, 64, 65] w.store).any fun s' =>
          decide (s'.jobs.rows = [] ∧ s'.documents.rows.map Document.filepath =
            ["/srv/a.txt", "/old/e.txt", "/old/f.txt", "/srv/b.txt", "/srv/sub/c.txt"]) &&
          (searchDocuments (sampleSearch s') "q" 2 true).toOption.any fun results =>
            decide (results.map (fun x => (x.filepath, x.matchScore)) =
              [("/srv/b.txt", 37 / 40), ("/old/e.txt", 23 / 25)])) = true := by
    decide +kernel
  obtain ⟨w, hw, hplay⟩ := (Option.any_eq_true _ _).1 hplay
  obtain ⟨hids, hplay⟩ := Bool.and_eq_true_iff.1 hplay
  obtain ⟨s', hs', hplay⟩ := (Option.any_eq_true _ _).1 hplay
  obtain ⟨hend, hplay⟩ := Bool.and_eq_true_iff.1 hplay
  obtain ⟨results, hresults, hfound⟩ := (Option.any_eq_true _ _).1 hplay
  obtain ⟨hempty, hpaths⟩ := of_decide_eq_true hend
  have hfiles : (libraryHost true).jobFiles 0 .ingest linkPayload (fun _ => true) = some libraryFiles := by
    decide +kernel
  have hjob : libraryEntry ∈ libraryStore.jobs.rows := by decide +kernel
  have hvec : libraryStore.vec.isSome = true := by decide +kernel
  have hactive : libraryStore.searchState = some ⟨1, 1, 0⟩ := by decide +kernel
  have hty : libraryEntry.jobType = IngestRoute.ingest.jobType := rfl
  have hdone := done_of_playFolder hw
  have hrounds := run_of_playTicks (o := libraryOutside true 40) (fun _ _ => rfl) hs'
  have hok : searchDocuments (sampleSearch s') "q" 2 true = .ok results := toOption_eq_some.1 hresults
  obtain ⟨⟨-, hlibrary⟩, hall, -⟩ := library_searched (w := ⟨libraryStore, [], []⟩)
    (wellFormed_run run_libraryStore) hty decode_library match_sync drainable_library.fits.mem hfiles
    underway_library drainable_library hvec ⟨0, hactive⟩ sampleDecode_decodesMembers
    ⟨by decide, by decide⟩ hjob hdone
    (fun d hd => by
      obtain ⟨hle, hpos⟩ := of_decide_eq_true (List.all_eq_true.1 hids d hd)
      exact ⟨by omega, by omega⟩)
    hrounds hempty (nearest_sampleSearch s') (show 0 < 2 by decide) (by decide) rfl rfl
  obtain ⟨queryVector, rest, hembed, hanswers⟩ := hall results hok
  cases hembed
  exact ⟨w, s', results, hdone, hrounds, ⟨hpaths, hlibrary⟩, hok, of_decide_eq_true hfound, hanswers⟩

end Ask
