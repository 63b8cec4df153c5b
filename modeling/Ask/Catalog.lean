/-
  The store seen from outside: what it holds under each path, without the ids
  it gives out, and what ingesting a file does to that.
-/
import Ask.FrameLaw
import Ask.Lib.Keyed

namespace Ask

open Lib

/-- A queued job for a document, by the document's path. -/
structure PathJob where
  path : String
  modelId : ℤ
  claimedAt : Option ℤ
  createdAt : ℤ

/-- What a store holds, up to the ids of documents, rows and jobs: documents; rows, vectors and jobs
    of each path; the jobs of no document, the models, the active one and the table's dimension. -/
@[ext]
structure Catalog where
  documents : Set Document
  rows : Set (String × DocumentEmbedding)
  vectors : Set (String × ℤ × ChunkType × ℤ × Bytes)
  jobs : Set PathJob
  others : Set JobQueueEntry
  models : Models
  searchState : Option SearchState
  dimensions : Option ℕ

/-- Of the chunks with its type and start the last: a later chunk overwrites an earlier one. -/
def LastChunk (chunks : List ChunkRef) (c : ChunkRef) : Prop :=
  ∃ l l', chunks = l ++ c :: l' ∧ ∀ c' ∈ l', (c'.1, c'.2.1) ≠ (c.1, c.2.1)

theorem LastChunk.mem {chunks : List ChunkRef} {c : ChunkRef} (h : LastChunk chunks c) : c ∈ chunks := by
  obtain ⟨l, l', rfl, -⟩ := h
  exact List.mem_append_right l List.mem_cons_self

theorem LastChunk.cons {chunks : List ChunkRef} {c : ChunkRef} (h : LastChunk chunks c) (a : ChunkRef) :
    LastChunk (a :: chunks) c := by
  obtain ⟨l, l', rfl, hlast⟩ := h
  exact ⟨a :: l, l', rfl, hlast⟩

/-- Every chunk gives way to a last one. -/
theorem exists_lastChunk {chunks : List ChunkRef} {c : ChunkRef} (h : c ∈ chunks) :
    ∃ c', LastChunk chunks c' ∧ (c'.1, c'.2.1) = (c.1, c.2.1) := by
  induction chunks generalizing c with
  | nil => exact absurd h List.not_mem_nil
  | cons a chunks ih =>
    by_cases hrest : ∃ c₁ ∈ chunks, (c₁.1, c₁.2.1) = (c.1, c.2.1)
    · obtain ⟨c₁, hc₁, hkey₁⟩ := hrest
      obtain ⟨c', hc', hkey⟩ := ih hc₁
      exact ⟨c', hc'.cons a, hkey.trans hkey₁⟩
    · push Not at hrest
      obtain rfl | h := List.mem_cons.1 h
      · exact ⟨c, ⟨[], chunks, rfl, hrest⟩, rfl⟩
      · exact absurd rfl (hrest c h)

/-- How jobs of paths are seeded at one time. -/
def pathSeeder (now : ℤ) : Seeder PathJob (String × ℤ) where
  key j := (j.path, j.modelId)
  renew j := if j.claimedAt.any (· < now - staleJobAgeSecs) then
    { j with claimedAt := none, createdAt := now } else j
  fresh k := ⟨k.1, k.2, none, now⟩
  key_renew j := by split_ifs <;> rfl
  key_fresh _ := rfl
  renew_renew j := by
    by_cases h : j.claimedAt.any (· < now - staleJobAgeSecs)
    · simp only [if_pos h]
      rfl
    · simp only [if_neg h]
  renew_fresh _ := rfl

namespace Catalog

/-- The content is the one recorded under the path. -/
def Knows (c : Catalog) (doc : Document) : Prop :=
  ∃ d ∈ c.documents, d.filepath = doc.filepath ∧ d.fileHash = doc.fileHash

/-- The pairs that an ingest asks jobs for: those with work left, and those of its path. -/
def touched (c : Catalog) (modelId : ℤ) (path : String) (chunks : List ChunkRef) : Set (String × ℤ) :=
  {k | (∃ r, (k.1, r) ∈ c.rows ∧ r.modelId = k.2 ∧ (r.state ≠ .embedded ∨ k.1 = path)) ∨
    k = (path, modelId) ∧ chunks ≠ []}

/-- A path's document is written, its rows under the model are the chunks, the others stale. -/
def write (modelId now : ℤ) (c : Catalog) (doc : Document) (chunks : List ChunkRef) : Catalog where
  documents := updateAt Document.filepath doc.filepath (fun _ => {{ doc with id := 0 }}) c.documents
  rows := updateAt Prod.fst doc.filepath (fun rows =>
    {x | (∃ r, x.2 = staleOf r ∧ (x.1, r) ∈ rows ∧ r.modelId ≠ modelId) ∨
      ∃ ch, LastChunk chunks ch ∧ x.2 = pendingRow 0 modelId now ch 0}) c.rows
  vectors := updateAt Prod.fst doc.filepath (fun _ => ∅) c.vectors
  jobs := (pathSeeder now).seed (c.touched modelId doc.filepath chunks) c.jobs
  others := c.others
  models := c.models
  searchState := c.searchState
  dimensions := c.dimensions

open Classical in
/-- Ingesting a file: nothing, if its content is the one recorded. -/
noncomputable def ingest (modelId now : ℤ) (c : Catalog) (file : Document × List ChunkRef) : Catalog :=
  if c.Knows file.1 then c else c.write modelId now file.1 file.2

variable {c : Catalog} {modelId now : ℤ} {doc doc' : Document} {chunks chunks' : List ChunkRef}

theorem mem_documents_write {d : Document} : d ∈ (c.write modelId now doc chunks).documents ↔
    (d ∈ c.documents ∧ d.filepath ≠ doc.filepath) ∨ d = { doc with id := 0 } := by
  refine or_congr_right ⟨And.right, ?_⟩
  rintro rfl
  exact ⟨rfl, rfl⟩

theorem mem_rows_write {x : String × DocumentEmbedding} :
    x ∈ (c.write modelId now doc chunks).rows ↔ (x ∈ c.rows ∧ x.1 ≠ doc.filepath) ∨
      x.1 = doc.filepath ∧ ((∃ r, x.2 = staleOf r ∧ (x.1, r) ∈ c.rows ∧ r.modelId ≠ modelId) ∨
        ∃ ch, LastChunk chunks ch ∧ x.2 = pendingRow 0 modelId now ch 0) := by
  refine or_congr_right (and_congr_right fun hx => or_congr_left (exists_congr fun r => ?_))
  exact and_congr_right fun _ => and_congr_left fun _ => ⟨And.left, fun hr => ⟨hr, hx⟩⟩

theorem mem_vectors_write {x : String × ℤ × ChunkType × ℤ × Bytes} :
    x ∈ (c.write modelId now doc chunks).vectors ↔ x ∈ c.vectors ∧ x.1 ≠ doc.filepath :=
  or_iff_left And.right

/-! ## Files of different paths -/

theorem knows_write (hne : doc.filepath ≠ doc'.filepath) :
    (c.write modelId now doc' chunks).Knows doc ↔ c.Knows doc := by
  constructor
  · rintro ⟨d, hd, hpath, hhash⟩
    obtain ⟨hd, -⟩ | rfl := mem_documents_write.1 hd
    · exact ⟨d, hd, hpath, hhash⟩
    · exact absurd hpath.symm hne
  · rintro ⟨d, hd, hpath, hhash⟩
    exact ⟨d, mem_documents_write.2 (.inl ⟨hd, hpath ▸ hne⟩), hpath, hhash⟩

/-- Two ingests together ask for the pairs with work left and those of both paths. -/
theorem touched_write (hne : doc.filepath ≠ doc'.filepath) :
    c.touched modelId doc.filepath chunks ∪
        (c.write modelId now doc chunks).touched modelId doc'.filepath chunks' =
      c.touched modelId doc.filepath chunks ∪ c.touched modelId doc'.filepath chunks' := by
  ext k
  constructor
  · rintro (h | ⟨r, hr, hm, hk⟩ | h)
    · exact .inl h
    · obtain ⟨hr, -⟩ | ⟨hpath, ⟨r₀, rfl, hr₀, -⟩ | ⟨ch, hch, rfl⟩⟩ := mem_rows_write.1 hr
      · exact .inr (.inl ⟨r, hr, hm, hk⟩)
      · rw [staleOf_modelId] at hm
        exact .inl (.inl ⟨r₀, hr₀, hm, .inr hpath⟩)
      · exact .inl (.inr ⟨Prod.ext hpath hm.symm, List.ne_nil_of_mem hch.mem⟩)
    · exact .inr (.inr h)
  · rintro (h | ⟨r, hr, hm, hst | hk⟩ | h)
    · exact .inl h
    · exact .inl (.inl ⟨r, hr, hm, .inl hst⟩)
    · refine .inr (.inl ⟨r, mem_rows_write.2 (.inl ⟨hr, ?_⟩), hm, .inr hk⟩)
      exact fun h => hne (h.symm.trans hk)
    · exact .inr (.inr h)

theorem write_comm (hne : doc.filepath ≠ doc'.filepath) :
    (c.write modelId now doc chunks).write modelId now doc' chunks' =
      (c.write modelId now doc' chunks').write modelId now doc chunks := by
  refine Catalog.ext ?_ ?_ ?_ ?_ rfl rfl rfl rfl
  · simp only [write]
    exact updateAt_comm hne.symm
  · simp only [write]
    exact updateAt_comm hne.symm
  · simp only [write]
    exact updateAt_comm hne.symm
  · refine Seeder.seed_seed.trans (Eq.trans ?_ Seeder.seed_seed.symm)
    rw [touched_write hne, touched_write hne.symm, Set.union_comm]

theorem ingest_of_knows {file : Document × List ChunkRef} (h : c.Knows file.1) :
    c.ingest modelId now file = c := if_pos h

theorem ingest_of_not_knows {file : Document × List ChunkRef} (h : ¬c.Knows file.1) :
    c.ingest modelId now file = c.write modelId now file.1 file.2 := if_neg h

/-- Ingests of different paths commute. -/
theorem ingest_comm {file file' : Document × List ChunkRef} (hne : file.1.filepath ≠ file'.1.filepath) :
    (c.ingest modelId now file).ingest modelId now file' =
      (c.ingest modelId now file').ingest modelId now file := by
  by_cases h : c.Knows file.1
  · rw [ingest_of_knows h]
    by_cases h' : c.Knows file'.1
    · rw [ingest_of_knows h', ingest_of_knows h]
    · rw [ingest_of_not_knows h', ingest_of_knows ((knows_write hne).2 h)]
  · rw [ingest_of_not_knows h]
    by_cases h' : c.Knows file'.1
    · rw [ingest_of_knows h', ingest_of_knows ((knows_write hne.symm).2 h'), ingest_of_not_knows h]
    · rw [ingest_of_not_knows h', ingest_of_not_knows (mt (knows_write hne.symm).1 h'),
        ingest_of_not_knows (mt (knows_write hne).1 h)]
      exact write_comm hne

/-- The order of files with different paths does not matter. -/
theorem foldl_ingest {files files' : List (Document × List ChunkRef)} (hperm : files.Perm files')
    (hpaths : (files.map fun file => file.1.filepath).Nodup) (c : Catalog) :
    files.foldl (fun c file => c.ingest modelId now file) c =
      files'.foldl (fun c file => c.ingest modelId now file) c := by
  refine hperm.foldl_eq' ?_ c
  intro file hfile file' hfile' c
  by_cases hpath : file.1.filepath = file'.1.filepath
  · rw [List.inj_on_of_nodup_map hpaths hfile hfile' hpath]
  · exact ingest_comm hpath

end Catalog

end Ask
