/-
  The vector index mirrors the active model's embedded rows, as long as only
  the active model's pairs are embedded.
-/
import Ask.History

namespace Ask

open Lib

/-- The vectors of the table are those of the model's embedded rows. -/
def MirrorsModel (e : Embeddings) (v : VecTable) (active : ℤ) : Prop :=
  ∀ x, x ∈ v.rows ↔ ∃ r ∈ e.rows, r.id = x.1 ∧ r.state = .embedded ∧ r.modelId = active ∧
    r.embedding = some x.2

/-- There is a table, and it mirrors the model. -/
def MirrorVec (vec : Option VecTable) (e : Embeddings) (active : ℤ) : Prop :=
  ∃ v, vec = some v ∧ MirrorsModel e v active

/-- The index mirrors the active model, if one is named. -/
def Mirror (s : Store) : Prop :=
  ∀ state, s.searchState = some state → MirrorVec s.vec s.embeddings state.activeModelId

/-- What the index promises: its rowids are the ids of the active model's embedded rows, each
    with the same vector bytes. -/
structure VecMirrors (s : Store) (state : SearchState) (v : VecTable) : Prop where
  rowids : ∀ id, (∃ x ∈ v.rows, x.1 = id) ↔ ∃ r ∈ s.embeddings.rows, r.id = id ∧
    r.state = .embedded ∧ r.modelId = state.activeModelId
  bytes : ∀ x ∈ v.rows, ∀ r ∈ s.embeddings.rows, r.id = x.1 → r.embedding = some x.2

variable {s s' s₁ : Store} {e e' : Embeddings} {active : ℤ} {now : ℤ}

theorem Mirror.vecMirrors (h : Mirror s) (hs : Intact s) {state : SearchState}
    (hst : s.searchState = some state) : ∃ v, s.vec = some v ∧ VecMirrors s state v := by
  obtain ⟨v, hv, hm⟩ := h state hst
  refine ⟨v, hv, fun id => ⟨?_, ?_⟩, ?_⟩
  · rintro ⟨x, hx, rfl⟩
    obtain ⟨r, hr, hid, hemb, hact, -⟩ := (hm x).1 hx
    exact ⟨r, hr, hid, hemb, hact⟩
  · rintro ⟨r, hr, rfl, hemb, hact⟩
    obtain ⟨bytes, hb⟩ := Option.ne_none_iff_exists'.1 (hs.vectored r hr hemb)
    exact ⟨(r.id, bytes), (hm _).2 ⟨r, hr, rfl, hemb, hact, hb⟩, rfl⟩
  · intro x hx r hr hid
    obtain ⟨r', hr', hid', -, -, hb⟩ := (hm x).1 hx
    rw [AutoTable.eq_of_key hr hr' (hid.trans hid'.symm)]
    exact hb

/-! ## Deleting vectors -/

theorem mem_vecWithout {p : DocumentEmbedding → Bool} {v : VecTable} (hv : s.vec = some v) :
    ∃ v', s.vecWithout p = some v' ∧ ∀ x, x ∈ v'.rows ↔
      x ∈ v.rows ∧ ∀ r ∈ s.embeddings.rows, r.id = x.1 → p r = false := by
  refine ⟨_, by rw [Store.vecWithout, hv]; rfl, fun x => ?_⟩
  rw [VecTable.mem_delete]
  simp [List.any_eq_false]

/-- Rows that stop being embedded leave the index together with their vectors. -/
theorem MirrorVec.shrink {t : Store} {p : DocumentEmbedding → Bool} (h : MirrorVec t.vec e active)
    (hkeep : ∀ r ∈ e'.rows, r.state = .embedded → r ∈ e.rows)
    (hiff : ∀ r ∈ e.rows, r.state = .embedded →
      (r ∈ e'.rows ↔ ∀ r₁ ∈ t.embeddings.rows, r₁.id = r.id → p r₁ = false)) :
    MirrorVec (t.vecWithout p) e' active := by
  obtain ⟨v, hv, hm⟩ := h
  obtain ⟨v', hv', hmem⟩ := mem_vecWithout (p := p) hv
  refine ⟨v', hv', fun x => ?_⟩
  rw [hmem, hm]
  constructor
  · rintro ⟨⟨r, hr, hid, hemb, hrest⟩, hp⟩
    exact ⟨r, (hiff r hr hemb).2 (hid ▸ hp), hid, hemb, hrest⟩
  · rintro ⟨r, hr, hid, hemb, hrest⟩
    have hr₀ := hkeep r hr hemb
    exact ⟨⟨r, hr₀, hid, hemb, hrest⟩, hid ▸ (hiff r hr₀ hemb).1 hr⟩

theorem mirror_markStale {docIds : List ℤ} (hfk : ForeignKeys s₁)
    (h : MirrorVec s₁.vec s₁.embeddings active) :
    MirrorVec ({ s₁ with embeddings := s₁.markStale docIds }.vecWithout fun r =>
      decide (r.documentId ∈ docIds)) (s₁.markStale docIds) active := by
  refine MirrorVec.shrink (t := { s₁ with embeddings := s₁.markStale docIds }) h
    (fun r hr hemb => ?_) fun r hr hemb => ⟨fun hr' r₁ hr₁ hid => ?_, fun hp => ?_⟩
  · obtain ⟨r₀, hr₀, rfl⟩ := (mem_markStale hfk).1 hr
    split_ifs at hemb ⊢
    · exact absurd hemb (staleOf_state r₀)
    · exact hr₀
  · obtain rfl := AutoTable.eq_of_key hr₁ hr' hid
    obtain ⟨r₀, hr₀, rfl⟩ := (mem_markStale hfk).1 hr'
    split_ifs at hemb ⊢ with hd
    · exact absurd hemb (staleOf_state r₀)
    · simpa using hd
  · have hmem : (if r.documentId ∈ docIds then staleOf r else r) ∈ (s₁.markStale docIds).rows :=
      (mem_markStale hfk).2 ⟨r, hr, rfl⟩
    have := hp _ hmem (by split_ifs <;> simp)
    split_ifs at this hmem with hd
    · simp [hd] at this
    · exact hmem

/-- The rows of a kind go, and their vectors before them. -/
theorem mirror_delete {p : DocumentEmbedding → Bool} (h : MirrorVec s₁.vec s₁.embeddings active) :
    MirrorVec (s₁.vecWithout p) (s₁.embeddings.delete p) active := by
  refine h.shrink (fun r hr _ => (AutoTable.mem_delete.1 hr).1) ?_
  intro r hr _
  rw [AutoTable.mem_delete]
  constructor
  · rintro ⟨-, hp⟩ r₁ hr₁ hid
    rwa [AutoTable.eq_of_key hr₁ hr hid]
  · exact fun hp => ⟨hr, hp r hr rfl⟩

/-- Pending rows of a pair without embedded rows do not touch the index. -/
theorem mirror_pendingInserted {docId modelId : ℤ} {chunks : List ChunkRef}
    (hp : PendingInserted docId modelId now chunks e e')
    (hun : ∀ r ∈ e.rows, r.pair = (docId, modelId) → r.state ≠ .embedded)
    (hs₁ : s₁.embeddings = e') (h : MirrorVec s₁.vec e active) :
    MirrorVec (s₁.vecWithout fun r =>
      decide (r.pair = (docId, modelId)) && decide (r.state ≠ EmbedState.embedded)) e' active := by
  refine h.shrink (fun r hr hemb => ?_) fun r hr hemb => ⟨fun hr' r₁ hr₁ hid => ?_, fun _ => ?_⟩
  · obtain ⟨hr, -⟩ | ⟨c, -, he, -⟩ := hp.sound r hr
    · exact hr
    · rw [he] at hemb; cases hemb
  · rw [hs₁] at hr₁
    rw [AutoTable.eq_of_key hr₁ hr' hid]
    simp [hemb]
  · exact hp.frame r hr fun c _ hk => hun r hr (congrArg Prod.fst hk) hemb

/-! ## Vectors put -/

theorem mem_putAll : ∀ {rows : List (ℤ × Bytes)} {v v' : VecTable}, putAll v rows = some v' →
    (rows.map Prod.fst).Nodup →
      ∀ x, x ∈ v'.rows ↔ x ∈ rows ∨ x ∈ v.rows ∧ ∀ y ∈ rows, y.1 ≠ x.1
  | [], v, v', h, _, x => by
    cases h
    simp
  | (rowid, vector) :: rows, v, v', h, hnd, x => by
    rw [putAll, Option.bind_eq_some_iff] at h
    obtain ⟨v₁, hput, h⟩ := h
    rw [List.map_cons, List.nodup_cons] at hnd
    rw [mem_putAll h hnd.2, (VecTable.put_eq_some hput).2, List.mem_cons]
    constructor
    · rintro (hx | ⟨⟨hx, hid⟩ | rfl, hno⟩)
      · exact .inl (.inr hx)
      · refine .inr ⟨hx, fun y hy => ?_⟩
        rcases List.mem_cons.1 hy with rfl | hy
        · exact fun h => hid h.symm
        · exact hno y hy
      · exact .inl (.inl rfl)
    · rintro ((rfl | hx) | ⟨hx, hno⟩)
      · refine .inr ⟨.inr rfl, fun y hy heq => hnd.1 ?_⟩
        exact List.mem_map.2 ⟨y, hy, heq⟩
      · exact .inl hx
      · exact .inr ⟨.inl ⟨hx, fun h => hno (rowid, vector) List.mem_cons_self h.symm⟩,
          fun y hy => hno y (List.mem_cons_of_mem _ hy)⟩

theorem mem_embeddedVectors {p : DocumentEmbedding → Bool} {x : ℤ × Bytes} :
    x ∈ embeddedVectors s p ↔ ∃ r ∈ s.embeddings.rows, r.id = x.1 ∧ p r = true ∧
      r.state = .embedded ∧ r.embedding = some x.2 := by
  unfold embeddedVectors
  rw [List.mem_filterMap]
  refine exists_congr fun r => and_congr_right ?_
  intro _
  by_cases h : p r = true ∧ r.state = .embedded
  · obtain ⟨rowid, vector⟩ := x
    simp only [h.1, h.2, decide_true, Bool.and_self, if_true, Option.map_eq_some_iff, Prod.mk.injEq,
      true_and]
    constructor
    · rintro ⟨v, hv, hid, rfl⟩
      exact ⟨hid, hv⟩
    · rintro ⟨hid, hv⟩
      exact ⟨vector, hv, hid, rfl⟩
  · rw [if_neg (by simpa using h)]
    refine ⟨fun h' => (by cases h'), ?_⟩
    rintro ⟨-, hp, hst, -⟩
    exact absurd ⟨hp, hst⟩ h

theorem nodup_embeddedVectors (s : Store) (p : DocumentEmbedding → Bool) :
    ((embeddedVectors s p).map Prod.fst).Nodup := by
  have hid : ∀ {r : DocumentEmbedding} {x : ℤ × Bytes}, (if p r && decide (r.state = .embedded) then
      r.embedding.map fun v => (r.id, v) else none) = some x → x.1 = r.id := by
    intro r x h
    split_ifs at h
    obtain ⟨v, -, rfl⟩ := Option.map_eq_some_iff.1 h
    rfl
  rw [List.Nodup, List.pairwise_map, embeddedVectors, List.pairwise_filterMap]
  refine s.embeddings.sorted.imp ?_
  intro a b hlt x hx y hy
  rw [hid hx, hid hy]
  exact ne_of_lt hlt

/-! ## The operations -/

variable {docId modelId id : ℤ} {doc : Document} {chunks : List ChunkRef}

theorem mirror_written (h : DocumentWritten s doc id s₁) (hfk : ForeignKeys s)
    (hm : MirrorVec s.vec s.embeddings active) : MirrorVec s₁.vec s₁.embeddings active := by
  obtain ⟨-, -, hemb, hvec⟩ | ⟨-, s₀, hemb, hmod, hvec, hdoc, hst, hvec'⟩ := h.case
  · rw [hemb, hvec]; exact hm
  · rw [hvec', hst]
    refine mirror_markStale (fun r hr => ?_) (by rwa [hvec, hemb])
    rw [hemb] at hr
    have := h.hasPair (hfk r hr)
    rwa [Store.hasPair, hdoc, hmod, ← h.models]

theorem mirror_ingested (h : Ingested s doc id modelId chunks now s₁ s') (hfk : ForeignKeys s)
    (hm : MirrorVec s.vec s.embeddings active) : MirrorVec s'.vec s'.embeddings active := by
  have hdel : MirrorVec (s₁.vecWithoutPair id modelId) (s₁.embeddingsWithoutPair id modelId) active :=
    mirror_delete (mirror_written h.written hfk hm)
  rw [h.vec]
  refine mirror_pendingInserted h.pending (fun r hr hp => ?_) rfl hdel
  have := (AutoTable.mem_delete.1 hr).2
  simp [hp] at this

/-- Replacing a pair of the active model puts its new vectors. -/
theorem mirror_replaced {ec : List EmbeddedChunk} (h : Replaced s docId active ec now s')
    (hm : MirrorVec s.vec s.embeddings active) : MirrorVec s'.vec s'.embeddings active := by
  obtain ⟨v₀, hv₀, hm₀⟩ : MirrorVec (s.vecWithoutPair docId active)
    (s.embeddingsWithoutPair docId active) active := mirror_delete hm
  obtain ⟨hnone, -⟩ | ⟨v, v', hv, hv', hput⟩ := h.vec
  · obtain ⟨v, hv, -⟩ := hm
    rw [hnone] at hv; cases hv
  obtain rfl : v₀ = v := Option.some.inj (hv₀.symm.trans hv)
  refine ⟨v', hv', fun x => ?_⟩
  rw [mem_putAll hput (nodup_embeddedVectors ..), mem_embeddedVectors, hm₀]
  constructor
  · rintro (⟨r, hr, hid, hp, hemb, hbytes⟩ | ⟨⟨r, hr, hrest⟩, -⟩)
    · exact ⟨r, hr, hid, hemb, congrArg Prod.snd (by simpa using hp), hbytes⟩
    · exact ⟨r, h.inserted.frame r hr, hrest⟩
  · rintro ⟨r, hr, hid, hemb, hact, hbytes⟩
    by_cases hp : r.pair = (docId, active)
    · exact .inl ⟨r, hr, hid, by simpa using hp, hemb, hbytes⟩
    · refine .inr ⟨⟨r, ?_, hid, hemb, hact, hbytes⟩, fun y hy heq => hp ?_⟩
      · rcases h.mem_embeddings hr with ⟨hr₀, -⟩ | ⟨-, c, -, he⟩
        · exact AutoTable.mem_delete.2 ⟨hr₀, by simpa using hp⟩
        · rw [he] at hp; exact absurd rfl hp
      · obtain ⟨r', hr', hid', hp', -⟩ := mem_embeddedVectors.1 hy
        rw [AutoTable.eq_of_key hr hr' (hid.trans (heq.symm.trans hid'.symm))]
        simpa using hp'

theorem mirror_deleteDocument {u : Unit} (h : (deleteDocument docId).Ok s u s') (hm : Mirror s) :
    Mirror s' := by
  obtain rfl := ok_deleteDocument h
  intro state hst
  simpa using mirror_delete (p := fun r => decide (r.documentId = docId)) (hm state hst)

theorem mirror_markDocumentsStale {docIds : List ℤ} {u : Unit}
    (h : (markDocumentsStale docIds now).Ok s u s') (hs : Intact s) (hm : Mirror s) : Mirror s' := by
  obtain ⟨-, rfl⟩ | ⟨hne, h⟩ := ok_markDocumentsStale h
  · exact hm
  · obtain ⟨q, -, -, rfl⟩ := ok_markDocumentsStaleInQueueTime hne h
    exact fun state hst => mirror_markStale hs.foreignKeys (hm state hst)

/-- A new table filled with the model's embedded rows mirrors it. -/
theorem mirrorsModel_putAll {n : ℕ} {v : VecTable} (hput : putAll (.empty n)
    (embeddedVectors s fun r => decide (r.modelId = active)) = some v) :
    MirrorsModel s.embeddings v active := by
  intro x
  rw [mem_putAll hput (nodup_embeddedVectors ..), mem_embeddedVectors]
  simp only [VecTable.empty, List.not_mem_nil, false_and, or_false, decide_eq_true_eq]
  refine exists_congr fun r => and_congr_right fun _ => and_congr_right ?_
  intro _
  rw [and_left_comm]

/-- Switching to a model fills a new table with its embedded rows. -/
theorem mirror_ensureActiveSearchModel {m : EmbeddingModel} {n : ℕ}
    (h : (ensureActiveSearchModel m now).Ok s n s') (hm : Mirror s) : Mirror s' := by
  obtain ⟨rfl, -⟩ | ⟨v, hput, rfl⟩ := ok_ensureActiveSearchModel h
  · exact hm
  · rintro state ⟨⟩
    exact ⟨v, rfl, mirrorsModel_putAll hput⟩

theorem mirror_registerModel {E : Env} {view : View} {identity : EmbeddingIdentity}
    {m : EmbeddingModel} {n : ℕ} (h : (registerModel E view identity now).Ok s (m, n) s')
    (hs : Intact s) (hm : Mirror s) : Mirror s' := by
  refine (registerModel_invariant h hs (I := Mirror) (fun _ _ => hm) ?_ fun _ _ h => h).2
  intro s₁ doc e _ _ hun hp hm state hst
  exact mirror_pendingInserted hp (fun r hr hpair => hun r hr (congrArg Prod.snd hpair)) rfl (hm state hst)

/-! ## Histories -/

/-- Only pairs of the active model are embedded. -/
def OnlyActive (_ : View) (s : Store) : Req → Prop
  | .db (.replaceEmbeddings _ modelId _ _) =>
    ∀ state, s.searchState = some state → state.activeModelId = modelId
  | _ => True

theorem mirror_answers {view : View} {w w' : World} {r : Req} {a : r.Ans}
    (h : Answers view False w r a w') (hc : OnlyActive view w.store r) (hs : Intact w.store)
    (hm : Mirror w.store) : Mirror w'.store := by
  cases h.changes with
  | @committed op v store hok =>
    cases op with
    | findDocument | findModel | listRecoverable => exact hok.2 ▸ hm
    | completeJob | deferJob => rw [ok_exec_ok.1 hok]; exact hm
    | deleteDocument => exact mirror_deleteDocument hok hm
    | replaceEmbeddings =>
      have hrep := ok_replaceEmbeddingsForDocumentModel hok
      intro state hst
      rw [hrep.searchState] at hst
      obtain rfl := hc state hst
      exact mirror_replaced hrep (hm state hst)
    | upsertDocument =>
      obtain ⟨-, rfl, -⟩ | ⟨-, s₁, hi⟩ := ok_upsertDocumentAndReplacePendingEmbeddings hok
      · exact hm
      · intro state hst
        rw [hi.searchState] at hst
        exact mirror_ingested hi hs.foreignKeys (hm state hst)
  | called => exact hm
  | same => exact hm

theorem mirror_historyStep {E : Env} {op : HistoryOp} (h : HistoryStep E OnlyActive s op s')
    (hs : Intact s) (hm : Mirror s) : Mirror s' := by
  cases h with
  | startup h1 h2 =>
    obtain ⟨n, s₁, q, hres, rfl, -⟩ := ok_reconcile h1
    have hm₁ : Mirror s₁ := by
      obtain ⟨-, -, rfl⟩ | ⟨-, hreg⟩ := ok_resolveModel hres
      · exact hm
      · exact mirror_registerModel hreg hs hm
    exact mirror_ensureActiveSearchModel h2 hm₁
  | enqueue h => rw [ok_enqueueJobDb h]; exact hm
  | claim => exact hm
  | dispatch h =>
    refine (h.invariant (I := fun w => Intact w.store ∧ Mirror w.store) ?_ ⟨hs, hm⟩).2
    exact fun w r a w' hstep hw =>
      ⟨intact_of_answers hstep.1 hw.1, mirror_answers hstep.1 hstep.2 hw.1 hw.2⟩
  | markStale h => exact mirror_markDocumentsStale h hs hm
  | deleteDocument h => exact mirror_deleteDocument h hm

/-- **The index mirrors the active model** after every operation of a history that embeds only
    pairs of the model that is active. -/
theorem vec_mirrors_active {E : Env} {tr : List HistoryOp}
    (h : Run (HistoryStep E OnlyActive) .empty tr s) {state : SearchState}
    (hst : s.searchState = some state) : ∃ v, s.vec = some v ∧ VecMirrors s state v := by
  have hinv : Intact s ∧ Mirror s := h.invariant (I := fun s => Intact s ∧ Mirror s)
    (fun s op s' _ hstep hs => ⟨intact_historyStep hstep hs.1, mirror_historyStep hstep hs.1 hs.2⟩)
    ⟨intact_empty, fun state h => by cases h⟩
  exact hinv.2.vecMirrors hinv.1 hst

/-! ## Two histories -/

instance (view : View) (s : Store) (r : Req) : Decidable (OnlyActive view s r) :=
  match r with
  | .db (.replaceEmbeddings _ modelId _ _) =>
    decidable_of_iff (s.searchState.all (fun state => decide (state.activeModelId = modelId)) = true)
      (by cases h : s.searchState <;> simp [OnlyActive, h])
  | .connect | .metadata _ | .openFile _ | .readFile _ | .isDir _ | .canonicalize _ | .walk _
  | .gitPlan _ | .trackedFiles _ | .embed _ _ | .now | .db (.findDocument _) | .db (.findModel _)
  | .db (.listRecoverable _ _) | .db (.completeJob _) | .db (.deferJob _ _ _)
  | .db (.deleteDocument _) | .db (.upsertDocument _ _ _ _) => isTrue trivial

/-- A history that embeds under the active model, and its two vectors. -/
theorem vec_mirrors_active_embedded : ∃ s state v,
    Run (HistoryStep sampleEnv OnlyActive) .empty (ingestHistory [0x61] ++ embedHistory [0x61]) s ∧
      s.searchState = some state ∧ s.vec = some v ∧ v.rows.length = 2 ∧ VecMirrors s state v := by
  have hplay : ((playHistory sampleEnv OnlyActive (sampleOutside none 5)
      (ingestHistory [0x61] ++ embedHistory [0x61]) .empty).any fun s =>
        s.searchState.isSome && s.vec.any fun v => decide (v.rows.length = 2)) = true := by
    decide +kernel
  obtain ⟨s, hs, hcheck⟩ := (Option.any_eq_true _ _).1 hplay
  rw [Bool.and_eq_true, Option.isSome_iff_exists] at hcheck
  obtain ⟨⟨state, hstate⟩, hvec⟩ := hcheck
  obtain ⟨v, hv, hlen⟩ := (Option.any_eq_true _ _).1 hvec
  obtain ⟨v', hv', hm⟩ := vec_mirrors_active (run_of_playHistory hs) hstate
  cases hv.symm.trans hv'
  exact ⟨s, state, v, run_of_playHistory hs, hstate, hv, by simpa using hlen, hm⟩

/-- The first model's job is dispatched after a startup with another model of the same
    dimension: its vectors end in the other model's index. -/
theorem other_model_vectors_indexed : ∃ s state,
    Run (HistoryStep sampleEnv AnyAccess) .empty (ingestHistory [0x61] ++
      .startup (sampleView [0x61]) otherModel 15 :: embedHistory [0x61]) s ∧
      s.searchState = some state ∧ ¬∃ v, s.vec = some v ∧ VecMirrors s state v := by
  have hplay : ((playHistory sampleEnv AnyAccess (sampleOutside none 5) (ingestHistory [0x61] ++
      .startup (sampleView [0x61]) otherModel 15 :: embedHistory [0x61]) .empty).any fun s =>
        s.searchState.any fun state => s.vec.any fun v => v.rows.any fun x =>
          s.embeddings.rows.any fun r =>
            decide (r.id = x.1 ∧ r.modelId ≠ state.activeModelId)) = true := by
    decide +kernel
  obtain ⟨s, hs, hcheck⟩ := (Option.any_eq_true _ _).1 hplay
  obtain ⟨state, hstate, hcheck⟩ := (Option.any_eq_true _ _).1 hcheck
  obtain ⟨v, hv, hcheck⟩ := (Option.any_eq_true _ _).1 hcheck
  refine ⟨s, state, run_of_playHistory hs, hstate, ?_⟩
  rintro ⟨v', hv', hm⟩
  cases hv.symm.trans hv'
  obtain ⟨x, hx, hcheck⟩ := List.any_eq_true.1 hcheck
  obtain ⟨r, hr, hcheck⟩ := List.any_eq_true.1 hcheck
  obtain ⟨hid, hne⟩ := of_decide_eq_true hcheck
  obtain ⟨r', hr', hid', -, hact⟩ := (hm.rowids x.1).1 ⟨x, hx, rfl⟩
  rw [AutoTable.eq_of_key hr hr' (hid.trans hid'.symm)] at hne
  exact hne hact

end Ask
