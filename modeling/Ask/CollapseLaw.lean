/-
  What `collapse_to_documents` means: one result for each document among the
  hits, in the order of their first hits, as many as the limit allows.

  The loop fills in a location when it meets a document's first content hit; the
  meaning looks that hit up in the whole list.
-/
import Ask.Search
import Ask.Lib.Ranking

namespace Ask

open Lib

/-! ## The documents of the hits -/

section documents
variable {D : Type} [LinearOrder D] [Sub D] [Div D] [OfNat D 0] [OfNat D 1] [OfNat D 2]

/-- The document's first content hit. -/
def contentHit (hits : List (DocumentSearchResult D)) (documentId : ℤ) : Option (DocumentSearchResult D) :=
  hits.find? fun h => decide (h.documentId = documentId) && decide (h.chunkType = .content)

/-- The hit whose span a document shows: its first hit, but a content hit rather than the file
    name's. -/
def located (hits : List (DocumentSearchResult D)) (first : DocumentSearchResult D) :
    DocumentSearchResult D :=
  match first.chunkType with
  | .content => first
  | .filename => (contentHit hits first.documentId).getD first

/-- The result of the document with this first hit. -/
def documentResult (hits : List (DocumentSearchResult D)) (includeLocation : Bool)
    (first : DocumentSearchResult D) : SearchDocumentResult D where
  filepath := first.filepath
  matchScore := distanceToScore first.distance
  byteStart := if includeLocation then some (located hits first).chunkStart else none
  byteEnd := if includeLocation then some (located hits first).chunkEnd else none

/-- The results of the first `limit` documents. -/
def documentResults (hits : List (DocumentSearchResult D)) (limit : ℕ) (includeLocation : Bool) :
    List (SearchDocumentResult D) :=
  ((hits.map (·.documentId)).eraseDups.take limit).filterMap fun d =>
    (hits.find? fun h => decide (h.documentId = d)).map (documentResult hits includeLocation)

end documents

/-! ## The loop -/

section shown
variable {D : Type} {limit : ℕ} {hits : List (DocumentSearchResult D)} {hit : DocumentSearchResult D}

/-- The hits that make a result. -/
abbrev shown (hits : List (DocumentSearchResult D)) (limit : ℕ) : List (DocumentSearchResult D) :=
  (firsts DocumentSearchResult.documentId hits).take limit

/-- A document is shown once. -/
theorem nodup_map_shown : ((shown hits limit).map (·.documentId)).Nodup :=
  (nodup_map_firsts hits).sublist ((List.take_sublist limit _).map _)

theorem shown_append_of_full (h : (shown hits limit).length = limit) :
    shown (hits ++ [hit]) limit = shown hits limit := by
  rw [List.length_take] at h
  rw [shown, firsts_append_singleton]
  split_ifs
  · rfl
  · exact List.take_append_of_le_length (by omega)

theorem shown_append_of_mem (h : hit.documentId ∈ (shown hits limit).map (·.documentId)) :
    shown (hits ++ [hit]) limit = shown hits limit := by
  have hseen := ((List.take_sublist limit (firsts _ hits)).map _).subset h
  rw [shown, firsts_append_singleton, if_pos hseen]

theorem shown_append_of_new (hlen : (shown hits limit).length ≠ limit)
    (h : hit.documentId ∉ (shown hits limit).map (·.documentId)) :
    shown (hits ++ [hit]) limit = shown hits limit ++ [hit] := by
  rw [List.length_take] at hlen
  have hall : shown hits limit = firsts _ hits := List.take_of_length_le (by omega)
  rw [hall] at h
  rw [hall, shown, firsts_append_singleton, if_neg h, List.take_of_length_le]
  rw [List.length_append, List.length_singleton]
  omega

/-- The shown documents have different ids. -/
theorem shown_id_ne {i j : ℕ} {x y : DocumentSearchResult D} (hx : (shown hits limit)[i]? = some x)
    (hy : (shown hits limit)[j]? = some y) (hne : i ≠ j) : x.documentId ≠ y.documentId := by
  intro hid
  have hi : i < ((shown hits limit).map (·.documentId)).length := by
    rw [List.length_map]
    exact (List.getElem?_eq_some_iff.1 hx).1
  refine hne ((List.getElem?_inj hi nodup_map_shown).1 ?_)
  rw [List.getElem?_map, List.getElem?_map, hx, hy, Option.map_some, Option.map_some, hid]

/-- While there is room, a document that is not shown has no hit yet. -/
theorem contentHit_of_new (hfull : (shown hits limit).length ≠ limit)
    (hnew : hit.documentId ∉ (shown hits limit).map (·.documentId)) :
    contentHit hits hit.documentId = none := by
  have hall : shown hits limit = firsts DocumentSearchResult.documentId hits := by
    rw [List.length_take] at hfull
    exact List.take_of_length_le (by omega)
  rw [hall, mem_map_firsts] at hnew
  refine List.find?_eq_none.2 ?_
  intro x hx hcond
  rw [Bool.and_eq_true, decide_eq_true_eq] at hcond
  exact hnew (List.mem_map.2 ⟨x, hx, hcond.1⟩)

end shown

section collapse
variable {D : Type} [LinearOrder D] [Sub D] [Div D] [OfNat D 0] [OfNat D 1] [OfNat D 2] {limit : ℕ}
  {includeLocation : Bool} {st : Collapse D} {hits : List (DocumentSearchResult D)}
  {hit first : DocumentSearchResult D} {d : ℤ}

omit [LinearOrder D] [Sub D] [Div D] [OfNat D 0] [OfNat D 1] [OfNat D 2] in
theorem contentHit_append : contentHit (hits ++ [hit]) d =
    (contentHit hits d).or (if hit.documentId = d ∧ hit.chunkType = .content then some hit else none) := by
  unfold contentHit
  rw [List.find?_append]
  congr 1
  by_cases h : hit.documentId = d ∧ hit.chunkType = .content
  · rw [if_pos h]
    simp [h.1, h.2]
  · rw [if_neg h]
    simpa using h

/-- The document still shows its file name's location. -/
def fromFilename (hits : List (DocumentSearchResult D)) (includeLocation : Bool)
    (first : DocumentSearchResult D) : Bool :=
  includeLocation && decide (first.chunkType = .filename) && (contentHit hits first.documentId).isNone

/-- The hit gives the document its location. -/
def Locates (hits : List (DocumentSearchResult D)) (includeLocation : Bool)
    (first hit : DocumentSearchResult D) : Prop :=
  fromFilename hits includeLocation first = true ∧ hit.documentId = first.documentId ∧ hit.chunkType = .content

omit [LinearOrder D] [Sub D] [Div D] [OfNat D 0] [OfNat D 1] [OfNat D 2] in
theorem fromFilename_append_of_not (h : ¬Locates hits includeLocation first hit) :
    fromFilename (hits ++ [hit]) includeLocation first = fromFilename hits includeLocation first := by
  unfold fromFilename
  rw [contentHit_append]
  by_cases hcond : hit.documentId = first.documentId ∧ hit.chunkType = .content
  · have hflag : fromFilename hits includeLocation first = false :=
      Bool.eq_false_iff.2 fun hflag => h ⟨hflag, hcond⟩
    unfold fromFilename at hflag
    rw [hflag, if_pos hcond]
    cases hfound : contentHit hits first.documentId with
    | some found => simp
    | none =>
      rw [hfound, Option.isNone_none, Bool.and_true] at hflag
      rw [hflag, Bool.false_and]
  · rw [if_neg hcond, Option.or_none]

theorem documentResult_append_of_not (h : ¬Locates hits includeLocation first hit) :
    documentResult (hits ++ [hit]) includeLocation first = documentResult hits includeLocation first := by
  cases includeLocation with
  | false => rfl
  | true =>
    have hloc : located (hits ++ [hit]) first = located hits first := by
      unfold located
      cases hty : first.chunkType with
      | content => rfl
      | filename =>
        show (contentHit (hits ++ [hit]) first.documentId).getD first = _
        rw [contentHit_append]
        cases hfound : contentHit hits first.documentId with
        | some found => rfl
        | none =>
          have hcond : ¬(hit.documentId = first.documentId ∧ hit.chunkType = .content) := fun hcond =>
            h ⟨by simp [fromFilename, hty, hfound], hcond⟩
          rw [if_neg hcond]
          rfl
    simp only [documentResult, hloc]

/-- The hit that locates a document is its first content hit. -/
theorem documentResult_append_of_locates (h : Locates hits includeLocation first hit) :
    documentResult (hits ++ [hit]) includeLocation first =
      { documentResult hits includeLocation first with
        byteStart := some hit.chunkStart, byteEnd := some hit.chunkEnd } ∧
    fromFilename (hits ++ [hit]) includeLocation first = false := by
  obtain ⟨hflag, hcond⟩ := h
  simp only [fromFilename, Bool.and_eq_true, decide_eq_true_eq, Option.isNone_iff_eq_none] at hflag
  obtain ⟨⟨rfl, hty⟩, hnone⟩ := hflag
  have hfound : contentHit (hits ++ [hit]) first.documentId = some hit := by
    rw [contentHit_append, hnone, if_pos hcond, Option.none_or]
  constructor
  · simp [documentResult, located, hty, hfound]
  · simp [fromFilename, hfound]

omit [LinearOrder D] [Sub D] [Div D] [OfNat D 0] [OfNat D 1] [OfNat D 2] in
/-- A document's first hit is its location until a content hit comes. -/
theorem located_append_self (hnone : contentHit hits hit.documentId = none) :
    located (hits ++ [hit]) hit = hit := by
  unfold located
  cases hty : hit.chunkType with
  | content => rfl
  | filename =>
    show (contentHit (hits ++ [hit]) hit.documentId).getD hit = hit
    rw [contentHit_append, hnone, if_neg (by simp [hty])]
    rfl

omit [LinearOrder D] [Sub D] [Div D] [OfNat D 0] [OfNat D 1] [OfNat D 2] in
theorem fromFilename_append_self (hnone : contentHit hits hit.documentId = none) :
    fromFilename (hits ++ [hit]) includeLocation hit =
      (includeLocation && decide (hit.chunkType = .filename)) := by
  unfold fromFilename
  rw [contentHit_append, hnone]
  cases hit.chunkType <;> simp

/-- The loop after some hits: a result for each shown document, where it is, and whether its
    location is still the file name's. -/
structure Collapsed (limit : ℕ) (includeLocation : Bool) (hits : List (DocumentSearchResult D))
    (st : Collapse D) : Prop where
  results : st.results = (shown hits limit).map (documentResult hits includeLocation)
  found : ∀ i first, (shown hits limit)[i]? = some first →
    st.documentIndices first.documentId = some (i, fromFilename hits includeLocation first)
  unseen : ∀ d, d ∉ (shown hits limit).map (·.documentId) → st.documentIndices d = none

theorem Collapsed.length (h : Collapsed limit includeLocation hits st) :
    st.results.length = (shown hits limit).length := by
  rw [h.results, List.length_map]

/-- A hit that locates no shown document changes no result. -/
theorem Collapsed.append_of_shown (h : Collapsed limit includeLocation hits st)
    (hshown : shown (hits ++ [hit]) limit = shown hits limit)
    (hnot : ∀ first ∈ shown hits limit, ¬Locates hits includeLocation first hit) :
    Collapsed limit includeLocation (hits ++ [hit]) st := by
  refine ⟨?_, fun i first hfirst => ?_, fun d hd => ?_⟩
  · rw [hshown, h.results]
    exact List.map_congr_left fun first hfirst => (documentResult_append_of_not (hnot first hfirst)).symm
  · rw [hshown] at hfirst
    rw [h.found i first hfirst, fromFilename_append_of_not (hnot first (List.mem_of_getElem? hfirst))]
  · rw [hshown] at hd
    exact h.unseen d hd

omit [LinearOrder D] [Sub D] [Div D] [OfNat D 0] [OfNat D 1] [OfNat D 2] in
/-- The test of the loop. -/
theorem locates_iff (hid : first.documentId = hit.documentId) :
    (includeLocation && fromFilename hits includeLocation first && decide (hit.chunkType ≠ .filename)) = true ↔
      Locates hits includeLocation first hit := by
  have hty : hit.chunkType ≠ .filename ↔ hit.chunkType = .content := by
    cases hit.chunkType <;> simp
  simp only [Locates, fromFilename, Bool.and_eq_true, decide_eq_true_eq, hty, hid, true_and]
  tauto

/-- The first content hit of a shown document fills in its location. -/
theorem Collapsed.append_of_locates (h : Collapsed limit includeLocation hits st) {index : ℕ}
    (hindex : (shown hits limit)[index]? = some first) (hloc : Locates hits includeLocation first hit) :
    Collapsed limit includeLocation (hits ++ [hit])
      { documentIndices := Function.update st.documentIndices first.documentId (some (index, false))
        results := st.results.modify index fun result =>
          { result with byteStart := some hit.chunkStart, byteEnd := some hit.chunkEnd } } := by
  have hmem : first.documentId ∈ (shown hits limit).map (·.documentId) :=
    List.mem_map.2 ⟨first, List.mem_of_getElem? hindex, rfl⟩
  have hshown : shown (hits ++ [hit]) limit = shown hits limit := shown_append_of_mem (hloc.2.1 ▸ hmem)
  obtain ⟨hresult, hflag⟩ := documentResult_append_of_locates hloc
  have hother : ∀ x : DocumentSearchResult D, x.documentId ≠ first.documentId →
      ¬Locates hits includeLocation x hit := fun x hne hx => hne (hx.2.1.symm.trans hloc.2.1)
  refine ⟨?_, fun j x hx => ?_, fun d hd => ?_⟩
  · rw [hshown, h.results]
    refine List.ext_getElem? ?_
    intro j
    rw [List.getElem?_modify, List.getElem?_map, List.getElem?_map]
    cases hx : (shown hits limit)[j]? with
    | none => rfl
    | some x =>
      by_cases hj : index = j
      · subst hj
        obtain rfl := Option.some.inj (hindex.symm.trans hx)
        simp only [Option.map_eq_map, Option.map_some, if_true, hresult]
      · have hx' := documentResult_append_of_not (hother x (shown_id_ne hx hindex (Ne.symm hj)))
        simp only [Option.map_eq_map, Option.map_some, hj, if_false, hx']
  · dsimp only
    rw [hshown] at hx
    by_cases hj : j = index
    · subst hj
      obtain rfl := Option.some.inj (hindex.symm.trans hx)
      rw [Function.update_self, hflag]
    · have hne := shown_id_ne hx hindex hj
      rw [Function.update_of_ne hne, h.found j x hx, fromFilename_append_of_not (hother x hne)]
  · dsimp only
    rw [hshown] at hd
    have hne : d ≠ first.documentId := by
      rintro rfl
      exact hd hmem
    rw [Function.update_of_ne hne]
    exact h.unseen d hd

/-- A new document is put at the end. -/
theorem Collapsed.append_of_new (h : Collapsed limit includeLocation hits st)
    (hfull : (shown hits limit).length ≠ limit)
    (hnew : hit.documentId ∉ (shown hits limit).map (·.documentId)) :
    Collapsed limit includeLocation (hits ++ [hit])
      { documentIndices := Function.update st.documentIndices hit.documentId
          (some (st.results.length, includeLocation && decide (hit.chunkType = .filename)))
        results := st.results ++
          [{ filepath := hit.filepath
             matchScore := distanceToScore hit.distance
             byteStart := if includeLocation then some hit.chunkStart else none
             byteEnd := if includeLocation then some hit.chunkEnd else none }] } := by
  have hshown := shown_append_of_new hfull hnew
  have hother : ∀ x ∈ shown hits limit, x.documentId ≠ hit.documentId := fun x hx hid =>
    hnew (List.mem_map.2 ⟨x, hx, hid⟩)
  have hnot : ∀ x ∈ shown hits limit, ¬Locates hits includeLocation x hit := fun x hx hloc =>
    hother x hx hloc.2.1.symm
  have hnone : contentHit hits hit.documentId = none := contentHit_of_new hfull hnew
  refine ⟨?_, fun j x hx => ?_, fun d hd => ?_⟩
  · dsimp only
    rw [hshown, List.map_append, h.results]
    congr 1
    · exact List.map_congr_left fun x hx => (documentResult_append_of_not (hnot x hx)).symm
    · rw [List.map_singleton, documentResult, located_append_self hnone]
  · dsimp only
    rw [hshown] at hx
    rcases Nat.lt_or_ge j (shown hits limit).length with hj | hj
    · rw [List.getElem?_append_left hj] at hx
      have hmem := List.mem_of_getElem? hx
      rw [Function.update_of_ne (hother x hmem), h.found j x hx, fromFilename_append_of_not (hnot x hmem)]
    · rw [List.getElem?_append_right hj, List.getElem?_singleton] at hx
      split_ifs at hx with hzero
      obtain rfl := Option.some.inj hx
      rw [Function.update_self, fromFilename_append_self hnone, h.length,
        show j = (shown hits limit).length by omega]
  · dsimp only
    rw [hshown, List.map_append, List.mem_append, not_or, List.map_singleton, List.mem_singleton] at hd
    rw [Function.update_of_ne hd.2]
    exact h.unseen d hd.1

theorem collapsed_step (h : Collapsed limit includeLocation hits st) (hit : DocumentSearchResult D) :
    Collapsed limit includeLocation (hits ++ [hit]) (collapseHit limit includeLocation st hit) := by
  unfold collapseHit
  by_cases hmem : hit.documentId ∈ (shown hits limit).map (·.documentId)
  · obtain ⟨first, hfirst, hid⟩ := List.mem_map.1 hmem
    obtain ⟨index, hindex⟩ := List.mem_iff_getElem?.1 hfirst
    rw [← hid, h.found index first hindex]
    dsimp only
    by_cases hloc : Locates hits includeLocation first hit
    · rw [if_pos ((locates_iff hid).2 hloc)]
      exact h.append_of_locates hindex hloc
    · rw [if_neg fun hcond => hloc ((locates_iff hid).1 hcond)]
      refine h.append_of_shown (shown_append_of_mem hmem) ?_
      intro x hx hlocx
      have hsame : x = first := List.inj_on_of_nodup_map nodup_map_shown hx hfirst (hlocx.2.1.symm.trans hid.symm)
      exact hloc (hsame ▸ hlocx)
  · have hnot : ∀ first ∈ shown hits limit, ¬Locates hits includeLocation first hit := by
      rintro first hfirst ⟨-, hid, -⟩
      exact hmem (List.mem_map.2 ⟨first, hfirst, hid.symm⟩)
    rw [h.unseen hit.documentId hmem]
    dsimp only
    by_cases hfull : st.results.length = limit
    · rw [if_pos hfull]
      rw [h.length] at hfull
      exact h.append_of_shown (shown_append_of_full hfull) hnot
    · rw [if_neg hfull]
      rw [h.length] at hfull
      exact h.append_of_new hfull hmem

theorem collapsed_foldl (hits : List (DocumentSearchResult D)) : Collapsed limit includeLocation hits
    (hits.foldl (collapseHit limit includeLocation) ⟨fun _ => none, []⟩) := by
  induction hits using List.reverseRecOn with
  | nil => exact ⟨by simp [shown, firsts], by simp [shown, firsts], by simp [shown, firsts]⟩
  | append_singleton hits hit ih =>
    rw [List.foldl_append]
    exact collapsed_step ih hit

/-- The loop makes a result of each shown hit. -/
theorem collapseToDocuments_eq (hits : List (DocumentSearchResult D)) :
    collapseToDocuments hits limit includeLocation =
      (shown hits limit).map (documentResult hits includeLocation) :=
  (collapsed_foldl hits).results

end collapse

/-! ## What the results mean -/

section scores
variable {D : Type} [Field D] [LinearOrder D] [IsStrictOrderedRing D]

theorem distanceToScore_eq (distance : D) :
    distanceToScore distance = max 0 (min 1 ((2 - distance) / 2)) := by
  unfold distanceToScore
  dsimp only
  split_ifs with h0 h1
  · rw [max_eq_left ((min_le_right _ _).trans h0.le)]
  · rw [min_eq_left h1.le, max_eq_right zero_le_one]
  · rw [min_eq_right (not_lt.1 h1), max_eq_right (not_lt.1 h0)]

theorem distanceToScore_mem (distance : D) : 0 ≤ distanceToScore distance ∧ distanceToScore distance ≤ 1 := by
  rw [distanceToScore_eq]
  exact ⟨le_max_left _ _, max_le zero_le_one (min_le_left _ _)⟩

/-- What is farther away scores no more. -/
theorem distanceToScore_antitone {a b : D} (h : a ≤ b) : distanceToScore b ≤ distanceToScore a := by
  have hsub : (2 - b) / 2 ≤ (2 - a) / 2 := by linarith
  rw [distanceToScore_eq, distanceToScore_eq]
  exact max_le_max le_rfl (min_le_min le_rfl hsub)

/-- **Collapsing hits to documents equals its meaning**: the results are those of the first documents,
    each with its first hit's path and score and the span that the whole list gives it; hits in the
    order of their distances have falling scores between 0 and 1. -/
theorem collapse_documents (hits : List (DocumentSearchResult D)) (limit : ℕ) (includeLocation : Bool) :
    collapseToDocuments hits limit includeLocation = documentResults hits limit includeLocation ∧
    (hits.Pairwise (fun a b => a.distance ≤ b.distance) →
      (collapseToDocuments hits limit includeLocation).Pairwise (fun a b => b.matchScore ≤ a.matchScore) ∧
      ∀ result ∈ collapseToDocuments hits limit includeLocation,
        0 ≤ result.matchScore ∧ result.matchScore ≤ 1) := by
  have heq : collapseToDocuments hits limit includeLocation =
      (shown hits limit).map (documentResult hits includeLocation) := collapseToDocuments_eq hits
  refine ⟨heq.trans (filterMap_firsts _ hits limit).symm, fun hsorted => ⟨?_, ?_⟩⟩
  · rw [heq, List.pairwise_map]
    have hshown : (shown hits limit).Pairwise fun a b => a.distance ≤ b.distance :=
      hsorted.sublist ((List.take_sublist limit _).trans (firsts_sublist hits))
    exact hshown.imp fun hle => distanceToScore_antitone hle
  · intro result hresult
    rw [heq] at hresult
    obtain ⟨first, -, rfl⟩ := List.mem_map.1 hresult
    exact distanceToScore_mem first.distance

end scores

/-- A hit of a document. -/
def sampleHit (documentId : ℤ) (chunkType : ChunkType) (chunkStart chunkEnd : ℤ) (distance : ℚ) :
    DocumentSearchResult ℚ :=
  ⟨documentId, "doc", "txt", .resource, 0, 0, 0, documentId, 1, chunkType, chunkStart, chunkEnd, distance⟩

/-- The first document gets its span from a hit behind the limit. -/
theorem collapse_sample :
    collapseToDocuments [sampleHit 1 .filename 0 0 0, sampleHit 2 .content 5 9 (1 / 2),
        sampleHit 1 .content 42 64 1] 1 true = [⟨"doc", 1, some 42, some 64⟩] ∧
      (collapseToDocuments [sampleHit 1 .filename 0 0 0, sampleHit 2 .content 5 9 (1 / 2),
        sampleHit 1 .content 42 64 1] 1 true).Pairwise fun a b => b.matchScore ≤ a.matchScore := by
  obtain ⟨hmeaning, hscores⟩ := collapse_documents (D := ℚ) [sampleHit 1 .filename 0 0 0,
    sampleHit 2 .content 5 9 (1 / 2), sampleHit 1 .content 42 64 1] 1 true
  refine ⟨hmeaning.trans (by decide +kernel), (hscores ?_).1⟩
  simp only [List.pairwise_cons, List.mem_cons, List.not_mem_nil, or_false, forall_eq_or_imp, forall_eq,
    sampleHit]
  norm_num

end Ask
