/-
  How long a planned chunk is: no longer than the chunk size, unless it is one
  scalar that does not fit.
-/
import Ask.ChunkLaw

namespace Ask

open Lib.Utf8

variable {F : F64} {content : Str} {start overlap chunkSize breakWindow : ℕ}
  {breakpoints : List Breakpoint}

/-- From `i` to `j` there is exactly one scalar. -/
structure OneScalar (content : Str) (i j : ℕ) : Prop where
  lt : i < j
  starts : content.isCharBoundary i = true
  ends : content.isCharBoundary j = true
  inner : ∀ k, i < k → k < j → content.isCharBoundary k = false

/-- The span fits the chunk size, or is one scalar that does not. -/
def FitsSize (content : Str) (chunkSize : ℕ) (span : ChunkSpan) : Prop :=
  span.end_ - span.start ≤ chunkSize ∨
    OneScalar content span.start span.end_ ∧ chunkSize < span.end_ - span.start

theorem oneScalar_ceil (hb : content.isCharBoundary start = true) (hlt : start < content.len) :
    OneScalar content start (ceilCharBoundary content (start + 1)) := by
  rw [ceilCharBoundary_eq hb hlt]
  obtain ⟨h1, -, hw, hno⟩ := Str.boundary_next hb hlt
  exact ⟨by omega, hb, hw, hno⟩

/-- One scalar, or what fits. -/
theorem OneScalar.fits {e : ℕ} (h : OneScalar content start e) :
    FitsSize content chunkSize ⟨start, e⟩ := by
  by_cases hle : e - start ≤ chunkSize
  · exact .inl hle
  · exact .inr ⟨h, not_le.1 hle⟩

/-! ## The four sources of an end -/

theorem fits_fixedEnd (hb : content.isCharBoundary start = true) (hlt : start < content.len) :
    FitsSize content chunkSize ⟨start, fixedEnd content start chunkSize⟩ := by
  unfold fixedEnd
  dsimp only
  split_ifs
  · left
    have hfloor : floorCharBoundary content (min (start + chunkSize) content.len) ≤ _ :=
      floorCharBoundary_le
    dsimp only
    omega
  · exact (oneScalar_ceil hb hlt).fits

theorem fits_structureEnd (hb : content.isCharBoundary start = true) (hlt : start < content.len) :
    FitsSize content chunkSize
      ⟨start, structureEnd F content breakpoints chunkSize breakWindow start⟩ := by
  have hfix : FitsSize content chunkSize ⟨start, fixedEnd content start chunkSize⟩ :=
    fits_fixedEnd hb hlt
  unfold structureEnd
  dsimp only
  split_ifs with htarget hend hend
  · exact hfix
  · exact .inl (by dsimp only; omega)
  · exact hfix
  · cases hbest : bestBreakpoint F breakpoints start (min (start + chunkSize) content.len)
      breakWindow with
    | none => exact hfix
    | some e =>
      obtain ⟨-, -, -, -, hle⟩ := bestBreakpoint_mem hbest
      exact .inl (by simp only [Option.getD_some]; omega)

/-! ## The loop -/

theorem end_of_mem_chunkLoop {endOf : ℕ → ℕ} {span : ChunkSpan}
    (h : span ∈ chunkLoop content overlap endOf start) : span.end_ = endOf span.start := by
  fun_induction chunkLoop content overlap endOf start with
  | case1 start hlt end_ ih =>
    rcases List.mem_cons.1 h with rfl | h
    · rfl
    · split_ifs at h
      · cases h
      · exact ih h
  | case2 => cases h

/-- What a loop with good ends returns fits when each of its ends does. -/
theorem fits_chunkLoop {endOf : ℕ → ℕ}
    (hgood : ∀ start, content.isCharBoundary start = true → start < content.len →
      GoodEnd content start (endOf start))
    (hfits : ∀ start, content.isCharBoundary start = true → start < content.len →
      FitsSize content chunkSize ⟨start, endOf start⟩)
    (hne : 0 < content.len) {span : ChunkSpan} (h : span ∈ chunkLoop content overlap endOf 0) :
    FitsSize content chunkSize span := by
  obtain ⟨hlt, hb, he⟩ := (tiled_chunkLoop hgood Str.isCharBoundary_zero hne).span span h
  have hend := hfits span.start hb (lt_of_lt_of_le hlt (Str.le_len he))
  rwa [← end_of_mem_chunkLoop h] at hend

theorem fits_fixedUtf8Chunks (h : overlap < chunkSize) {span : ChunkSpan}
    (hspan : span ∈ fixedUtf8Chunks content chunkSize overlap) : FitsSize content chunkSize span := by
  unfold fixedUtf8Chunks at hspan
  split_ifs at hspan with hempty hone
  · cases hspan
  · obtain rfl := List.mem_singleton.1 hspan
    exact .inl (by dsimp only; omega)
  · exact fits_chunkLoop (fun _ hb hlt => goodEnd_fixedEnd hb hlt chunkSize)
      (fun _ => fits_fixedEnd) (by omega) hspan

theorem fits_structureChunks (h : overlap < chunkSize) {span : ChunkSpan}
    (hspan : span ∈ structureChunks F content chunkSize overlap breakWindow) :
    FitsSize content chunkSize span := by
  unfold structureChunks at hspan
  dsimp only at hspan
  split_ifs at hspan with hempty hone
  · cases hspan
  · obtain rfl := List.mem_singleton.1 hspan
    exact .inl (by dsimp only; omega)
  · exact fits_fixedUtf8Chunks h hspan
  · exact fits_chunkLoop (fun _ hb hlt => goodEnd_structureEnd F chunkSize breakWindow hb hlt)
      (fun _ => fits_structureEnd) (by omega) hspan

/-- **Chunks keep to their size**: whatever the content, the overlap and the breakpoints that the
    scores prefer, a chunk of either planner is no longer than the chunk size, or is one scalar. -/
theorem chunks_fit_size (F : F64) (content : Str) (chunkSize overlap breakWindow : ℕ)
    (h : overlap < chunkSize) :
    (∀ span ∈ fixedUtf8Chunks content chunkSize overlap, FitsSize content chunkSize span) ∧
      ∀ span ∈ structureChunks F content chunkSize overlap breakWindow,
        FitsSize content chunkSize span :=
  ⟨fun _ => fits_fixedUtf8Chunks h, fun _ => fits_structureChunks h⟩

/-- Two scalars of two bytes each, in chunks of one byte. -/
def wideText : Str := ⟨[0xC3, 0xA9, 0xC3, 0xA9], (check_eq_none (i := 0)).1 (by decide)⟩

theorem chunks_fit_size_wide : OneScalar wideText 0 2 ∧ OneScalar wideText 2 4 := by
  have hplan : structureChunks .exact wideText 1 0 1 = [⟨0, 2⟩, ⟨2, 4⟩] := by decide +kernel
  have h := (chunks_fit_size .exact wideText 1 0 1 (by decide)).2
  rw [hplan] at h
  have hwide : ∀ i j, FitsSize wideText 1 ⟨i, j⟩ → j = i + 2 → OneScalar wideText i j := by
    rintro i j (hle | hone) rfl
    · dsimp only at hle; omega
    · exact hone.1
  exact ⟨hwide 0 2 (h _ (by simp)) rfl, hwide 2 4 (h _ (by simp)) rfl⟩

end Ask
