/-
  What a chunk plan promises: its spans tile the content, overlap as asked and
  never cut a scalar, whatever breakpoints the scores prefer.
-/
import Ask.Chunking

namespace Ask

open Lib.Utf8

variable {content : Str} {start i j overlap : ℕ}

/-! ## Floor and ceiling -/

theorem floorCharBoundary_le : floorCharBoundary content i ≤ i :=
  (Nat.findGreatest_le _).trans (min_le_left _ _)

theorem isCharBoundary_floor : content.isCharBoundary (floorCharBoundary content i) = true :=
  Nat.findGreatest_spec (P := fun i => content.isCharBoundary i = true) (Nat.zero_le _)
    Str.isCharBoundary_zero

theorem le_floorCharBoundary (hj : content.isCharBoundary j = true) (hji : j ≤ i) :
    j ≤ floorCharBoundary content i :=
  Nat.le_findGreatest (le_min hji (Str.le_len hj)) hj

theorem floorCharBoundary_eq (hi : content.isCharBoundary i = true) :
    floorCharBoundary content i = i :=
  le_antisymm floorCharBoundary_le (le_floorCharBoundary hi le_rfl)

theorem floorCharBoundary_near (hi : i ≤ content.len) : i ≤ floorCharBoundary content i + 3 := by
  obtain ⟨j, hji, hj, hle⟩ := Str.boundary_near hi
  have := le_floorCharBoundary hj hji
  omega

/-- The ceiling just after a boundary is the boundary after its scalar. -/
theorem ceilCharBoundary_eq (hb : content.isCharBoundary start = true) (hlt : start < content.len) :
    ceilCharBoundary content (start + 1) = start + content.widthAt start := by
  obtain ⟨h1, -, hw, hno⟩ := Str.boundary_next hb hlt
  have hloop : ∀ n j, start + content.widthAt start - j = n → start < j →
      j ≤ start + content.widthAt start → ceilLoop content j = start + content.widthAt start := by
    intro n
    induction n with
    | zero =>
      intro j hn hj hle
      obtain rfl : j = start + content.widthAt start := by omega
      rw [ceilLoop, if_neg (by simp [hw])]
    | succ n ih =>
      intro j hn hj hle
      have hjw : j < start + content.widthAt start := by omega
      rw [ceilLoop, if_pos ⟨lt_of_lt_of_le hjw (Str.le_len hw), hno j hj hjw⟩]
      exact ih (j + 1) (by omega) (by omega) hjw
  rw [ceilCharBoundary, min_eq_left (by omega)]
  exact hloop _ _ rfl (by omega) (by omega)

/-! ## One step of the loop -/

/-- An end for the chunk that starts at `start`. -/
def GoodEnd (content : Str) (start end_ : ℕ) : Prop :=
  start < end_ ∧ content.isCharBoundary end_ = true

theorem goodEnd_ceil (hb : content.isCharBoundary start = true) (hlt : start < content.len) :
    GoodEnd content start (ceilCharBoundary content (start + 1)) := by
  rw [ceilCharBoundary_eq hb hlt]
  obtain ⟨h1, -, hw, -⟩ := Str.boundary_next hb hlt
  exact ⟨by omega, hw⟩

theorem goodEnd_fixedEnd (hb : content.isCharBoundary start = true) (hlt : start < content.len)
    (chunkSize : ℕ) : GoodEnd content start (fixedEnd content start chunkSize) := by
  unfold fixedEnd
  dsimp only
  split_ifs with h
  · exact ⟨h, isCharBoundary_floor⟩
  · exact goodEnd_ceil hb hlt

/-- A chunk may follow the chunk `a` from `next` on: it starts later and leaves no gap, the
    shared bytes are about `overlap` unless `a` is too short for that. -/
structure Follows (content : Str) (overlap : ℕ) (a : ChunkSpan) (next : ℕ) : Prop where
  start_lt : a.start < next
  le_end : next ≤ a.end_
  shared_le : a.end_ - next ≤ overlap + 3
  le_shared : min overlap (a.end_ - a.start - content.widthAt a.start) ≤ a.end_ - next
  meets : overlap = 0 → next = a.end_

/-- The next start is a boundary from which the next chunk follows this one. -/
theorem follows_nextStart {end_ : ℕ} (hb : content.isCharBoundary start = true)
    (he : GoodEnd content start end_) :
    content.isCharBoundary (nextStart content start end_ overlap) = true ∧
      Follows content overlap ⟨start, end_⟩ (nextStart content start end_ overlap) := by
  obtain ⟨hlt, hend⟩ := he
  have hlen : start < content.len := lt_of_lt_of_le hlt (Str.le_len hend)
  have hnear : end_ - overlap ≤ floorCharBoundary content (end_ - overlap) + 3 :=
    floorCharBoundary_near ((Nat.sub_le _ _).trans (Str.le_len hend))
  have hfle : floorCharBoundary content (end_ - overlap) ≤ end_ - overlap := floorCharBoundary_le
  have hmeet : overlap = 0 → floorCharBoundary content (end_ - overlap) = end_ := by
    rintro rfl; exact floorCharBoundary_eq hend
  unfold nextStart
  dsimp only
  split_ifs with hle
  · rw [ceilCharBoundary_eq hb hlen]
    obtain ⟨h1, -, hw, hno⟩ := Str.boundary_next hb hlen
    have hwe : start + content.widthAt start ≤ end_ := by
      by_contra hcon
      have := hno end_ hlt (by omega)
      rw [hend] at this; cases this
    refine ⟨hw, by dsimp only; omega, hwe, by dsimp only; omega, by dsimp only; omega, fun h0 => ?_⟩
    have := hmeet h0
    omega
  · exact ⟨isCharBoundary_floor, by dsimp only; omega, by dsimp only; omega, by dsimp only; omega,
      by dsimp only; omega, hmeet⟩

/-! ## Plans -/

/-- A chunk plan for the content: what it covers and how its chunks overlap. -/
structure ChunkLaw (content : Str) (overlap : ℕ) (spans : List ChunkSpan) : Prop where
  ne_nil : spans ≠ []
  first : spans.head?.map (·.start) = some 0
  last : spans.getLast?.map (·.end_) = some content.len
  span : ∀ s ∈ spans, s.start < s.end_ ∧ content.isCharBoundary s.start = true ∧
    content.isCharBoundary s.end_ = true
  increasing : spans.Pairwise fun a b => a.start < b.start
  follows : spans.IsChain fun a b => Follows content overlap a b.start
  whole : overlap = 0 → spans.flatMap (fun s => content.slice s.start s.end_) = content.bytes

/-- Spans that go on from `start` to the end of the content. -/
inductive Tiled (content : Str) (overlap : ℕ) : ℕ → List ChunkSpan → Prop
  | last {start : ℕ} : start < content.len → content.isCharBoundary start = true →
      Tiled content overlap start [⟨start, content.len⟩]
  | step {start end_ next : ℕ} {rest : List ChunkSpan} :
      start < end_ → content.isCharBoundary start = true → content.isCharBoundary end_ = true →
      Follows content overlap ⟨start, end_⟩ next → Tiled content overlap next rest →
      Tiled content overlap start (⟨start, end_⟩ :: rest)

/-- The loop tiles the rest of the content when each end is good. -/
theorem tiled_chunkLoop {endOf : ℕ → ℕ}
    (hgood : ∀ start, content.isCharBoundary start = true → start < content.len →
      GoodEnd content start (endOf start))
    (hb : content.isCharBoundary start = true) (hlt : start < content.len) :
    Tiled content overlap start (chunkLoop content overlap endOf start) := by
  fun_induction chunkLoop content overlap endOf start with
  | case1 start h end_ ih =>
    obtain ⟨hse, hend⟩ := hgood start hb h
    split_ifs with hle
    · have he : end_ = content.len := le_antisymm (Str.le_len hend) hle
      rw [he]; exact .last h hb
    · obtain ⟨hnext, hfol⟩ : _ ∧ Follows content overlap ⟨start, end_⟩ _ :=
        follows_nextStart hb ⟨hse, hend⟩
      exact .step hse hb hend hfol (ih hnext (lt_of_le_of_lt hfol.le_end (not_le.1 hle)))
  | case2 => omega

namespace Tiled

variable {spans : List ChunkSpan}

theorem head (h : Tiled content overlap start spans) : ∃ e rest, spans = ⟨start, e⟩ :: rest := by
  cases h <;> exact ⟨_, _, rfl⟩

theorem start_le (h : Tiled content overlap start spans) : ∀ s ∈ spans, start ≤ s.start := by
  induction h with
  | last => simp
  | step _ _ _ hfol _ ih =>
    intro s hs
    rcases List.mem_cons.1 hs with rfl | hs
    · exact le_rfl
    · exact hfol.start_lt.le.trans (ih s hs)

theorem last_end (h : Tiled content overlap start spans) :
    spans.getLast?.map (·.end_) = some content.len := by
  induction h with
  | last => rfl
  | step _ _ _ _ ht ih =>
    obtain ⟨e, rest, rfl⟩ := ht.head
    rwa [List.getLast?_cons_cons]

theorem span (h : Tiled content overlap start spans) : ∀ s ∈ spans, s.start < s.end_ ∧
    content.isCharBoundary s.start = true ∧ content.isCharBoundary s.end_ = true := by
  induction h with
  | last hlt hb => simpa using ⟨hlt, hb⟩
  | step hlt hb he _ _ ih =>
    intro s hs
    rcases List.mem_cons.1 hs with rfl | hs
    · exact ⟨hlt, hb, he⟩
    · exact ih s hs

theorem increasing (h : Tiled content overlap start spans) :
    spans.Pairwise fun a b => a.start < b.start := by
  induction h with
  | last => simp
  | step _ _ _ hfol ht ih =>
    exact List.pairwise_cons.2 ⟨fun s hs => lt_of_lt_of_le hfol.start_lt (ht.start_le s hs), ih⟩

theorem follows (h : Tiled content overlap start spans) :
    spans.IsChain fun a b => Follows content overlap a b.start := by
  induction h with
  | last => simp
  | step _ _ _ hfol ht ih =>
    obtain ⟨e, rest, rfl⟩ := ht.head
    exact List.isChain_cons_cons.2 ⟨hfol, ih⟩

/-- Without overlap the chunks are the rest of the content, piece by piece. -/
theorem whole (h : Tiled content 0 start spans) :
    spans.flatMap (fun s => content.slice s.start s.end_) = content.slice start content.len := by
  generalize ho : 0 = o at h
  induction h with
  | last => simp
  | @step start end_ next rest hlt _ he hfol ht ih =>
    subst ho
    have hnext : next = end_ := hfol.meets rfl
    rw [List.flatMap_cons, ih, hnext, Str.slice_append hlt.le (Str.le_len he)]

theorem law (h : Tiled content overlap 0 spans) : ChunkLaw content overlap spans where
  ne_nil := by obtain ⟨e, rest, rfl⟩ := h.head; simp
  first := by obtain ⟨e, rest, rfl⟩ := h.head; rfl
  last := h.last_end
  span := h.span
  increasing := h.increasing
  follows := h.follows
  whole := by
    rintro rfl
    rw [h.whole, Str.slice_all]

end Tiled

/-! ## Breakpoints -/

theorem isCharBoundary_nextLineStart (lineStart : ℕ) :
    content.isCharBoundary (nextLineStart content lineStart) = true := by
  unfold nextLineStart
  split_ifs with hlt
  · unfold lineEnd at hlt ⊢
    split at hlt
    · rename_i offset hoff
      obtain ⟨hoff, hget, -⟩ := List.findIdx?_eq_some_iff_getElem.1 hoff
      have hb : content.bytes[lineStart + offset]? = some 0x0A := by
        rw [← List.getElem?_drop, List.getElem?_eq_getElem hoff]
        exact congrArg some (of_decide_eq_true hget)
      exact content.valid.boundary_after_ascii hb (by decide)
    · omega
  · exact Str.isCharBoundary_len

theorem mem_pushBreakpoint {position score contentLen : ℕ} {b : Breakpoint}
    (h : b ∈ pushBreakpoint position score contentLen) :
    b = ⟨position, score⟩ ∧ 0 < position ∧ position < contentLen := by
  unfold pushBreakpoint at h
  split_ifs at h with hcond
  · cases h
  · exact ⟨List.mem_singleton.1 h, by omega, by omega⟩

/-- A line's breakpoints are the starts of the line and of the next one. -/
theorem mem_lineBreakpoints {trimmed : Bytes} {lineStart next : ℕ} {b : Breakpoint}
    (h : b ∈ lineBreakpoints trimmed lineStart next content.len) :
    (b.position = lineStart ∨ b.position = next) ∧ 0 < b.position ∧ b.position < content.len := by
  have hpush : ∀ {position score}, b ∈ pushBreakpoint position score content.len →
      (position = lineStart ∨ position = next) →
      (b.position = lineStart ∨ b.position = next) ∧ 0 < b.position ∧ b.position < content.len := by
    intro position score hm hp
    obtain ⟨rfl, h0, hlt⟩ := mem_pushBreakpoint hm
    exact ⟨hp, h0, hlt⟩
  unfold lineBreakpoints at h
  rcases List.mem_append.1 h with h | h
  · split at h
    · exact hpush h (.inl rfl)
    · split_ifs at h
      · exact hpush h (.inl rfl)
      · exact hpush h (.inr rfl)
      · exact hpush h (.inl rfl)
      · cases h
  · exact hpush h (.inr rfl)

/-- Every breakpoint is an inner boundary of the content. -/
theorem mem_scanLines {lineStart : ℕ} {inFence : Bool} {b : Breakpoint}
    (hb : content.isCharBoundary lineStart = true) (h : b ∈ scanLines content lineStart inFence) :
    0 < b.position ∧ b.position < content.len ∧ content.isCharBoundary b.position = true := by
  fun_induction scanLines content lineStart inFence with
  | case1 lineStart inFence hlt next trimmed hfence ih =>
    rcases List.mem_append.1 h with h | h
    · obtain ⟨rfl, h0, hlen⟩ := mem_pushBreakpoint h
      exact ⟨h0, hlen, hb⟩
    · exact ih (isCharBoundary_nextLineStart lineStart) h
  | case2 lineStart hlt next trimmed hfence ih =>
    exact ih (isCharBoundary_nextLineStart lineStart) h
  | case3 lineStart inFence hlt next trimmed hfence hin ih =>
    rcases List.mem_append.1 h with h | h
    · obtain ⟨hpos | hpos, h0, hlen⟩ := mem_lineBreakpoints h
      · exact ⟨h0, hlen, hpos ▸ hb⟩
      · exact ⟨h0, hlen, hpos ▸ isCharBoundary_nextLineStart lineStart⟩
    · exact ih (isCharBoundary_nextLineStart lineStart) h
  | case4 => cases h

/-- Whatever the scores, the best breakpoint is one of the candidates after `start`. -/
theorem bestBreakpoint_mem {F : F64} {breakpoints : List Breakpoint} {target breakWindow e : ℕ}
    (h : bestBreakpoint F breakpoints start target breakWindow = some e) :
    ∃ b ∈ breakpoints, b.position = e ∧ start < e ∧ e ≤ target := by
  obtain ⟨b, hb, rfl⟩ := Option.map_eq_some_iff.1 h
  obtain ⟨hmem, hcond⟩ := List.mem_filter.1 (mem_of_maxBy hb)
  simp only [Bool.and_eq_true, decide_eq_true_eq] at hcond
  exact ⟨b, hmem, rfl, hcond.1.1, hcond.1.2⟩

theorem goodEnd_structureEnd (F : F64) (chunkSize breakWindow : ℕ)
    (hb : content.isCharBoundary start = true) (hlt : start < content.len) :
    GoodEnd content start
      (structureEnd F content (scanBreakpoints content) chunkSize breakWindow start) := by
  have hfix := goodEnd_fixedEnd hb hlt chunkSize
  have hend : ∀ e, (bestBreakpoint F (scanBreakpoints content) start
      (min (start + chunkSize) content.len) breakWindow).getD (fixedEnd content start chunkSize) = e →
      content.isCharBoundary e = true := by
    intro e he
    cases hbest : bestBreakpoint F (scanBreakpoints content) start
        (min (start + chunkSize) content.len) breakWindow with
    | none => rw [hbest] at he; rw [← he]; exact hfix.2
    | some e' =>
      rw [hbest] at he
      obtain ⟨b, hmem, rfl, -, -⟩ := bestBreakpoint_mem hbest
      obtain rfl : b.position = e := he
      exact (mem_scanLines Str.isCharBoundary_zero hmem).2.2
  unfold structureEnd
  dsimp only
  split_ifs with h1 h2 h3
  · exact hfix
  · exact ⟨not_le.1 h2, Str.isCharBoundary_len⟩
  · exact hfix
  · exact ⟨not_le.1 h3, hend _ rfl⟩

/-! ## The planners -/

section
variable (F : F64) (content : Str) (hne : content.bytes ≠ []) (chunkSize overlap breakWindow : ℕ)
  (hsize : 1 ≤ chunkSize)
include hne hsize

theorem tiled_fixedUtf8Chunks :
    Tiled content overlap 0 (fixedUtf8Chunks content chunkSize overlap) := by
  have hlen : 0 < content.len := List.length_pos_iff.2 hne
  unfold fixedUtf8Chunks
  rw [if_neg (by simp [hne]; omega)]
  split_ifs
  · exact .last hlen Str.isCharBoundary_zero
  · exact tiled_chunkLoop (fun _ hb hlt => goodEnd_fixedEnd hb hlt chunkSize)
      Str.isCharBoundary_zero hlen

theorem tiled_structureChunks :
    Tiled content overlap 0 (structureChunks F content chunkSize overlap breakWindow) := by
  have hlen : 0 < content.len := List.length_pos_iff.2 hne
  unfold structureChunks
  rw [if_neg (by simp [hne]; omega)]
  dsimp only
  split_ifs
  · exact .last hlen Str.isCharBoundary_zero
  · exact tiled_fixedUtf8Chunks content hne chunkSize overlap hsize
  · exact tiled_chunkLoop (fun _ hb hlt => goodEnd_structureEnd F chunkSize breakWindow hb hlt)
      Str.isCharBoundary_zero hlen

/-- **Chunk plans lose nothing and overlap as asked**, for both planners and whatever
    breakpoints the scores prefer. -/
theorem chunk_plans_lose_nothing :
    ChunkLaw content overlap (fixedUtf8Chunks content chunkSize overlap) ∧
      ChunkLaw content overlap (structureChunks F content chunkSize overlap breakWindow) :=
  ⟨(tiled_fixedUtf8Chunks content hne chunkSize overlap hsize).law,
    (tiled_structureChunks F content hne chunkSize overlap breakWindow hsize).law⟩

end

/-- A text whose first chunk ends before its heading. -/
def headingText : Str :=
  ⟨[0x61, 0x62, 0x0A, 0x23, 0x20, 0x63, 0xC3, 0xA9, 0x0A, 0x64], (check_eq_none (i := 0)).1 (by decide)⟩

theorem chunk_plans_lose_nothing_heading :
    ChunkLaw headingText 2 [⟨0, 6⟩, ⟨4, 10⟩] ∧
      ChunkLaw headingText 2 [⟨0, 3⟩, ⟨1, 3⟩, ⟨2, 9⟩, ⟨6, 10⟩] := by
  have h := chunk_plans_lose_nothing .exact headingText (by decide) 7 2 5 (by decide)
  have hfix : fixedUtf8Chunks headingText 7 2 = [⟨0, 6⟩, ⟨4, 10⟩] := by decide +kernel
  have hstr : structureChunks .exact headingText 7 2 5 = [⟨0, 3⟩, ⟨1, 3⟩, ⟨2, 9⟩, ⟨6, 10⟩] := by
    decide +kernel
  rwa [hfix, hstr] at h

end Ask
