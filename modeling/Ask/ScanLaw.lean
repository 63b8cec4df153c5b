/-
  Where the structural breakpoints of a content stand: at starts of lines, in
  order, and outside of fenced blocks but for the lines that close them.
-/
import Ask.ChunkLaw

namespace Ask

open Lib.Utf8

variable {content : Str} {lineStart i : ℕ} {inFence : Bool} {b : Breakpoint}

/-! ## The order of the breakpoints -/

theorem pairwise_pushBreakpoint {position score contentLen : ℕ} {r : Breakpoint → Breakpoint → Prop} :
    (pushBreakpoint position score contentLen).Pairwise r := by
  unfold pushBreakpoint
  split_ifs
  · exact .nil
  · exact List.pairwise_singleton _ _

/-- A line's breakpoints start with at most one at its own place. -/
theorem sorted_lineBreakpoints {trimmed : Bytes} {next contentLen : ℕ} (h : lineStart ≤ next) :
    (lineBreakpoints trimmed lineStart next contentLen).Pairwise
      fun a b => a.position ≤ b.position := by
  have hfirst : ∀ {position score}, position ≤ next →
      (pushBreakpoint position score contentLen ++ pushBreakpoint next 1 contentLen).Pairwise
        fun a b => a.position ≤ b.position := by
    intro position score hle
    refine List.pairwise_append.2 ⟨pairwise_pushBreakpoint, pairwise_pushBreakpoint, fun a ha b hb => ?_⟩
    rw [(mem_pushBreakpoint ha).1, (mem_pushBreakpoint hb).1]
    exact hle
  unfold lineBreakpoints
  split
  · exact hfirst h
  · split_ifs
    · exact hfirst h
    · exact hfirst le_rfl
    · exact hfirst h
    · rw [List.nil_append]; exact pairwise_pushBreakpoint

theorem le_of_mem_scanLines (h : b ∈ scanLines content lineStart inFence) : lineStart ≤ b.position := by
  fun_induction scanLines content lineStart inFence with
  | case1 lineStart inFence hlt next trimmed hfence ih =>
    rcases List.mem_append.1 h with h | h
    · rw [(mem_pushBreakpoint h).1]
    · exact (lt_nextLineStart hlt).le.trans (ih h)
  | case2 lineStart hlt next trimmed hfence ih => exact (lt_nextLineStart hlt).le.trans (ih h)
  | case3 lineStart inFence hlt next trimmed hfence hin ih =>
    have hnext : lineStart < next := lt_nextLineStart hlt
    rcases List.mem_append.1 h with h | h
    · obtain ⟨hpos | hpos, -, -⟩ := mem_lineBreakpoints h <;> omega
    · exact hnext.le.trans (ih h)
  | case4 => cases h

theorem sorted_scanLines :
    (scanLines content lineStart inFence).Pairwise fun a b => a.position ≤ b.position := by
  fun_induction scanLines content lineStart inFence with
  | case1 lineStart inFence hlt next trimmed hfence ih =>
    refine List.pairwise_append.2 ⟨pairwise_pushBreakpoint, ih, fun a ha b hb => ?_⟩
    rw [(mem_pushBreakpoint ha).1]
    exact (lt_nextLineStart hlt).le.trans (le_of_mem_scanLines hb)
  | case2 lineStart hlt next trimmed hfence ih => exact ih
  | case3 lineStart inFence hlt next trimmed hfence hin ih =>
    have hnext : lineStart < next := lt_nextLineStart hlt
    refine List.pairwise_append.2 ⟨sorted_lineBreakpoints hnext.le, ih, fun a ha b hb => ?_⟩
    have := le_of_mem_scanLines hb
    obtain ⟨hpos | hpos, -, -⟩ := mem_lineBreakpoints ha <;> omega
  | case4 => exact .nil

/-! ## Lines -/

/-- A line starts at `i`: the byte before is a newline. -/
def StartsLine (content : Str) (i : ℕ) : Prop := 0 < i ∧ content.bytes[i - 1]? = some 0x0A

theorem startsLine_nextLineStart (h : nextLineStart content lineStart < content.len) :
    StartsLine content (nextLineStart content lineStart) := by
  unfold nextLineStart at h ⊢
  split_ifs at h ⊢ with hlt
  · refine ⟨Nat.succ_pos _, ?_⟩
    rw [Nat.add_sub_cancel]
    unfold lineEnd at hlt ⊢
    split at hlt
    · rename_i offset hoff
      obtain ⟨hoff, hget, -⟩ := List.findIdx?_eq_some_iff_getElem.1 hoff
      rw [← List.getElem?_drop, List.getElem?_eq_getElem hoff]
      exact congrArg some (of_decide_eq_true hget)
    · omega
  · omega

/-- Every breakpoint is the start of a line. -/
theorem startsLine_of_mem (hb : b ∈ scanBreakpoints content) : StartsLine content b.position := by
  have hscan : ∀ lineStart inFence, (0 < lineStart → lineStart < content.len → StartsLine content lineStart) →
      b ∈ scanLines content lineStart inFence → StartsLine content b.position := by
    intro lineStart inFence hstart hmem
    fun_induction scanLines content lineStart inFence with
    | case1 lineStart inFence hlt next trimmed hfence ih =>
      rcases List.mem_append.1 hmem with hmem | hmem
      · obtain ⟨rfl, h0, hlen⟩ := mem_pushBreakpoint hmem
        exact hstart h0 hlen
      · exact ih (fun _ => startsLine_nextLineStart) hmem
    | case2 lineStart hlt next trimmed hfence ih => exact ih (fun _ => startsLine_nextLineStart) hmem
    | case3 lineStart inFence hlt next trimmed hfence hin ih =>
      rcases List.mem_append.1 hmem with hmem | hmem
      · obtain ⟨hpos | hpos, h0, hlen⟩ := mem_lineBreakpoints hmem
        · rw [hpos] at h0 hlen ⊢; exact hstart h0 hlen
        · rw [hpos] at hlen ⊢; exact startsLine_nextLineStart hlen
      · exact ih (fun _ => startsLine_nextLineStart) hmem
    | case4 => cases hmem
  exact hscan 0 false (fun h => absurd h (lt_irrefl 0)) hb

/-- Just before a line there is a boundary, that of the newline. -/
theorem StartsLine.boundary (h : StartsLine content i) : content.isCharBoundary (i - 1) = true :=
  boundary_at_ascii h.2 (by decide)

/-! ## Fenced blocks -/

/-- The starts of the lines from `lineStart` on that open or close a fenced block. -/
def fenceLines (content : Str) (lineStart : ℕ) : List ℕ :=
  if lineStart < content.len then
    let rest := fenceLines content (nextLineStart content lineStart)
    if isCodeFence (trim (content.slice lineStart (lineEnd content lineStart))) then lineStart :: rest
    else rest
  else []
termination_by content.len - lineStart
decreasing_by
  have hlt : lineStart < nextLineStart content lineStart := lt_nextLineStart ‹lineStart < content.len›
  omega

/-- A block from the start of its opening line to the end of its closing one, or of the content. -/
structure FencedBlock where
  start : ℕ
  end_ : ℕ
  deriving DecidableEq, Repr

/-- The blocks that the given fence lines open and close in turn. -/
def pairFences (content : Str) : List ℕ → List FencedBlock
  | opening :: closing :: lines => ⟨opening, lineEnd content closing⟩ :: pairFences content lines
  | [opening] => [⟨opening, content.len⟩]
  | [] => []

/-- Of the given fence lines the ones that close a block. -/
def closingLines : List ℕ → List ℕ
  | _ :: closing :: lines => closing :: closingLines lines
  | _ => []

/-- The code blocks of a text. -/
def fencedBlocks (content : Str) : List FencedBlock := pairFences content (fenceLines content 0)

/-- Strictly after the start of the block and before its end. -/
def FencedBlock.Inside (block : FencedBlock) (position : ℕ) : Prop :=
  block.start < position ∧ position < block.end_

theorem le_of_mem_fenceLines {l : ℕ} (h : l ∈ fenceLines content lineStart) : lineStart ≤ l := by
  fun_induction fenceLines content lineStart with
  | case1 lineStart hlt rest hfence ih =>
    rcases List.mem_cons.1 h with rfl | h
    · exact le_rfl
    · exact (lt_nextLineStart hlt).le.trans (ih h)
  | case2 lineStart hlt rest hfence ih => exact (lt_nextLineStart hlt).le.trans (ih h)
  | case3 => cases h

theorem start_mem_of_pairFences {lines : List ℕ} {block : FencedBlock}
    (h : block ∈ pairFences content lines) : block.start ∈ lines := by
  fun_induction pairFences content lines with
  | case1 opening closing lines ih =>
    rcases List.mem_cons.1 h with rfl | h
    · exact List.mem_cons_self
    · exact List.mem_cons_of_mem _ (List.mem_cons_of_mem _ (ih h))
  | case2 opening => rw [List.mem_singleton.1 h]; exact List.mem_cons_self
  | case3 => cases h

/-- The blocks of later lines start later. -/
theorem le_start_of_pairFences {block : FencedBlock}
    (h : block ∈ pairFences content (fenceLines content lineStart)) : lineStart ≤ block.start :=
  le_of_mem_fenceLines (start_mem_of_pairFences h)

theorem lineEnd_le_nextLineStart (h : lineStart < content.len) :
    lineEnd content lineStart ≤ nextLineStart content lineStart := by
  have hle : lineEnd content lineStart ≤ content.len := by
    unfold lineEnd
    split
    · rename_i offset hoff
      obtain ⟨hlt, -⟩ := List.findIdx?_eq_some_iff_getElem.1 hoff
      rw [List.length_drop] at hlt
      simp only [Str.len] at h ⊢
      omega
    · exact le_rfl
  unfold nextLineStart
  split_ifs <;> omega

theorem fenceLines_of_fence (hlt : lineStart < content.len)
    (h : isCodeFence (trim (content.slice lineStart (lineEnd content lineStart))) = true) :
    fenceLines content lineStart = lineStart :: fenceLines content (nextLineStart content lineStart) := by
  rw [fenceLines, if_pos hlt]
  exact if_pos h

theorem fenceLines_of_not_fence (hlt : lineStart < content.len)
    (h : ¬isCodeFence (trim (content.slice lineStart (lineEnd content lineStart))) = true) :
    fenceLines content lineStart = fenceLines content (nextLineStart content lineStart) := by
  rw [fenceLines, if_pos hlt]
  exact if_neg h

/-- The opening lines, one or none, that the scan has passed without the closing one. -/
def Pending (lineStart : ℕ) : Bool → List ℕ → Prop
  | false, lines => lines = []
  | true, lines => ∃ opening < lineStart, lines = [opening]

/-- Of the blocks that are open or start later the scan hits only starts of closing lines. -/
theorem mem_closingLines_of_inside {block : FencedBlock} (hin : block.Inside b.position)
    (hb : b ∈ scanLines content lineStart inFence) : ∀ pending, Pending lineStart inFence pending →
    block ∈ pairFences content (pending ++ fenceLines content lineStart) →
    b.position ∈ closingLines (pending ++ fenceLines content lineStart) := by
  fun_induction scanLines content lineStart inFence with
  | case1 lineStart inFence hlt next trimmed hfence ih =>
    have hnext : lineStart < next := lt_nextLineStart hlt
    have hlines : fenceLines content lineStart = lineStart :: fenceLines content next :=
      fenceLines_of_fence hlt hfence
    intro pending hpending hblock
    cases inFence with
    | false =>
      obtain rfl : pending = [] := hpending
      rcases List.mem_append.1 hb with hb | hb
      · have hle : lineStart ≤ block.start := le_start_of_pairFences hblock
        rw [(mem_pushBreakpoint hb).1] at hin
        exact absurd hin.1 (not_lt.2 hle)
      · rw [List.nil_append, hlines] at hblock ⊢
        exact ih hb [lineStart] ⟨lineStart, hnext, rfl⟩ hblock
    | true =>
      obtain ⟨opening, hopening, rfl⟩ := hpending
      rw [hlines] at hblock ⊢
      rcases List.mem_append.1 hb with hb | hb
      · rw [(mem_pushBreakpoint hb).1]
        exact List.mem_cons_self
      · refine List.mem_cons_of_mem _ ?_
        rcases List.mem_cons.1 hblock with rfl | hblock
        · -- the block ends with its closing line
          have hend : lineEnd content lineStart ≤ next := lineEnd_le_nextLineStart hlt
          have hge := le_of_mem_scanLines hb
          have := hin.2
          dsimp only at this
          omega
        · exact ih hb [] rfl hblock
  | case2 lineStart hlt next trimmed hfence ih =>
    intro pending hpending hblock
    obtain ⟨opening, hopening, rfl⟩ := hpending
    rw [fenceLines_of_not_fence hlt hfence] at hblock ⊢
    exact ih hb [opening] ⟨opening, hopening.trans (lt_nextLineStart hlt), rfl⟩ hblock
  | case3 lineStart inFence hlt next trimmed hfence hopen ih =>
    intro pending hpending hblock
    obtain rfl : inFence = false := by simpa using hopen
    obtain rfl : pending = [] := hpending
    rw [fenceLines_of_not_fence hlt hfence] at hblock ⊢
    rcases List.mem_append.1 hb with hb | hb
    · have hnext : lineStart < next := lt_nextLineStart hlt
      have hle : next ≤ block.start := le_start_of_pairFences hblock
      have := hin.1
      obtain ⟨hpos | hpos, -, -⟩ := mem_lineBreakpoints hb <;> omega
    · exact ih hb [] rfl hblock
  | case4 => cases hb

/-- Every fence line but one at the start of the content is a breakpoint. -/
theorem mem_scanLines_of_fenceLine {l : ℕ} (hl : l ∈ fenceLines content lineStart) (hpos : 0 < l) :
    ⟨l, 80⟩ ∈ scanLines content lineStart inFence := by
  fun_induction scanLines content lineStart inFence with
  | case1 lineStart inFence hlt next trimmed hfence ih =>
    rw [fenceLines_of_fence hlt hfence] at hl
    refine List.mem_append.2 ?_
    rcases List.mem_cons.1 hl with rfl | hl
    · left
      rw [pushBreakpoint, if_neg (by omega)]
      exact List.mem_singleton_self _
    · exact .inr (ih hl)
  | case2 lineStart hlt next trimmed hfence ih =>
    rw [fenceLines_of_not_fence hlt hfence] at hl
    exact ih hl
  | case3 lineStart inFence hlt next trimmed hfence hopen ih =>
    rw [fenceLines_of_not_fence hlt hfence] at hl
    exact List.mem_append_right _ (ih hl)
  | case4 lineStart inFence hge =>
    rw [fenceLines, if_neg hge] at hl
    cases hl

/-- A fence line has text. -/
theorem lt_lineEnd_of_mem_fenceLines {l : ℕ} (hl : l ∈ fenceLines content lineStart) :
    l < lineEnd content l := by
  fun_induction fenceLines content lineStart with
  | case1 lineStart hlt rest hfence ih =>
    rcases List.mem_cons.1 hl with rfl | hl
    · refine lt_of_le_of_ne (le_lineEnd hlt) fun heq => ?_
      rw [← heq, Str.slice, Nat.sub_self, List.take_zero] at hfence
      revert hfence
      decide +kernel
    · exact ih hl
  | case2 lineStart hlt rest hfence ih => exact ih hl
  | case3 => cases hl

theorem sorted_fenceLines : (fenceLines content lineStart).Pairwise (· < ·) := by
  fun_induction fenceLines content lineStart with
  | case1 lineStart hlt rest hfence ih =>
    exact List.pairwise_cons.2
      ⟨fun l hl => lt_of_lt_of_le (lt_nextLineStart hlt) (le_of_mem_fenceLines hl), ih⟩
  | case2 lineStart hlt rest hfence ih => exact ih
  | case3 => exact .nil

theorem closingLines_sublist (lines : List ℕ) : (closingLines lines).Sublist lines := by
  fun_induction closingLines lines with
  | case1 opening closing lines ih => exact (ih.cons_cons closing).cons opening
  | case2 => exact List.nil_sublist _

/-- A closing line starts inside of its block. -/
theorem inside_of_mem_closingLines {lines : List ℕ} {l : ℕ} (hsorted : lines.Pairwise (· < ·))
    (hend : ∀ l ∈ lines, l < lineEnd content l) (hl : l ∈ closingLines lines) :
    ∃ block ∈ pairFences content lines, block.Inside l := by
  fun_induction closingLines lines with
  | case1 opening closing lines ih =>
    rcases List.mem_cons.1 hl with rfl | hl
    · exact ⟨_, List.mem_cons_self, (List.pairwise_cons.1 hsorted).1 l List.mem_cons_self,
        hend l (List.mem_cons_of_mem _ List.mem_cons_self)⟩
    · obtain ⟨block, hblock, hin⟩ := ih (hsorted.tail.tail)
        (fun l hl => hend l (List.mem_cons_of_mem _ (List.mem_cons_of_mem _ hl))) hl
      exact ⟨block, List.mem_cons_of_mem _ hblock, hin⟩
  | case2 => cases hl

theorem closingLines_eq_nil {lines : List ℕ} : closingLines lines = [] ↔ lines.length ≤ 1 := by
  match lines with
  | [] => exact iff_of_true rfl (Nat.zero_le 1)
  | [_] => exact iff_of_true rfl le_rfl
  | _ :: _ :: lines => exact iff_of_false (List.cons_ne_nil _ _) (by simp)

/-- The breakpoints leave every fenced block whole. -/
def FencesWhole (content : Str) : Prop :=
  ∀ b ∈ scanBreakpoints content, ∀ block ∈ fencedBlocks content, ¬block.Inside b.position

/-- The places where breakpoints cut a block are the starts of the closing lines. -/
theorem inside_iff_closingLine {position : ℕ} :
    (∃ b ∈ scanBreakpoints content, b.position = position ∧
      ∃ block ∈ fencedBlocks content, block.Inside position) ↔
    position ∈ closingLines (fenceLines content 0) := by
  constructor
  · rintro ⟨b, hb, rfl, block, hblock, hin⟩
    exact mem_closingLines_of_inside hin hb [] rfl hblock
  · intro hclose
    obtain ⟨block, hblock, hin⟩ := inside_of_mem_closingLines sorted_fenceLines
      (fun _ => lt_lineEnd_of_mem_fenceLines) hclose
    exact ⟨_, mem_scanLines_of_fenceLine ((closingLines_sublist _).subset hclose)
      (lt_of_le_of_lt (Nat.zero_le _) hin.1), rfl, block, hblock, hin⟩

/-- **Breakpoints cut a fenced block at its closing line only**: they leave all blocks whole exactly if no
    block is closed. -/
theorem fences_whole_iff (content : Str) :
    (FencesWhole content ↔ (fenceLines content 0).length ≤ 1) ∧
      ∀ position, (∃ b ∈ scanBreakpoints content, b.position = position ∧
          ∃ block ∈ fencedBlocks content, block.Inside position) ↔
        position ∈ closingLines (fenceLines content 0) := by
  refine ⟨?_, fun _ => inside_iff_closingLine⟩
  rw [← closingLines_eq_nil, List.eq_nil_iff_forall_not_mem]
  constructor
  · intro hwhole position hclose
    obtain ⟨b, hb, rfl, block, hblock, hin⟩ := inside_iff_closingLine.2 hclose
    exact hwhole b hb block hblock hin
  · intro hnone b hb block hblock hin
    exact hnone b.position (inside_iff_closingLine.1 ⟨b, hb, rfl, block, hblock, hin⟩)

/-- A line, a fenced line, a line. -/
def fencedText : Str :=
  ⟨[0x61, 0x0A, 0x60, 0x60, 0x60, 0x0A, 0x78, 0x0A, 0x60, 0x60, 0x60, 0x0A, 0x62],
    (check_eq_none (i := 0)).1 (by decide)⟩

/-- A breakpoint stands before the closing line of its block. -/
theorem fence_cut : fencedBlocks fencedText = [⟨2, 11⟩] ∧ ⟨8, 80⟩ ∈ scanBreakpoints fencedText ∧
    ¬FencesWhole fencedText := by
  refine ⟨by decide +kernel, by decide +kernel, fun hwhole => ?_⟩
  exact hwhole ⟨8, 80⟩ (by decide +kernel) ⟨2, 11⟩ (by decide +kernel) ⟨by decide, by decide⟩

end Ask
