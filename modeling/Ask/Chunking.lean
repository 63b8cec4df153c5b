/-
  Chunk planning (`worker/chunking.rs`).

  `structureChunks` walks over the content with a window of `chunkSize` bytes,
  ends each chunk at the structural breakpoint of best score before the window's
  end, or at the last scalar boundary, and starts the next chunk `overlap` bytes
  before that end.  Scores are `f64`; their arithmetic is a parameter.
-/
import Ask.Types
import Ask.Lib.Utf8

namespace Ask

open Lib.Utf8

/-- A byte span of the content. -/
structure ChunkSpan where
  start : ℕ
  end_ : ℕ
  deriving DecidableEq, Repr

/-- The spans of one planning strategy. -/
structure ChunkPlan where
  strategy : String
  spans : List ChunkSpan
  deriving DecidableEq, Repr

/-- A position where a chunk may end. -/
structure Breakpoint where
  position : ℕ
  score : ℕ
  deriving DecidableEq, Repr

/-- The operations of `f64` that the scores use. -/
structure F64 where
  φ : Type
  ofNat : ℕ → φ
  distanceDecay : φ
  add : φ → φ → φ
  mul : φ → φ → φ
  div : φ → φ → φ
  powi : φ → ℕ → φ
  totalCmp : φ → φ → Ordering

/-- Scores in exact arithmetic. -/
def F64.exact : F64 where
  φ := ℚ
  ofNat n := n
  distanceDecay := 7 / 10
  add x y := x + y
  mul x y := x * y
  div x y := x / y
  powi x n := x ^ n
  totalCmp x y := compare x y

/-! ## Scalar boundaries -/

/-- The last boundary at or before `index`. -/
def floorCharBoundary (content : Str) (index : ℕ) : ℕ :=
  Nat.findGreatest (fun i => content.isCharBoundary i = true) (min index content.len)

/-- Step forward from `index` to a boundary. -/
def ceilLoop (content : Str) (index : ℕ) : ℕ :=
  if index < content.len ∧ content.isCharBoundary index = false then ceilLoop content (index + 1)
  else index
termination_by content.len - index

/-- The first boundary at or after `index`. -/
def ceilCharBoundary (content : Str) (index : ℕ) : ℕ := ceilLoop content (min index content.len)

/-- The end of a chunk that no breakpoint decides. -/
def fixedEnd (content : Str) (start chunkSize : ℕ) : ℕ :=
  let desiredEnd := min (start + chunkSize) content.len
  let end_ := floorCharBoundary content desiredEnd
  if start < end_ then end_ else ceilCharBoundary content (start + 1)

/-- The start of the chunk after the one from `start` to `end_`. -/
def nextStart (content : Str) (start end_ overlap : ℕ) : ℕ :=
  let desiredStart := end_ - overlap
  let nextStart := floorCharBoundary content desiredStart
  if nextStart ≤ start then ceilCharBoundary content (start + 1) else nextStart

theorem le_ceilLoop (content : Str) (index : ℕ) : index ≤ ceilLoop content index := by
  fun_induction ceilLoop content index with
  | case1 index _ ih => exact le_trans (Nat.le_succ index) ih
  | case2 => exact le_rfl

theorem lt_ceilCharBoundary {content : Str} {start : ℕ} (h : start < content.len) :
    start < ceilCharBoundary content (start + 1) :=
  lt_of_lt_of_le (by omega) (le_ceilLoop content _)

/-- Every step of the chunk loops moves forward. -/
theorem lt_nextStart {content : Str} {start end_ overlap : ℕ} (h : start < content.len) :
    start < nextStart content start end_ overlap := by
  unfold nextStart
  dsimp only
  split_ifs with hle
  · exact lt_ceilCharBoundary h
  · exact not_le.1 hle

/-! ## Structural breakpoints -/

/-- The width of the white-space character at the front, `0` when there is none. -/
def whiteSpaceLen : Bytes → ℕ
  | 0xC2 :: b :: _ => if b = 0x85 ∨ b = 0xA0 then 2 else 0
  | 0xE1 :: 0x9A :: 0x80 :: _ => 3
  | 0xE2 :: 0x80 :: b :: _ =>
    if 0x80 ≤ b ∧ b ≤ 0x8A ∨ b = 0xA8 ∨ b = 0xA9 ∨ b = 0xAF then 3 else 0
  | 0xE2 :: 0x81 :: 0x9F :: _ => 3
  | 0xE3 :: 0x80 :: 0x80 :: _ => 3
  | b :: _ => if 0x09 ≤ b ∧ b ≤ 0x0D ∨ b = 0x20 then 1 else 0
  | [] => 0

/-- The width of the white-space character whose bytes stand reversed at the front. -/
def whiteSpaceLenEnd (bytes : Bytes) : ℕ :=
  if whiteSpaceLen (bytes.take 1) = 1 then 1
  else if whiteSpaceLen (bytes.take 2).reverse = 2 then 2
  else if whiteSpaceLen (bytes.take 3).reverse = 3 then 3
  else 0

/-- Drop characters of the given width from the front. -/
def trimFront (width : Bytes → ℕ) (bytes : Bytes) : Bytes :=
  if 0 < width bytes ∧ bytes ≠ [] then trimFront width (bytes.drop (width bytes)) else bytes
termination_by bytes.length
decreasing_by
  rename_i h
  have := List.length_pos_iff.2 h.2
  simp only [List.length_drop]; omega

/-- `str::trim`. -/
def trim (bytes : Bytes) : Bytes :=
  (trimFront whiteSpaceLenEnd (trimFront whiteSpaceLen bytes).reverse).reverse

/-- How good a break before a heading is, by its level. -/
def headingScore (trimmed : Bytes) : Option ℕ :=
  let level := (trimmed.takeWhile fun b => b = 0x23).length
  if ¬(1 ≤ level ∧ level ≤ 6) then none
  else match trimmed[level]? with
    | none | some 0x20 | some 0x09 =>
      match level with
      | 1 => some 100
      | 2 => some 90
      | 3 => some 80
      | 4 => some 70
      | 5 => some 60
      | _ => some 50
    | some _ => none

/-- A line that opens or closes a code block. -/
def isCodeFence (trimmed : Bytes) : Bool :=
  [0x60, 0x60, 0x60].isPrefixOf trimmed || [0x7E, 0x7E, 0x7E].isPrefixOf trimmed

/-- A line of dashes, stars or underscores only. -/
def isHorizontalRule (trimmed : Bytes) : Bool :=
  if trimmed.length < 3 then false
  else trimmed.all (· = 0x2D) || trimmed.all (· = 0x2A) || trimmed.all (· = 0x5F)

/-- Where the first `". "` starts. -/
def findDotSpace : Bytes → Option ℕ
  | 0x2E :: 0x20 :: _ => some 0
  | _ :: bytes => (findDotSpace bytes).map (· + 1)
  | [] => none

/-- The length of `1. ` and the like at the front. -/
def orderedListMarkerLen (trimmed : Bytes) : Option ℕ :=
  match findDotSpace trimmed with
  | none => none
  | some markerEnd =>
    if markerEnd = 0 then none
    else if (trimmed.take markerEnd).all (fun b => 0x30 ≤ b ∧ b ≤ 0x39) then some (markerEnd + 2)
    else none

/-- A line that starts a list item. -/
def isListItem (trimmed : Bytes) : Bool :=
  [0x2D, 0x20].isPrefixOf trimmed || [0x2A, 0x20].isPrefixOf trimmed ||
    [0x2B, 0x20].isPrefixOf trimmed || (orderedListMarkerLen trimmed).isSome

/-- The breakpoint pushed for a position, none at either end of the content. -/
def pushBreakpoint (position score contentLen : ℕ) : List Breakpoint :=
  if position = 0 ∨ contentLen ≤ position then [] else [⟨position, score⟩]

/-- The end of the line that starts at `lineStart`, without its newline. -/
def lineEnd (content : Str) (lineStart : ℕ) : ℕ :=
  match (content.bytes.drop lineStart).findIdx? (· = 0x0A) with
  | some offset => lineStart + offset
  | none => content.len

/-- The start of the line after the one that starts at `lineStart`. -/
def nextLineStart (content : Str) (lineStart : ℕ) : ℕ :=
  if lineEnd content lineStart < content.len then lineEnd content lineStart + 1 else content.len

theorem le_lineEnd {content : Str} {lineStart : ℕ} (h : lineStart < content.len) :
    lineStart ≤ lineEnd content lineStart := by
  unfold lineEnd; split <;> omega

theorem lt_nextLineStart {content : Str} {lineStart : ℕ} (h : lineStart < content.len) :
    lineStart < nextLineStart content lineStart := by
  have := le_lineEnd h
  unfold nextLineStart; split_ifs <;> omega

/-- The breakpoints of a line outside of a fenced block. -/
def lineBreakpoints (trimmed : Bytes) (lineStart nextLineStart contentLen : ℕ) : List Breakpoint :=
  (match headingScore trimmed with
    | some score => pushBreakpoint lineStart score contentLen
    | none =>
      if isHorizontalRule trimmed then pushBreakpoint lineStart 60 contentLen
      else if trimmed.isEmpty then pushBreakpoint nextLineStart 20 contentLen
      else if isListItem trimmed then pushBreakpoint lineStart 5 contentLen
      else []) ++
  pushBreakpoint nextLineStart 1 contentLen

/-- The loop of `scan_breakpoints` from the line that starts at `lineStart`. -/
def scanLines (content : Str) (lineStart : ℕ) (inFence : Bool) : List Breakpoint :=
  if lineStart < content.len then
    let next := nextLineStart content lineStart
    let trimmed := trim (content.slice lineStart (lineEnd content lineStart))
    if isCodeFence trimmed then
      pushBreakpoint lineStart 80 content.len ++ scanLines content next (!inFence)
    else if inFence then scanLines content next inFence
    else lineBreakpoints trimmed lineStart next content.len ++ scanLines content next inFence
  else []
termination_by content.len - lineStart
decreasing_by all_goals
  have hlt : lineStart < nextLineStart content lineStart := lt_nextLineStart ‹lineStart < content.len›
  omega

/-- All breakpoints of a text. -/
def scanBreakpoints (content : Str) : List Breakpoint := scanLines content 0 false

/-- A breakpoint's score, less the farther it is from the target. -/
def decayedScore (F : F64) (breakpoint : Breakpoint) (target breakWindow : ℕ) : F.φ :=
  let distance := target - breakpoint.position
  let normalizedDistance := F.div (F.ofNat distance) (F.ofNat (max breakWindow 1))
  F.div (F.ofNat breakpoint.score)
    (F.add (F.ofNat 1) (F.mul F.distanceDecay (F.powi normalizedDistance 2)))

/-- The best breakpoint in the window before the target. -/
def bestBreakpoint (F : F64) (breakpoints : List Breakpoint) (start target breakWindow : ℕ) :
    Option ℕ :=
  let lower := target - breakWindow
  (maxBy
    (fun left right =>
      F.totalCmp (decayedScore F left target breakWindow) (decayedScore F right target breakWindow))
    (breakpoints.filter fun b => b.position > start && b.position ≤ target && b.position ≥ lower)).map
    (·.position)

/-! ## Planners -/

/-- The loop both planners share: end a chunk where `endOf` says, then step back by the
    overlap. -/
def chunkLoop (content : Str) (overlap : ℕ) (endOf : ℕ → ℕ) (start : ℕ) : List ChunkSpan :=
  if start < content.len then
    let end_ := endOf start
    ⟨start, end_⟩ ::
      if content.len ≤ end_ then []
      else chunkLoop content overlap endOf (nextStart content start end_ overlap)
  else []
termination_by content.len - start
decreasing_by
  have hlt : start < nextStart content start (endOf start) overlap := lt_nextStart ‹start < content.len›
  omega

/-- Chunks of one size, cut between scalars. -/
def fixedUtf8Chunks (content : Str) (chunkSize overlap : ℕ) : List ChunkSpan :=
  if content.bytes.isEmpty ∨ chunkSize = 0 then []
  else if content.len ≤ chunkSize ∨ chunkSize - overlap = 0 then [⟨0, content.len⟩]
  else chunkLoop content overlap (fun start => fixedEnd content start chunkSize) 0

/-- The end of the structural chunk that starts at `start`. -/
def structureEnd (F : F64) (content : Str) (breakpoints : List Breakpoint)
    (chunkSize breakWindow start : ℕ) : ℕ :=
  let target := min (start + chunkSize) content.len
  let end_ :=
    if content.len ≤ target then content.len
    else (bestBreakpoint F breakpoints start target breakWindow).getD
      (fixedEnd content start chunkSize)
  if end_ ≤ start then fixedEnd content start chunkSize else end_

/-- Chunks that end at breakpoints where there are any. -/
def structureChunks (F : F64) (content : Str) (chunkSize overlap breakWindow : ℕ) :
    List ChunkSpan :=
  if content.bytes.isEmpty ∨ chunkSize = 0 then []
  else if content.len ≤ chunkSize ∨ chunkSize - overlap = 0 then [⟨0, content.len⟩]
  else
    let breakpoints := scanBreakpoints content
    if breakpoints.isEmpty then fixedUtf8Chunks content chunkSize overlap
    else chunkLoop content overlap (structureEnd F content breakpoints chunkSize breakWindow) 0

/-- `StructureChunkPlanner::plan`, the planner of every path. -/
def planChunks (F : F64) (content : Str) (chunkSize overlap : ℕ) : ChunkPlan :=
  ⟨"structure", structureChunks F content chunkSize overlap (max (chunkSize / 2) 1)⟩

end Ask
