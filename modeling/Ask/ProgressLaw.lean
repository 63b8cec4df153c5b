/-
  When the chunks of a plan add text: their ends never go back, and they move
  on at every step unless the window of the next chunk leads to the same end.
-/
import Ask.ScanLaw
import Ask.SizeLaw

namespace Ask

open Lib.Utf8

variable {F : F64} {content : Str} {start overlap chunkSize breakWindow i : ℕ}
  {b b' : Breakpoint} {breakpoints : List Breakpoint}

/-! ## Scores -/

/-- The score of a breakpoint in exact arithmetic. -/
def exactScore (b : Breakpoint) (target breakWindow : ℕ) : ℚ :=
  decayedScore .exact b target breakWindow

theorem exactScore_eq (b : Breakpoint) (target breakWindow : ℕ) : exactScore b target breakWindow =
    (b.score : ℚ) /
      (1 + 7 / 10 * (((target - b.position : ℕ) : ℚ) / ((max breakWindow 1 : ℕ) : ℚ)) ^ 2) := by
  simp only [exactScore, decayedScore, F64.exact, Nat.cast_one]

/-- Of two breakpoints the one closer to the target loses less of its score when the target moves
    away, as long as the other one stays in the window. -/
theorem ratio_shift {x y d : ℚ} (hx : 0 ≤ x) (hxy : x ≤ y) (hd : 0 ≤ d) (hy : y + d ≤ 1) :
    (1 + 7 / 10 * y ^ 2) * (1 + 7 / 10 * (x + d) ^ 2) ≤
      (1 + 7 / 10 * x ^ 2) * (1 + 7 / 10 * (y + d) ^ 2) := by
  have hyy : y * (y + d) ≤ 1 := by nlinarith
  have hbound : 2 * (x * y) + d * (x + y) ≤ 2 := by nlinarith
  have hgap : 0 ≤ d * (y - x) := mul_nonneg hd (sub_nonneg.2 hxy)
  nlinarith [mul_nonneg hgap (sub_nonneg.2 hbound)]

theorem score_shift {p q x y d : ℚ} (hp : 0 ≤ p) (hx : 0 ≤ x) (hxy : x ≤ y) (hd : 0 ≤ d)
    (hy : y + d ≤ 1) (h : q / (1 + 7 / 10 * y ^ 2) ≤ p / (1 + 7 / 10 * x ^ 2)) :
    q / (1 + 7 / 10 * (y + d) ^ 2) ≤ p / (1 + 7 / 10 * (x + d) ^ 2) := by
  have hpos : ∀ z : ℚ, 0 < 1 + 7 / 10 * z ^ 2 := fun z => by positivity
  have hratio := ratio_shift hx hxy hd hy
  rw [div_le_div_iff₀ (hpos y) (hpos x)] at h
  rw [div_le_div_iff₀ (hpos _) (hpos _)]
  refine le_of_mul_le_mul_right ?_ (hpos x)
  calc q * (1 + 7 / 10 * (x + d) ^ 2) * (1 + 7 / 10 * x ^ 2)
      = q * (1 + 7 / 10 * x ^ 2) * (1 + 7 / 10 * (x + d) ^ 2) := by ring
    _ ≤ p * (1 + 7 / 10 * y ^ 2) * (1 + 7 / 10 * (x + d) ^ 2) :=
        mul_le_mul_of_nonneg_right h (hpos _).le
    _ = p * ((1 + 7 / 10 * y ^ 2) * (1 + 7 / 10 * (x + d) ^ 2)) := by ring
    _ ≤ p * ((1 + 7 / 10 * x ^ 2) * (1 + 7 / 10 * (y + d) ^ 2)) := mul_le_mul_of_nonneg_left hratio hp
    _ = p * (1 + 7 / 10 * (y + d) ^ 2) * (1 + 7 / 10 * x ^ 2) := by ring

/-- A breakpoint that beats an earlier one still does so for a later target. -/
theorem exactScore_shift {target target' : ℕ} (hpos : b'.position ≤ b.position)
    (hb : b.position ≤ target) (htarget : target ≤ target')
    (hwindow : target' - breakWindow ≤ b'.position) (hw : 0 < breakWindow)
    (h : exactScore b' target breakWindow ≤ exactScore b target breakWindow) :
    exactScore b' target' breakWindow ≤ exactScore b target' breakWindow := by
  have hwq : (0 : ℚ) < (breakWindow : ℚ) := by exact_mod_cast hw
  have hshift : ∀ p : ℕ, p ≤ target → ((target' - p : ℕ) : ℚ) / breakWindow =
      ((target - p : ℕ) : ℚ) / breakWindow + ((target' - target : ℕ) : ℚ) / breakWindow := by
    intro p hp
    rw [← add_div, ← Nat.cast_add]
    congr 2
    omega
  rw [exactScore_eq, exactScore_eq, max_eq_left hw] at h ⊢
  rw [hshift _ (hpos.trans hb), hshift _ hb]
  refine score_shift (by positivity) (by positivity) ?_ (by positivity) ?_ h
  · exact div_le_div_of_nonneg_right (by exact_mod_cast by omega) hwq.le
  · rw [← add_div, div_le_one hwq]
    exact_mod_cast by omega

/-! ## Windows -/

variable {target target' start' e e' : ℕ}

/-- The breakpoints that may end the chunk from `start`. -/
def candidates (breakpoints : List Breakpoint) (start target breakWindow : ℕ) : List Breakpoint :=
  breakpoints.filter fun b =>
    b.position > start && b.position ≤ target && b.position ≥ target - breakWindow

theorem mem_candidates : b ∈ candidates breakpoints start target breakWindow ↔
    b ∈ breakpoints ∧ start < b.position ∧ b.position ≤ target ∧ target - breakWindow ≤ b.position := by
  simp only [candidates, List.mem_filter, Bool.and_eq_true, decide_eq_true_eq, and_assoc, gt_iff_lt,
    ge_iff_le]

theorem bestBreakpoint_eq_none
    (h : bestBreakpoint F breakpoints start target breakWindow = none) :
    candidates breakpoints start target breakWindow = [] :=
  maxBy_eq_none.1 (Option.map_eq_none_iff.1 h)

theorem bestBreakpoint_some
    (h : bestBreakpoint F breakpoints start target breakWindow = some e) :
    ∃ b ∈ candidates breakpoints start target breakWindow, b.position = e := by
  obtain ⟨b, hb, hpos⟩ := Option.map_eq_some_iff.1 h
  exact ⟨b, mem_of_maxBy hb, hpos⟩

/-- The best breakpoint stands last among those of its score. -/
theorem bestBreakpoint_split (h : bestBreakpoint .exact breakpoints start target breakWindow = some e) :
    ∃ b before after, candidates breakpoints start target breakWindow = before ++ b :: after ∧
      b.position = e ∧
      (∀ y ∈ before, exactScore y target breakWindow ≤ exactScore b target breakWindow) ∧
      ∀ y ∈ after, exactScore y target breakWindow < exactScore b target breakWindow := by
  obtain ⟨b, hb, hpos⟩ := Option.map_eq_some_iff.1 h
  obtain ⟨before, after, hsplit, hbefore, hafter⟩ :=
    maxBy_split (fun b => exactScore b target breakWindow) hb
  exact ⟨b, before, after, hsplit, hpos, hbefore, hafter⟩

/-- A window further on has no earlier best breakpoint. -/
theorem best_le_best (hsorted : breakpoints.Pairwise fun a b => a.position ≤ b.position)
    (hstart : start ≤ start') (htarget : target ≤ target') (hw : 0 < breakWindow)
    (h : bestBreakpoint .exact breakpoints start target breakWindow = some e)
    (h' : bestBreakpoint .exact breakpoints start' target' breakWindow = some e') : e ≤ e' := by
  by_contra hlt
  obtain ⟨b, before, after, hsplit, rfl, hbefore, hafter⟩ := bestBreakpoint_split h
  obtain ⟨b', before', after', hsplit', rfl, -, hafter'⟩ := bestBreakpoint_split h'
  obtain ⟨hmem, -, hble, -⟩ := mem_candidates.1 (hsplit ▸ List.mem_append_right before List.mem_cons_self)
  obtain ⟨hmem', hgt', -, hlow'⟩ :=
    mem_candidates.1 (hsplit' ▸ List.mem_append_right before' List.mem_cons_self)
  -- each of the two stands in the other's window
  have hin : b' ∈ before ++ b :: after :=
    hsplit ▸ mem_candidates.2 ⟨hmem', by omega, by omega, by omega⟩
  have hin' : b ∈ before' ++ b' :: after' :=
    hsplit' ▸ mem_candidates.2 ⟨hmem, by omega, by omega, by omega⟩
  have hscore : exactScore b' target breakWindow ≤ exactScore b target breakWindow := by
    rcases List.mem_append.1 hin with hin | hin
    · exact hbefore b' hin
    · rcases List.mem_cons.1 hin with rfl | hin
      · exact le_rfl
      · exact (hafter b' hin).le
  have hsorted' : (before' ++ b' :: after').Pairwise fun a b => a.position ≤ b.position :=
    hsplit' ▸ hsorted.filter _
  have hshift := exactScore_shift (by omega) hble htarget hlow' hw hscore
  rcases List.mem_append.1 hin' with hin' | hin'
  · have := (List.pairwise_append.1 hsorted').2.2 b hin' b' List.mem_cons_self
    omega
  · rcases List.mem_cons.1 hin' with rfl | hin'
    · exact hlt le_rfl
    · exact absurd (hafter' b hin') (not_lt.2 hshift)

/-! ## Ends -/

/-- Where a structural chunk from `start` may end. -/
inductive EndCase (F : F64) (content : Str) (breakpoints : List Breakpoint)
    (chunkSize breakWindow start : ℕ) : ℕ → Prop
  | last : content.len ≤ start + chunkSize →
      EndCase F content breakpoints chunkSize breakWindow start content.len
  | best {e : ℕ} : start + chunkSize < content.len →
      bestBreakpoint F breakpoints start (start + chunkSize) breakWindow = some e →
      EndCase F content breakpoints chunkSize breakWindow start e
  | fixed : start + chunkSize < content.len →
      bestBreakpoint F breakpoints start (start + chunkSize) breakWindow = none →
      EndCase F content breakpoints chunkSize breakWindow start (fixedEnd content start chunkSize)

theorem structureEnd_case (hlt : start < content.len) :
    EndCase F content breakpoints chunkSize breakWindow start
      (structureEnd F content breakpoints chunkSize breakWindow start) := by
  unfold structureEnd
  dsimp only
  by_cases hlast : content.len ≤ start + chunkSize
  · rw [min_eq_right hlast, if_pos le_rfl, if_neg (not_le.2 hlt)]
    exact .last hlast
  · rw [min_eq_left (not_le.1 hlast).le, if_neg hlast]
    cases hbest : bestBreakpoint F breakpoints start (start + chunkSize) breakWindow with
    | none =>
      rw [Option.getD_none, ite_self]
      exact .fixed (not_le.1 hlast) hbest
    | some e =>
      obtain ⟨-, -, -, hgt, -⟩ := bestBreakpoint_mem hbest
      rw [Option.getD_some, if_neg (not_le.2 hgt)]
      exact .best (not_le.1 hlast) hbest

/-- Inside of the content a fixed end is the last boundary in the window, or the end of a scalar
    that reaches out of it. -/
theorem fixedEnd_case (hb : content.isCharBoundary start = true)
    (hlen : start + chunkSize < content.len) :
    start < floorCharBoundary content (start + chunkSize) ∧
        fixedEnd content start chunkSize = floorCharBoundary content (start + chunkSize) ∨
      OneScalar content start (fixedEnd content start chunkSize) ∧
        start + chunkSize < fixedEnd content start chunkSize := by
  have hlt : start < content.len := by omega
  unfold fixedEnd
  rw [min_eq_left hlen.le]
  dsimp only
  split_ifs with hfloor
  · exact .inl ⟨hfloor, rfl⟩
  · have hone := oneScalar_ceil hb hlt
    refine .inr ⟨hone, ?_⟩
    by_contra hle
    have := le_floorCharBoundary hone.ends (not_lt.1 hle)
    have := hone.lt
    omega

/-- A later start has no earlier end. -/
theorem EndCase.mono {next : ℕ}
    (h : EndCase .exact content (scanBreakpoints content) chunkSize breakWindow start e)
    (h' : EndCase .exact content (scanBreakpoints content) chunkSize breakWindow next e')
    (hw : 0 < breakWindow) (hnext : start ≤ next) (hbn : content.isCharBoundary next = true)
    (hbe : content.isCharBoundary e = true) (hle : e ≤ start + chunkSize) (hlen : e < content.len) :
    e ≤ e' := by
  cases h' with
  | last => exact hlen.le
  | best _ hbest' =>
    cases h with
    | last => omega
    | best _ hbest => exact best_le_best sorted_scanLines hnext (by omega) hw hbest hbest'
    | fixed _ hnone =>
      -- a breakpoint of the later window in the first one would have been a candidate
      by_contra hlt
      obtain ⟨b', hmem', rfl⟩ := bestBreakpoint_some hbest'
      obtain ⟨hscan, hgt, -, hlow⟩ := mem_candidates.1 hmem'
      have hmem : b' ∈ candidates (scanBreakpoints content) start (start + chunkSize) breakWindow :=
        mem_candidates.2 ⟨hscan, by omega, by omega, by omega⟩
      rw [bestBreakpoint_eq_none hnone] at hmem
      cases hmem
  | fixed hin' =>
    obtain ⟨-, heq⟩ | ⟨-, hgt⟩ := fixedEnd_case hbn hin'
    · rw [heq]; exact le_floorCharBoundary hbe (by omega)
    · omega

/-- An end with a start before it lies in the window. -/
theorem EndCase.le_of_inner {next : ℕ}
    (h : EndCase F content breakpoints chunkSize breakWindow start e)
    (hb : content.isCharBoundary start = true) (hbn : content.isCharBoundary next = true)
    (hgt : start < next) (hnext : next < e) (hlen : e < content.len) : e ≤ start + chunkSize := by
  cases h with
  | last => omega
  | best _ hbest =>
    obtain ⟨-, -, -, -, hle⟩ := bestBreakpoint_mem hbest
    exact hle
  | fixed hin =>
    obtain ⟨-, heq⟩ | ⟨hone, -⟩ := fixedEnd_case hb hin
    · rw [heq]; exact floorCharBoundary_le
    · -- a lone scalar has no start inside
      rw [hone.inner next hgt hnext] at hbn
      cases hbn

/-! ## One step -/

/-- The end that `plan_chunks` gives the chunk from `start`. -/
def planEnd (content : Str) (chunkSize start : ℕ) : ℕ :=
  structureEnd .exact content (scanBreakpoints content) chunkSize (max (chunkSize / 2) 1) start

/-- Where `plan_chunks` goes on after the chunk from `start`. -/
def planNext (content : Str) (chunkSize overlap start : ℕ) : ℕ :=
  nextStart content start (planEnd content chunkSize start) overlap

/-- The best breakpoint for the chunk from `start`. -/
def planBest (content : Str) (chunkSize start : ℕ) : Option ℕ :=
  bestBreakpoint .exact (scanBreakpoints content) start (start + chunkSize) (max (chunkSize / 2) 1)

/-- The chunk after the one from `start` adds nothing: it starts before the end, and its window holds
    that end as best breakpoint, or no breakpoint and no later boundary. -/
def Stalls (content : Str) (chunkSize overlap start : ℕ) : Prop :=
  let end_ := planEnd content chunkSize start
  let next := planNext content chunkSize overlap start
  next < end_ ∧ next + chunkSize < content.len ∧
    (planBest content chunkSize next).getD (floorCharBoundary content (next + chunkSize)) = end_

instance : Decidable (Stalls content chunkSize overlap start) := inferInstanceAs (Decidable (_ ∧ _ ∧ _))

section step
variable (chunkSize overlap : ℕ) (hb : content.isCharBoundary start = true) (hlt : start < content.len)
include hb hlt

theorem goodEnd_planEnd : GoodEnd content start (planEnd content chunkSize start) :=
  goodEnd_structureEnd .exact chunkSize _ hb hlt

theorem follows_planNext : content.isCharBoundary (planNext content chunkSize overlap start) = true ∧
    Follows content overlap ⟨start, planEnd content chunkSize start⟩
      (planNext content chunkSize overlap start) :=
  follows_nextStart hb (goodEnd_planEnd chunkSize hb hlt)

theorem planEnd_le (hnext : planNext content chunkSize overlap start < planEnd content chunkSize start)
    (hlen : planEnd content chunkSize start < content.len) :
    planEnd content chunkSize start ≤ start + chunkSize := by
  obtain ⟨hbn, hfol⟩ := follows_planNext chunkSize overlap hb hlt
  exact EndCase.le_of_inner (structureEnd_case hlt) hb hbn hfol.start_lt hnext hlen

/-- Ends never go back. -/
theorem planEnd_le_planNext (hlen : planEnd content chunkSize start < content.len) :
    planEnd content chunkSize start ≤
      planEnd content chunkSize (planNext content chunkSize overlap start) := by
  obtain ⟨hnb, hfol⟩ := follows_planNext chunkSize overlap hb hlt
  have hnlt := lt_of_le_of_lt hfol.le_end hlen
  obtain hnext | hnext := hfol.le_end.lt_or_eq
  · exact EndCase.mono (structureEnd_case hlt) (structureEnd_case hnlt) (by omega) hfol.start_lt.le hnb
      (goodEnd_planEnd chunkSize hb hlt).2 (planEnd_le chunkSize overlap hb hlt hnext hlen) hlen
  · dsimp only at hnext
    exact hnext.symm.le.trans (goodEnd_planEnd chunkSize hnb hnlt).1.le

/-- They stay where they are exactly when the step stalls. -/
theorem stalls_iff (hlen : planEnd content chunkSize start < content.len) :
    Stalls content chunkSize overlap start ↔
      planEnd content chunkSize (planNext content chunkSize overlap start) =
        planEnd content chunkSize start := by
  obtain ⟨hnb, hfol⟩ := follows_planNext chunkSize overlap hb hlt
  have hnlt := lt_of_le_of_lt hfol.le_end hlen
  have hgt := (goodEnd_planEnd chunkSize hnb hnlt).1
  have hin := planEnd_le chunkSize overlap hb hlt
  have hbe := (goodEnd_planEnd chunkSize hb hlt).2
  have hstart := hfol.start_lt
  have hcase : EndCase .exact content _ chunkSize _ _
    (planEnd content chunkSize (planNext content chunkSize overlap start)) := structureEnd_case hnlt
  unfold Stalls planBest
  dsimp only at hstart ⊢
  generalize planNext content chunkSize overlap start = next at *
  generalize planEnd content chunkSize start = e at *
  generalize planEnd content chunkSize next = e' at *
  cases hcase with
  | last h => exact ⟨fun h => by omega, fun h => by omega⟩
  | best h hbest =>
    rw [hbest, Option.getD_some]
    exact ⟨fun h => h.2.2, fun heq => ⟨heq ▸ hgt, h, heq⟩⟩
  | fixed h hnone =>
    rw [hnone, Option.getD_none]
    obtain ⟨hfloor, heq⟩ | ⟨hone, hout⟩ := fixedEnd_case hnb h
    · rw [heq]
      exact ⟨fun h => h.2.2, fun heq => ⟨heq ▸ hfloor, h, heq⟩⟩
    · refine ⟨fun ⟨hnext, _, hfl⟩ => ?_, fun heq => ?_⟩
      · have hle : e ≤ next + chunkSize := hfl ▸ floorCharBoundary_le
        rw [hone.inner e hnext (by omega)] at hbe
        cases hbe
      · have := hin (heq ▸ hgt) hlen
        omega

end step

/-! ## Plans -/

/-- Each chunk ends after the ones before it. -/
def EndsIncrease (spans : List ChunkSpan) : Prop := spans.Pairwise fun a b => a.end_ < b.end_

instance (spans : List ChunkSpan) : Decidable (EndsIncrease spans) :=
  inferInstanceAs (Decidable (spans.Pairwise _))

theorem endsIncrease_cons_cons {a b : ChunkSpan} {spans : List ChunkSpan} :
    EndsIncrease (a :: b :: spans) ↔ a.end_ < b.end_ ∧ EndsIncrease (b :: spans) := by
  refine ⟨fun h => ⟨(List.pairwise_cons.1 h).1 b List.mem_cons_self, (List.pairwise_cons.1 h).2⟩,
    fun ⟨hlt, h⟩ => List.pairwise_cons.2 ⟨fun c hc => ?_, h⟩⟩
  rcases List.mem_cons.1 hc with rfl | hc
  · exact hlt
  · exact hlt.trans ((List.pairwise_cons.1 h).1 c hc)

/-- The loop goes on from `start` to `next`. -/
def LoopStep (content : Str) (chunkSize overlap start next : ℕ) : Prop :=
  planEnd content chunkSize start < content.len ∧ next = planNext content chunkSize overlap start

/-- The loop of `plan_chunks` comes from `start` to `next`. -/
def Reaches (content : Str) (chunkSize overlap : ℕ) : ℕ → ℕ → Prop :=
  Relation.ReflTransGen (LoopStep content chunkSize overlap)

theorem reaches_iff : Reaches content chunkSize overlap start start' ↔
    start' = start ∨ planEnd content chunkSize start < content.len ∧
      Reaches content chunkSize overlap (planNext content chunkSize overlap start) start' := by
  rw [Reaches, Relation.ReflTransGen.cases_head_iff, eq_comm]
  refine or_congr_right ⟨?_, fun ⟨hlen, h⟩ => ⟨_, ⟨hlen, rfl⟩, h⟩⟩
  rintro ⟨_, ⟨hlen, rfl⟩, h⟩
  exact ⟨hlen, h⟩

/-- A step that stalls is not the last one. -/
theorem Stalls.end_lt (h : Stalls content chunkSize overlap start) :
    planEnd content chunkSize start < content.len := by
  obtain ⟨-, hlen, hend⟩ := h
  rw [← hend]
  refine lt_of_le_of_lt ?_ hlen
  cases hbest : planBest content chunkSize (planNext content chunkSize overlap start) with
  | none => exact floorCharBoundary_le
  | some e =>
    obtain ⟨-, -, -, -, hle⟩ := bestBreakpoint_mem hbest
    exact hle

theorem chunkLoop_of_lt {endOf : ℕ → ℕ} (hlt : start < content.len) :
    chunkLoop content overlap endOf start = ⟨start, endOf start⟩ ::
      if content.len ≤ endOf start then []
      else chunkLoop content overlap endOf (nextStart content start (endOf start) overlap) := by
  rw [chunkLoop, if_pos hlt]

theorem endsIncrease_chunkLoop (hb : content.isCharBoundary start = true) (hlt : start < content.len) :
    EndsIncrease (chunkLoop content overlap (planEnd content chunkSize) start) ↔
      ∀ s, Reaches content chunkSize overlap start s → ¬Stalls content chunkSize overlap s := by
  fun_induction chunkLoop content overlap (planEnd content chunkSize) start with
  | case1 start h end_ ih =>
    split_ifs with hle
    · refine iff_of_true (List.pairwise_singleton _ _) fun s hs hstall => ?_
      obtain rfl | ⟨hlen, -⟩ := reaches_iff.1 hs
      · exact not_lt.2 hle hstall.end_lt
      · exact not_lt.2 hle hlen
    · have hlen : planEnd content chunkSize start < content.len := not_le.1 hle
      obtain ⟨hbn, hfol⟩ := follows_planNext chunkSize overlap hb h
      have hnlt := lt_of_le_of_lt hfol.le_end hlen
      have hstep : end_ < planEnd content chunkSize (planNext content chunkSize overlap start) ↔
          ¬Stalls content chunkSize overlap start := by
        rw [stalls_iff chunkSize overlap hb h hlen]
        have := planEnd_le_planNext chunkSize overlap hb h hlen
        constructor
        · exact fun hlt heq => absurd heq hlt.ne'
        · exact fun hne => lt_of_le_of_ne this fun heq => hne heq.symm
      have hrest : EndsIncrease (chunkLoop content overlap (planEnd content chunkSize)
          (planNext content chunkSize overlap start)) ↔ _ := ih hbn hnlt
      show EndsIncrease (⟨start, end_⟩ :: chunkLoop content overlap (planEnd content chunkSize)
        (planNext content chunkSize overlap start)) ↔ _
      rw [chunkLoop_of_lt hnlt] at hrest ⊢
      rw [endsIncrease_cons_cons, hrest]
      constructor
      · rintro ⟨hend, hall⟩ s hs
        obtain rfl | ⟨-, hs⟩ := reaches_iff.1 hs
        · exact hstep.1 hend
        · exact hall s hs
      · intro hall
        exact ⟨hstep.2 (hall start .refl), fun s hs => hall s (reaches_iff.2 (.inr ⟨hlen, hs⟩))⟩
  | case2 => omega

/-- Without breakpoints the structural ends are the fixed ones. -/
theorem structureEnd_nil :
    structureEnd F content [] chunkSize breakWindow = fun start => fixedEnd content start chunkSize := by
  funext start
  unfold structureEnd
  dsimp only
  split_ifs with hlast hend
  · rfl
  · unfold fixedEnd
    rw [le_antisymm (min_le_right _ _) hlast]
    dsimp only
    rw [floorCharBoundary_eq Str.isCharBoundary_len, if_pos (not_le.1 hend)]
  · rfl
  · rfl

/-- A content longer than a chunk is planned by one loop. -/
theorem structureChunks_eq (h : overlap < chunkSize) (hlen : chunkSize < content.len) :
    structureChunks F content chunkSize overlap breakWindow = chunkLoop content overlap
      (structureEnd F content (scanBreakpoints content) chunkSize breakWindow) 0 := by
  have hne : ¬(content.bytes.isEmpty = true ∨ chunkSize = 0) := by
    rintro (hnil | hzero)
    · rw [Str.len, List.isEmpty_iff.1 hnil, List.length_nil] at hlen; omega
    · omega
  have hone : ¬(content.len ≤ chunkSize ∨ chunkSize - overlap = 0) := by omega
  unfold structureChunks fixedUtf8Chunks
  rw [if_neg hne, if_neg hone]
  dsimp only
  split_ifs with hnil
  · rw [List.isEmpty_iff.1 hnil, structureEnd_nil]
  · rfl

/-- The ends of a plan increase exactly when no step of its loop stalls. -/
theorem endsIncrease_planChunks (h : overlap < chunkSize) :
    EndsIncrease (planChunks .exact content chunkSize overlap).spans ↔
      ∀ s, Reaches content chunkSize overlap 0 s → ¬Stalls content chunkSize overlap s := by
  by_cases hlen : chunkSize < content.len
  · show EndsIncrease (structureChunks .exact content chunkSize overlap _) ↔ _
    rw [structureChunks_eq h hlen]
    exact endsIncrease_chunkLoop Str.isCharBoundary_zero (by omega)
  · refine iff_of_true ?_ fun s _ hstall => ?_
    · show EndsIncrease (structureChunks .exact content chunkSize overlap _)
      unfold structureChunks
      split_ifs
      · exact .nil
      · exact List.pairwise_singleton _ _
      · omega
    · have := hstall.2.1
      omega

/-! ## Configurations -/

/-- The configurations under which no step stalls, whatever the content. -/
def Advances (chunkSize overlap : ℕ) : Prop :=
  overlap = 0 ∨ 2 * overlap + 6 < chunkSize ∨ chunkSize = 8 ∧ overlap = 1

instance : Decidable (Advances chunkSize overlap) := inferInstanceAs (Decidable (_ ∨ _ ∨ _ ∧ _))

theorem floor_le_nextStart (e overlap : ℕ) (hlt : start < content.len) :
    floorCharBoundary content (e - overlap) ≤ nextStart content start e overlap := by
  have := lt_ceilCharBoundary hlt
  unfold nextStart
  dsimp only
  split_ifs <;> omega

/-- The window reaches past the end that it would have to meet. -/
theorem not_stalls (hadv : Advances chunkSize overlap) (hb : content.isCharBoundary start = true)
    (hlt : start < content.len) : ¬Stalls content chunkSize overlap start := by
  rintro ⟨hnext, hlen, hend⟩
  obtain ⟨-, hfol⟩ := follows_planNext chunkSize overlap hb hlt
  have hfloor := floor_le_nextStart (planEnd content chunkSize start) overlap hlt
  have hmeets := hfol.meets
  have hshared := hfol.shared_le
  unfold planBest at hend
  rw [show nextStart content start _ overlap = planNext content chunkSize overlap start from rfl] at hfloor
  dsimp only at hshared hmeets hnext hlen hend
  generalize planNext content chunkSize overlap start = next at *
  generalize planEnd content chunkSize start = e at *
  cases hbest : bestBreakpoint .exact (scanBreakpoints content) next (next + chunkSize)
      (max (chunkSize / 2) 1) with
  | none =>
    rw [hbest, Option.getD_none] at hend
    have := floorCharBoundary_near hlen.le
    obtain rfl | hadv | ⟨rfl, rfl⟩ := hadv <;> omega
  | some e' =>
    rw [hbest, Option.getD_some] at hend
    obtain ⟨b, hmem, rfl⟩ := bestBreakpoint_some hbest
    obtain ⟨hscan, -, -, hlow⟩ := mem_candidates.1 hmem
    obtain rfl | hadv | ⟨rfl, rfl⟩ := hadv
    · omega
    · omega
    · -- one byte back there is the newline, so that the next start is just before the end
      have hline : content.isCharBoundary (e - 1) = true := hend ▸ (startsLine_of_mem hscan).boundary
      rw [floorCharBoundary_eq hline] at hfloor
      omega

/-! ## Contents that stall -/

theorem trimFront_suffix (width : Bytes → ℕ) (bytes : Bytes) : trimFront width bytes <:+ bytes := by
  fun_induction trimFront width bytes with
  | case1 bytes _ ih => exact ih.trans (List.drop_suffix _ _)
  | case2 => exact List.suffix_rfl

/-- What starts with a letter keeps its start when it is trimmed, so that it opens no fence. -/
theorem isCodeFence_trim_letter (bytes : Bytes) : isCodeFence (trim (0x61 :: bytes)) = false := by
  have hfront : trimFront whiteSpaceLen (0x61 :: bytes) = 0x61 :: bytes := by
    rw [trimFront, if_neg (by simp [whiteSpaceLen])]
  have hpre : trim (0x61 :: bytes) <+: 0x61 :: bytes := by
    rw [trim, hfront, ← List.reverse_suffix, List.reverse_reverse]
    exact trimFront_suffix _ _
  cases htrim : trim (0x61 :: bytes) with
  | nil => rfl
  | cons b trimmed =>
    rw [htrim, List.cons_prefix_cons] at hpre
    rw [hpre.1]
    rfl

/-- The first line ends before the first newline. -/
theorem lineEnd_zero {line tail : Bytes} (hbytes : content.bytes = line ++ 0x0A :: tail)
    (hline : 0x0A ∉ line) : lineEnd content 0 = line.length := by
  have hnone : line.findIdx? (· = 0x0A) = none := by
    rw [List.findIdx?_eq_none_iff]
    intro b hb
    exact decide_eq_false fun h => hline (h ▸ hb)
  unfold lineEnd
  simp [hbytes, List.findIdx?_append, hnone, List.findIdx?_cons]

/-- Two lines, of which the first starts with a letter, have their breakpoints between them. -/
theorem scanBreakpoints_twoLines {line tail : Bytes} (hbytes : content.bytes = line ++ 0x0A :: tail)
    (hline : 0x0A ∉ line) (htail : 0x0A ∉ tail) (hne : tail ≠ []) (hletter : line.head? = some 0x61) :
    scanBreakpoints content ≠ [] ∧ ∀ b ∈ scanBreakpoints content, b.position = line.length + 1 := by
  have htail' := List.length_pos_iff.2 hne
  have hlen : content.len = line.length + 1 + tail.length := by
    rw [Str.len, hbytes, List.length_append, List.length_cons]; omega
  refine ⟨?_, fun b hb => ?_⟩
  · have hnext : nextLineStart content 0 = line.length + 1 := by
      rw [nextLineStart, lineEnd_zero hbytes hline, if_pos (by omega)]
    have hslice : content.slice 0 (lineEnd content 0) = line := by
      rw [lineEnd_zero hbytes hline, Str.slice, hbytes, List.drop_zero, Nat.sub_zero, List.take_left]
    have hfence : isCodeFence (trim line) = false := by
      obtain ⟨rest, rfl⟩ := List.head?_eq_some_iff.1 hletter
      exact isCodeFence_trim_letter rest
    have hpush : ∀ score, pushBreakpoint (line.length + 1) score content.len = [⟨line.length + 1, score⟩] :=
      fun score => if_neg (by omega)
    rw [scanBreakpoints, scanLines, if_pos (by omega)]
    dsimp only
    rw [hslice, hfence, hnext, lineBreakpoints, hpush 1]
    simp
  · obtain ⟨h0, hget⟩ := startsLine_of_mem hb
    rw [hbytes, List.getElem?_append] at hget
    split_ifs at hget with hlt
    · exact absurd (List.mem_of_getElem? hget) hline
    · cases hsub : b.position - 1 - line.length with
      | zero => omega
      | succ k =>
        rw [hsub, List.getElem?_cons_succ] at hget
        exact absurd (List.mem_of_getElem? hget) htail

/-- The floor of an index inside of a scalar is where the scalar starts. -/
theorem floorCharBoundary_inside {pre u post : Bytes} (hbytes : content.bytes = pre ++ (u ++ post))
    (hu : scan u = .scalar u.length) (hle : pre.length ≤ i) (hlt : i < pre.length + u.length) :
    floorCharBoundary content i = pre.length := by
  obtain ⟨b, tl, rfl, -, -, hb, htl, -⟩ := scan_self hu
  have hstart : content.isCharBoundary pre.length = true := by
    rw [Str.isCharBoundary, isBoundary, hbytes]
    simp [hb]
  refine le_antisymm (not_lt.1 fun hgt => ?_) (le_floorCharBoundary hstart hle)
  have hfloor : floorCharBoundary content i ≤ i := floorCharBoundary_le
  obtain ⟨k, hk⟩ := Nat.exists_eq_add_of_lt hgt
  rw [List.length_cons] at hlt
  have hbound : content.isCharBoundary (floorCharBoundary content i) = true := isCharBoundary_floor
  have hktl : k < tl.length := by omega
  rw [hk, Str.isCharBoundary, isBoundary, hbytes, if_neg (by omega),
    List.getElem?_append_right (by omega), show pre.length + k + 1 - pre.length = k + 1 by omega,
    List.getElem?_append_left (by simpa using hktl), List.getElem?_cons_succ,
    List.getElem?_eq_getElem hktl] at hbound
  simp [htl _ (List.getElem_mem hktl)] at hbound

/-- With all breakpoints at one place in the window, that place is the best one. -/
theorem bestBreakpoint_only {c : ℕ} (hne : breakpoints ≠ []) (hall : ∀ b ∈ breakpoints, b.position = c)
    (hgt : start < c) (hle : c ≤ target) (hlow : target - breakWindow ≤ c) :
    bestBreakpoint F breakpoints start target breakWindow = some c := by
  cases hbest : bestBreakpoint F breakpoints start target breakWindow with
  | none =>
    obtain ⟨b, hb⟩ := List.exists_mem_of_ne_nil _ hne
    have hmem : b ∈ candidates breakpoints start target breakWindow :=
      mem_candidates.2 ⟨hb, by rw [hall b hb]; exact ⟨hgt, hle, hlow⟩⟩
    rw [bestBreakpoint_eq_none hbest] at hmem
    cases hmem
  | some e =>
    obtain ⟨b, hmem, rfl⟩ := bestBreakpoint_some hbest
    rw [hall b (mem_candidates.1 hmem).1]

/-- The first chunk ends after its line; from far enough back the window leads there again. -/
theorem stalls_of_twoLines {line tail : Bytes} (hbytes : content.bytes = line ++ 0x0A :: tail)
    (hline : 0x0A ∉ line) (htail : 0x0A ∉ tail) (hletter : line.head? = some 0x61)
    (hsize : chunkSize = line.length + 1) (hlong : chunkSize ≤ tail.length)
    (hpos : 0 < floorCharBoundary content (chunkSize - overlap))
    (hfloor : floorCharBoundary content (chunkSize - overlap) ≤ max (chunkSize / 2) 1)
    (ho : 0 < overlap) : Stalls content chunkSize overlap 0 := by
  have htail' : tail ≠ [] := List.length_pos_iff.1 (by omega)
  have hlen : content.len = line.length + 1 + tail.length := by
    rw [Str.len, hbytes, List.length_append, List.length_cons]; omega
  obtain ⟨hne, hall⟩ := scanBreakpoints_twoLines hbytes hline htail htail' hletter
  rw [← hsize] at hall
  have hle : floorCharBoundary content (chunkSize - overlap) ≤ chunkSize - overlap :=
    floorCharBoundary_le
  have hend : planEnd content chunkSize 0 = chunkSize := by
    have hbest : bestBreakpoint .exact (scanBreakpoints content) 0 chunkSize (max (chunkSize / 2) 1) =
        some chunkSize := bestBreakpoint_only hne hall (by omega) le_rfl (by omega)
    unfold planEnd structureEnd
    rw [min_eq_left (by omega), zero_add]
    dsimp only
    rw [hbest, Option.getD_some, if_neg (show ¬content.len ≤ chunkSize by omega), if_neg (by omega)]
  have hnext : planNext content chunkSize overlap 0 = floorCharBoundary content (chunkSize - overlap) := by
    rw [planNext, hend]
    exact if_neg (not_le.2 hpos)
  have hbest : planBest content chunkSize (floorCharBoundary content (chunkSize - overlap)) =
      some chunkSize := by
    unfold planBest
    exact bestBreakpoint_only hne hall (by omega) (by omega) (by omega)
  unfold Stalls
  dsimp only
  rw [hend, hnext, hbest]
  exact ⟨by omega, by omega, rfl⟩

/-- A scalar of each width. -/
def scalarOf : ℕ → Bytes
  | 1 => [0x61]
  | 2 => [0xC3, 0xA9]
  | 3 => [0xE2, 0x82, 0xAC]
  | _ => [0xF0, 0x9F, 0x98, 0x80]

theorem scan_scalarOf {w : ℕ} (h1 : 1 ≤ w) (h4 : w ≤ 4) : scan (scalarOf w) = .scalar (scalarOf w).length ∧
    (scalarOf w).length = w ∧ 0x0A ∉ scalarOf w := by
  interval_cases w <;> decide

/-- `n` letters. -/
def letters (n : ℕ) : Bytes := List.replicate n 0x61

@[simp] theorem length_letters (n : ℕ) : (letters n).length = n := List.length_replicate

theorem newline_not_mem_letters (n : ℕ) : 0x0A ∉ letters n := by simp [letters]

theorem text_letters (n : ℕ) : Text (letters n) := by
  induction n with
  | zero => exact .nil
  | succ n ih => exact .cons (u := [0x61]) rfl ih

/-- Where `Advances` fails, some content stalls at its first step: the floor of the next start falls back
    to a scalar from which the window reaches just to the end. -/
theorem exists_stalls (ho : overlap < chunkSize) (hadv : ¬Advances chunkSize overlap) (h2 : 2 ≤ overlap) :
    ∃ content, Stalls content chunkSize overlap 0 := by
  simp only [Advances, not_or] at hadv
  obtain ⟨-, hlong, -⟩ := hadv
  -- the scalar starts in the window, and the next start lies in its last byte
  obtain ⟨m, w, hm, hmw, h1, h4, hsum⟩ : ∃ m w, 0 < m ∧ m ≤ max (chunkSize / 2) 1 ∧ 1 ≤ w ∧ w ≤ 4 ∧
      m + w = chunkSize - overlap + 1 :=
    ⟨min (max (chunkSize / 2) 1) (chunkSize - overlap),
      chunkSize - overlap + 1 - min (max (chunkSize / 2) 1) (chunkSize - overlap), by omega, by omega,
      by omega, by omega, by omega⟩
  obtain ⟨hscan, hwidth, hnl⟩ := scan_scalarOf h1 h4
  have htext : Text ((letters m ++ (scalarOf w ++ letters (overlap - 2))) ++ 0x0A :: letters chunkSize) :=
    ((text_letters m).append (.cons hscan (text_letters _))).append (.cons (u := [0x0A]) rfl (text_letters _))
  have hfloor : floorCharBoundary ⟨_, htext⟩ (chunkSize - overlap) = m := by
    have hbytes : (letters m ++ (scalarOf w ++ letters (overlap - 2))) ++ 0x0A :: letters chunkSize =
        letters m ++ (scalarOf w ++ (letters (overlap - 2) ++ 0x0A :: letters chunkSize)) := by simp
    refine (floorCharBoundary_inside hbytes hscan ?_ ?_).trans (length_letters m)
    · rw [length_letters]; omega
    · rw [length_letters, hwidth]; omega
  have hletter : (letters m ++ (scalarOf w ++ letters (overlap - 2))).head? = some 0x61 := by
    obtain ⟨m, rfl⟩ := Nat.exists_eq_add_of_lt hm
    simp [letters, List.replicate_succ]
  refine ⟨⟨_, htext⟩, stalls_of_twoLines rfl ?_ (newline_not_mem_letters _) hletter ?_ (by simp)
    (by omega) (by omega) (by omega)⟩
  · simp [newline_not_mem_letters, hnl]
  · simp only [List.length_append, length_letters, hwidth]; omega

/-- With an overlap of one byte only small chunks stall. -/
theorem exists_stalls_one (h2 : 2 ≤ chunkSize) (h7 : chunkSize ≤ 7) :
    ∃ content, Stalls content chunkSize 1 0 := by
  interval_cases chunkSize
  · exact ⟨⟨letters 1 ++ 0x0A :: letters 8, (check_eq_none (i := 0)).1 (by decide)⟩, by decide +kernel⟩
  · exact ⟨⟨letters 3 ++ scalarOf 4 ++ letters 8, (check_eq_none (i := 0)).1 (by decide)⟩,
      by decide +kernel⟩
  · exact ⟨⟨letters 4 ++ scalarOf 4 ++ letters 8, (check_eq_none (i := 0)).1 (by decide)⟩,
      by decide +kernel⟩
  · exact ⟨⟨letters 1 ++ scalarOf 4 ++ scalarOf 4 ++ letters 8, (check_eq_none (i := 0)).1 (by decide)⟩,
      by decide +kernel⟩
  · exact ⟨⟨letters 2 ++ scalarOf 4 ++ scalarOf 4 ++ letters 8, (check_eq_none (i := 0)).1 (by decide)⟩,
      by decide +kernel⟩
  · exact ⟨⟨letters 3 ++ scalarOf 4 ++ scalarOf 4 ++ letters 8, (check_eq_none (i := 0)).1 (by decide)⟩,
      by decide +kernel⟩

/-! ## When ends increase -/

theorem Reaches.boundary (h : Reaches content chunkSize overlap 0 start) (hlen : 0 < content.len) :
    content.isCharBoundary start = true ∧ start < content.len := by
  induction h with
  | refl => exact ⟨Str.isCharBoundary_zero, hlen⟩
  | @tail s _ _ hstep ih =>
    obtain ⟨hend, rfl⟩ := hstep
    obtain ⟨hbn, hfol⟩ := follows_planNext chunkSize overlap ih.1 ih.2
    exact ⟨hbn, lt_of_le_of_lt hfol.le_end hend⟩

theorem endsIncrease_of_advances (h : overlap < chunkSize) (hadv : Advances chunkSize overlap) :
    EndsIncrease (planChunks .exact content chunkSize overlap).spans := by
  refine (endsIncrease_planChunks h).2 fun s hs hstall => ?_
  have hlen : 0 < content.len := lt_of_le_of_lt (Nat.zero_le _) hstall.end_lt
  obtain ⟨hb, hlt⟩ := hs.boundary hlen
  exact not_stalls hadv hb hlt hstall

/-- **When each chunk of a plan adds text**: the ends of a content's chunks increase exactly if the loop
    reaches no start at which it stalls, and they increase for all contents exactly under the
    configurations that `Advances` names. -/
theorem plan_ends_increase (chunkSize overlap : ℕ) (h : overlap < chunkSize) :
    (∀ content, EndsIncrease (planChunks .exact content chunkSize overlap).spans ↔
      ∀ start, Reaches content chunkSize overlap 0 start → ¬Stalls content chunkSize overlap start) ∧
    ((∀ content, EndsIncrease (planChunks .exact content chunkSize overlap).spans) ↔
      Advances chunkSize overlap) := by
  refine ⟨fun _ => endsIncrease_planChunks h, fun hall => ?_, fun hadv _ => endsIncrease_of_advances h hadv⟩
  by_contra hadv
  obtain ⟨content, hstall⟩ : ∃ content, Stalls content chunkSize overlap 0 := by
    by_cases h2 : 2 ≤ overlap
    · exact exists_stalls h hadv h2
    · have hone : overlap = 1 := by
        simp only [Advances, not_or] at hadv
        omega
      subst hone
      simp only [Advances, not_or, and_true] at hadv
      obtain ⟨-, hle, hne⟩ := hadv
      exact exists_stalls_one h (by omega)
  exact (endsIncrease_planChunks h).1 (hall content) 0 .refl hstall

/-- A short line and a longer one. -/
def twoLineText : Str := ⟨letters 5 ++ 0x0A :: letters 8, (check_eq_none (i := 0)).1 (by decide)⟩

theorem plan_ends_increase_default : EndsIncrease (planChunks .exact twoLineText 512 64).spans :=
  (plan_ends_increase 512 64 (by decide)).2.2 (by decide) twoLineText

/-- The second chunk lies inside of the first. -/
theorem redundant_chunk : (planChunks .exact twoLineText 8 7).spans.take 2 = [⟨0, 6⟩, ⟨1, 6⟩] ∧
    ¬EndsIncrease (planChunks .exact twoLineText 8 7).spans := by
  decide +kernel

end Ask
