/-
  The embed worker prepares the text that was planned: although it reads another
  prefix of the file, what it cuts out for a row is what the planner chunked.

  Decoding with a budget gives the longest text within it, so that a budget cut
  down to the end of a scalar gives the text up to there.
-/
import Ask.Content
import Ask.Lib.Fallible

namespace Ask

open Lib Lib.Utf8

/-! ## Decoding -/

theorem fromUtf8_eq_ok {bs : Bytes} {s : Str} : fromUtf8 bs = .ok s ↔ s.bytes = bs := by
  unfold fromUtf8
  split
  · simp only [Except.ok.injEq, Str.ext_iff, eq_comm]
  · rename_i e he
    simp only [reduceCtorEq, false_iff]
    rintro rfl
    rw [check_eq_none.2 s.valid] at he; cases he

theorem fromUtf8_eq_error {bs : Bytes} {e : Lib.Utf8.Error} :
    fromUtf8 bs = .error e ↔ check 0 0 bs = some e := by
  unfold fromUtf8
  split
  · rename_i h; simp [h]
  · rename_i e' h; simp [h]

variable {bytes pre tail : Bytes} {budget : ℕ} {truncated : Bool} {t : Str}

/-- A text that starts with a text is cut there at a boundary. -/
theorem isBoundary_of_text_take {bs : Bytes} {i : ℕ} (h : Text bs) (hi : Text (bs.take i))
    (hle : i ≤ bs.length) : isBoundary bs i = true := by
  have hrest : Text (bs.drop i) := by
    rw [← check_eq_none (i := 0 + (bs.take i).length), ← check_text hi, List.take_append_drop]
    exact check_eq_none.2 h
  unfold isBoundary
  split_ifs with h0
  · rfl
  · cases hb : bs[i]? with
    | none => simpa using le_antisymm hle (by simpa using hb)
    | some b =>
      have : (bs.drop i)[0]? = some b := by simpa [List.getElem?_drop] using hb
      simp [hrest.head_not_cont this]

/-- A text at the front of the bytes, within the budget. -/
structure TextWithin (bytes : Bytes) (budget : ℕ) (pre : Bytes) : Prop where
  isPrefix : pre <+: bytes
  text : Text pre
  length_le : pre.length ≤ budget

/-- The longest of them. -/
structure LongestText (bytes : Bytes) (budget : ℕ) (t : Str) : Prop extends
    TextWithin bytes budget t.bytes where
  longest : ∀ pre, TextWithin bytes budget pre → pre.length ≤ t.len

/-- The part of the text `s` within the budget. -/
def cutText (s : Str) (budget : ℕ) : Str :=
  s.upTo (floorCharBoundary s (min s.len budget)) isCharBoundary_floor

theorem len_cutText (s : Str) (budget : ℕ) :
    (cutText s budget).len = floorCharBoundary s (min s.len budget) := by
  have hle : floorCharBoundary s (min s.len budget) ≤ min s.len budget := floorCharBoundary_le
  simp only [cutText, Str.len, Str.upTo, List.length_take]
  exact min_eq_left (hle.trans (min_le_left _ _))

/-- What a text leaves may at most be an incomplete scalar for its cut to be the longest one. -/
theorem longestText_cutText (s : Str) (htail : scan tail = .incomplete) :
    LongestText (s.bytes ++ tail) budget (cutText s budget) := by
  have hle : floorCharBoundary s (min s.len budget) ≤ min s.len budget := floorCharBoundary_le
  refine ⟨⟨?_, (cutText s budget).valid, ?_⟩, fun pre hpre => ?_⟩
  · exact (List.take_prefix _ s.bytes).trans (List.prefix_append s.bytes tail)
  · show (cutText s budget).len ≤ budget
    rw [len_cutText]
    exact hle.trans (min_le_right _ _)
  · have hlen : pre.length ≤ s.len := Text.length_le_of_incomplete s.valid htail hpre.text hpre.isPrefix
    have htake : s.bytes.take pre.length = pre := by
      rw [← List.take_append_of_le_length hlen]
      exact (List.prefix_iff_eq_take.1 hpre.isPrefix).symm
    have hb : s.isCharBoundary pre.length = true :=
      isBoundary_of_text_take s.valid (htake.symm ▸ hpre.text) hlen
    rw [len_cutText]
    exact le_floorCharBoundary hb (le_min hlen hpre.length_le)

/-- The bytes are a text, or one with an incomplete scalar at its end when there are more. -/
def Decodable (bytes : Bytes) (truncated : Bool) : Prop :=
  Text bytes ∨ Partial bytes ∧ truncated = true

/-- An error in the middle is in no text and in no text with an incomplete scalar at its end. -/
theorem not_decodable_of_invalid {k n : ℕ} (hc : check 0 0 bytes = some ⟨k, some n⟩) :
    ¬Decodable bytes truncated := by
  rintro (htext | ⟨⟨pre, tail, rfl, hpre, hinc⟩, -⟩)
  · rw [check_eq_none.2 htext] at hc
    cases hc
  · rw [check_text hpre] at hc
    cases tail with
    | nil => cases hc
    | cons b tail =>
      rw [check, hinc] at hc
      simp at hc

theorem decodeBoundedUtf8Prefix_cases (hne : bytes ≠ []) (h0 : 0 < budget) :
    (∃ t, decodeBoundedUtf8Prefix bytes budget truncated = some t ∧ LongestText bytes budget t ∧
        Decodable bytes truncated) ∨
      decodeBoundedUtf8Prefix bytes budget truncated = none ∧ ¬Decodable bytes truncated := by
  have hnil : ¬(bytes.isEmpty = true ∨ budget = 0) := by simp [hne]; omega
  unfold decodeBoundedUtf8Prefix
  rw [if_neg hnil]
  cases hb : fromUtf8 bytes with
  | ok s =>
    have hs := fromUtf8_eq_ok.1 hb
    have hcut : LongestText (s.bytes ++ []) budget (cutText s budget) := longestText_cutText s rfl
    rw [List.append_nil, hs] at hcut
    exact .inl ⟨_, rfl, hcut, .inl (hs ▸ s.valid)⟩
  | error e =>
    dsimp only
    obtain ⟨pre, rest, rfl, hpre, ⟨-, hc⟩ | ⟨hrest, hinc, hc⟩ | ⟨n, -, hc⟩⟩ := check_cases 0 bytes
    · rw [fromUtf8_eq_error.1 hb] at hc
      cases hc
    · obtain rfl : ⟨pre.length, none⟩ = e := by
        rw [fromUtf8_eq_error.1 hb, Option.some.injEq, Nat.zero_add] at hc
        exact hc.symm
      have htext : ¬Text (pre ++ rest) := fun h => by
        rw [check_eq_none.2 h] at hc
        cases hc
      have hok : fromUtf8 ((pre ++ rest).take pre.length) = .ok ⟨pre, hpre⟩ :=
        fromUtf8_eq_ok.2 List.take_left.symm
      cases truncated with
      | true =>
        left
        refine ⟨cutText ⟨pre, hpre⟩ budget, ?_, longestText_cutText ⟨pre, hpre⟩ hinc,
          .inr ⟨⟨pre, rest, rfl, hpre, hinc⟩, rfl⟩⟩
        rw [hok]
        rfl
      | false =>
        right
        exact ⟨rfl, fun h => h.elim htext fun h => Bool.false_ne_true h.2⟩
    · right
      refine ⟨?_, not_decodable_of_invalid hc⟩
      rw [Option.some.inj ((fromUtf8_eq_error.1 hb).symm.trans hc)]
      rfl

/-- What a non-empty decoded prefix says about the bytes. -/
theorem of_decodeBoundedUtf8Prefix
    (h : decodeBoundedUtf8Prefix bytes budget truncated = some t) (hne : t.bytes ≠ []) :
    Partial bytes ∧ (Text bytes ∨ truncated = true) ∧ t.len ≤ budget ∧
      bytes.take t.len = t.bytes := by
  by_cases hempty : bytes.isEmpty = true ∨ budget = 0
  · rw [decodeBoundedUtf8Prefix, if_pos hempty] at h
    cases h
    exact absurd rfl hne
  · rw [not_or, List.isEmpty_iff] at hempty
    obtain ⟨t', hdec, hlong, hvalid⟩ | ⟨hnone, -⟩ :=
      @decodeBoundedUtf8Prefix_cases bytes budget truncated hempty.1 (Nat.pos_of_ne_zero hempty.2)
    · obtain rfl : t' = t := Option.some.inj (hdec.symm.trans h)
      refine ⟨?_, ?_, hlong.length_le, (List.prefix_iff_eq_take.1 hlong.isPrefix).symm⟩
      · exact hvalid.elim Text.isPartial And.left
      · exact hvalid.imp_right And.right
    · rw [hnone] at h
      cases h

/-- Decoding with a budget at the end of a scalar gives exactly the bytes up to it. -/
theorem decodeBoundedUtf8Prefix_exact (hp : Partial bytes) (ht : Text bytes ∨ truncated = true)
    (h0 : 0 < budget) (hle : budget ≤ bytes.length) (htake : Text (bytes.take budget)) :
    ∃ t, decodeBoundedUtf8Prefix bytes budget truncated = some t ∧ t.bytes = bytes.take budget := by
  have hne : bytes ≠ [] := List.length_pos_iff.1 (h0.trans_le hle)
  obtain ⟨t, hdec, hlong, -⟩ | ⟨-, hnot⟩ := @decodeBoundedUtf8Prefix_cases bytes budget truncated hne h0
  · refine ⟨t, hdec, ?_⟩
    -- the longest text within the budget is as long as the budget
    have hge := hlong.longest _ ⟨List.take_prefix budget bytes, htake, List.length_take_le budget bytes⟩
    rw [List.length_take, min_eq_left hle] at hge
    rw [List.prefix_iff_eq_take.1 hlong.isPrefix, Nat.le_antisymm hlong.length_le hge]
  · exact absurd (ht.imp_right fun htrunc => ⟨hp, htrunc⟩) hnot

/-! ## Reading again -/

variable {file : Bytes}

/-- A reading that yields text has passed the probe and the decoder. -/
theorem readContentPrefixWithBudget_content :
    (readContentPrefixWithBudget file budget).content = some t ↔
      ((file.take (budget + 3)).take contentProbeBytes).any (· = 0) = false ∧ t.bytes ≠ [] ∧
        decodeBoundedUtf8Prefix (file.take (budget + 3)) budget
          (decide ((file.take (budget + 3)).length < file.length)) = some t := by
  have heq : (readContentPrefixWithBudget file budget).content =
      if ((file.take (budget + 3)).take contentProbeBytes).any (· = 0) then none
      else (decodeBoundedUtf8Prefix (file.take (budget + 3)) budget
        (decide ((file.take (budget + 3)).length < file.length))).filter (!·.bytes.isEmpty) := by
    unfold readContentPrefixWithBudget
    simp only [show budget + (utf8MaxScalarBytes - 1) = budget + 3 from rfl]
    split_ifs
    · rfl
    · cases decodeBoundedUtf8Prefix (file.take (budget + 3)) budget
          (decide ((file.take (budget + 3)).length < file.length)) with
      | none => rfl
      | some s => by_cases hs : s.bytes.isEmpty <;> simp [Option.filter, hs]
  rw [heq]
  split_ifs with hprobe
  · simp [hprobe]
  · rw [Option.filter_eq_some_iff]
    simp only [Bool.not_eq_true] at hprobe
    simp [hprobe, and_comm]

theorem any_take_of_le {α : Type} {p : α → Bool} {l : List α} {m n : ℕ} (hmn : m ≤ n)
    (h : (l.take n).any p = false) : (l.take m).any p = false := by
  rw [← min_eq_left hmn, ← List.take_take]
  exact List.any_eq_false.2 fun x hx => List.any_eq_false.1 h x (List.mem_of_mem_take hx)

/-- Reading again with the budget cut down to a boundary of the text yields the text up
    to it. -/
theorem readContentPrefixWithBudget_again {e : ℕ}
    (h : (readContentPrefixWithBudget file budget).content = some t) (h0 : 0 < e)
    (he : t.isCharBoundary e = true) :
    ∃ t', (readContentPrefixWithBudget file e).content = some t' ∧ t'.bytes = t.bytes.take e := by
  obtain ⟨hprobe, hne, hdec⟩ := readContentPrefixWithBudget_content.1 h
  obtain ⟨hpart, htext, hlen, htake⟩ := of_decodeBoundedUtf8Prefix hdec hne
  have hel : e ≤ t.len := Str.le_len he
  have heb : e ≤ budget := hel.trans hlen
  have hcut : (file.take (budget + 3)).take (e + 3) = file.take (e + 3) := by
    rw [List.take_take, min_eq_left (by omega)]
  have hpre : (file.take (e + 3)).take e = t.bytes.take e := by
    rw [← htake, List.take_take, List.take_take, List.take_take]
    congr 1; omega
  have htl : t.len ≤ (file.take (budget + 3)).length := by
    have := congrArg List.length htake
    rw [List.length_take] at this
    exact min_eq_left_iff.1 this
  have hpart' : Partial (file.take (e + 3)) := hcut ▸ hpart.take (e + 3)
  have htext' : Text (file.take (e + 3)) ∨
      decide ((file.take (e + 3)).length < file.length) = true := by
    by_cases hlt : (file.take (e + 3)).length < file.length
    · exact .inr (decide_eq_true hlt)
    · have hfile : file.length ≤ e + 3 := by rw [List.length_take] at hlt; omega
      rw [List.take_of_length_le (by omega : file.length ≤ budget + 3)] at htext
      rw [List.take_of_length_le hfile]
      exact .inl (htext.resolve_right (by simp))
  obtain ⟨t', hd', ht'⟩ := decodeBoundedUtf8Prefix_exact hpart' htext' h0
    (by simp only [List.length_take] at htl ⊢; omega) (hpre ▸ (t.valid.split he).1)
  refine ⟨t', readContentPrefixWithBudget_content.2 ⟨?_, ?_, hd'⟩, ht'.trans hpre⟩
  · rw [List.take_take] at hprobe ⊢
    exact any_take_of_le (by omega) hprobe
  · rw [ht', hpre]
    intro hnil
    rcases List.take_eq_nil_iff.1 hnil with h | h
    · omega
    · exact hne h

/-! ## Planned rows -/

variable {F : F64} {model : EmbeddingModel}

theorem mem_structureChunks {content : Str} {chunkSize overlap breakWindow : ℕ} {s : ChunkSpan}
    (hs : s ∈ structureChunks F content chunkSize overlap breakWindow) :
    s.start < s.end_ ∧ content.isCharBoundary s.start = true ∧
      content.isCharBoundary s.end_ = true := by
  by_cases h : content.bytes = [] ∨ chunkSize = 0
  · rw [structureChunks, if_pos (h.imp_left fun h => by simp [h])] at hs; cases hs
  · rw [not_or] at h
    exact (tiled_structureChunks F content h.1 chunkSize overlap breakWindow (by omega)).span s hs

/-- A planned row is the filename row or a non-empty span of the text between boundaries. -/
theorem mem_planned {plan : ContentReadPlan} {ty : ChunkType} {start end_ : ℤ}
    (h : (ty, start, end_) ∈ (planPendingEmbeddingsForReadPlan F plan model).chunks) :
    ty = .filename ∧ start = 0 ∧ end_ = 0 ∨
      ty = .content ∧ ∃ content, plan.content = some content ∧ ∃ a b : ℕ, start = a ∧ end_ = b ∧
        a < b ∧ content.isCharBoundary a = true ∧ content.isCharBoundary b = true := by
  unfold planPendingEmbeddingsForReadPlan planPendingEmbeddingsForContent at h
  split at h
  · exact .inl (by simpa using h)
  · rename_i content hc
    rcases List.mem_cons.1 h with h | h
    · exact .inl (by simpa using h)
    · obtain ⟨s, hs, hspan⟩ := List.mem_map.1 h
      obtain ⟨hlt, h1, h2⟩ := mem_structureChunks hs
      simp only [Prod.mk.injEq] at hspan
      obtain ⟨rfl, rfl, rfl⟩ := hspan
      exact .inr ⟨rfl, content, (Option.filter_eq_some_iff.1 hc).1, s.start, s.end_, rfl, rfl, hlt, h1, h2⟩

/-! ## Preparing what was planned -/

/-- The input that belongs to a row: the filepath, or the row's slice of the planned text. -/
def plannedInput (filepath : String) (content : Option Str) (row : DocumentEmbedding) : Bytes :=
  match row.chunkType with
  | .filename => utf8Bytes filepath
  | .content => (content.map (·.slice row.chunkStart.toNat row.chunkEnd.toNat)).getD []

/-- A cut at `e` keeps the boundaries and the slices before it. -/
theorem cut_eq {content cut : Str} {e a b : ℕ} (he : content.isCharBoundary e = true)
    (hcut : cut.bytes = content.bytes.take e) (hb : content.isCharBoundary b = true) (hab : a ≤ b)
    (hbe : b ≤ e) :
    b ≤ cut.len ∧ cut.isCharBoundary b = true ∧ cut.slice a b = content.slice a b := by
  have hlen : cut.len = e := by
    rw [Str.len, hcut, List.length_take]; exact min_eq_left (Str.le_len he)
  refine ⟨hlen ▸ hbe, ?_, ?_⟩
  · rcases Nat.lt_or_eq_of_le hbe with hlt | rfl
    · have hget : cut.bytes[b]? = content.bytes[b]? := by rw [hcut, List.getElem?_take_of_lt hlt]
      unfold Str.isCharBoundary isBoundary at hb ⊢
      split_ifs at hb ⊢ with h0
      · rfl
      · rw [hget]
        cases hc : content.bytes[b]? with
        | some c => rw [hc] at hb; exact hb
        | none =>
          have : content.bytes.length ≤ b := by simpa using hc
          have := Str.le_len he
          simp only [Str.len] at this; omega
    · rw [← hlen]; exact Str.isCharBoundary_len
  · rw [Str.slice, Str.slice, hcut, List.drop_take, List.take_take, min_eq_left (by omega)]

/-- A content row that was planned is cut out of the text as far as it was read again. -/
theorem prepareChunk_planned {filepath : String} {documentId : ℤ} {content cut : Str} {e a b : ℕ}
    {row : DocumentEmbedding} (hty : row.chunkType = .content) (ha : row.chunkStart = a)
    (hb : row.chunkEnd = b) (hab : a < b) (hba : content.isCharBoundary a = true)
    (hbb : content.isCharBoundary b = true) (he : content.isCharBoundary e = true) (hbe : b ≤ e)
    (hcut : cut.bytes = content.bytes.take e) :
    prepareChunk filepath documentId (some cut) row =
      .ok ⟨row.chunkType, row.chunkStart, row.chunkEnd, content.slice a b⟩ := by
  obtain ⟨hle, hcb, hslice⟩ := cut_eq he hcut hbb hab.le hbe
  obtain ⟨-, hca, -⟩ := cut_eq he hcut hba (Nat.zero_le a) (hab.le.trans hbe)
  have hok : ∀ (n : ℕ) (c : String), usizeTryFrom n c = .ok n := fun n c => by simp [usizeTryFrom]
  unfold prepareChunk
  rw [hty, ha, hb]
  simp only [hok]
  show (if _ then _ else _) = _
  rw [if_pos ⟨hab.le, hle, hca, hcb⟩, hslice]

/-- **Planning and embedding agree on the text.**  For every file, the rows planned from
    it are prepared without an error, each with the slice the planner chunked. -/
theorem prepare_planned (F : F64) (file : Bytes) (model : EmbeddingModel) (filepath : String)
    (documentId : ℤ) (rows : List DocumentEmbedding)
    (hrows : ∀ r ∈ rows, (r.chunkType, r.chunkStart, r.chunkEnd) ∈
      (planPendingEmbeddingsForReadPlan F (readContentPrefix file) model).chunks) :
    prepareEmbeddedChunks filepath documentId rows
        (fun budget => (.ok (readContentPrefixWithBudget file budget) : Except AnyError _)) =
      .ok (rows.map fun r => ⟨r.chunkType, r.chunkStart, r.chunkEnd,
        plannedInput filepath (readContentPrefix file).content r⟩) := by
  have hends : ∀ r ∈ rows, r.chunkType = .content →
      r.chunkEnd ∈ (rows.filter fun row => row.chunkType = .content).map (·.chunkEnd) :=
    fun r hr hty => List.mem_map.2 ⟨r, List.mem_filter.2 ⟨hr, by simp [hty]⟩, rfl⟩
  unfold prepareEmbeddedChunks readContentFor
  cases hmax : maxContentEnd rows with
  | none =>
    refine mapM_eq_ok ?_
    intro r hr
    cases hty : r.chunkType with
    | filename => simp [prepareChunk, plannedInput, hty]
    | content =>
      have hnil := List.max?_eq_none_iff.1 hmax
      have := hends r hr hty
      rw [hnil] at this; cases this
  | some m =>
    obtain ⟨hmem, hle⟩ := List.max?_eq_some_iff.1 hmax
    obtain ⟨r₀, hr₀, rfl⟩ := List.mem_map.1 hmem
    obtain ⟨hr₀, hty₀⟩ := List.mem_filter.1 hr₀
    obtain ⟨hf, -⟩ | ⟨-, content, hc, a₀, e, -, he, hlt₀, -, heb⟩ := mem_planned (hrows r₀ hr₀)
    · simp [hf] at hty₀
    · obtain ⟨cut, hcut, hbytes⟩ := readContentPrefixWithBudget_again hc (by omega) heb
      have hread : usizeTryFrom r₀.chunkEnd "content chunk_end must fit into usize" = .ok e := by
        simp [usizeTryFrom, he]
      simp only [hread]
      show List.mapM (prepareChunk filepath documentId
        (readContentPrefixWithBudget file e).content) rows = _
      rw [hcut]
      refine mapM_eq_ok ?_
      intro r hr
      obtain ⟨hf, -⟩ | ⟨hty, content', hc', a, b, ha, hb, hab, hba, hbb⟩ := mem_planned (hrows r hr)
      · simp [prepareChunk, plannedInput, hf]
      · have hbe : b ≤ e := by
          have := hle r.chunkEnd (hends r hr hty)
          omega
        rw [hc, Option.some.injEq] at hc'
        subst hc'
        rw [prepareChunk_planned hty ha hb hab hba hbb heb hbe hbytes]
        simp only [plannedInput, hty, hc, ha, hb, Option.map_some, Option.getD_some, Int.toNat_natCast]

/-- The filename row and the first of two chunks of a file with a two-byte scalar. -/
theorem prepare_planned_accent :
    prepareEmbeddedChunks "f" 7
        [⟨1, 7, 1, .filename, 0, 0, .pending, none, 0⟩, ⟨2, 7, 1, .content, 0, 3, .pending, none, 0⟩]
        (fun budget =>
          (.ok (readContentPrefixWithBudget [0x61, 0xC3, 0xA9, 0x62] budget) : Except AnyError _)) =
      .ok [⟨.filename, 0, 0, [0x66]⟩, ⟨.content, 0, 3, [0x61, 0xC3, 0xA9]⟩] :=
  (prepare_planned .exact [0x61, 0xC3, 0xA9, 0x62] ⟨1, "m", 1, 3, 0, 0⟩ "f" 7 _
    (by decide +kernel)).trans (congrArg Except.ok (by decide +kernel))

end Ask
