/-
  The bounded prefix of a file is exact: text comes out whenever the bytes that
  were read hold some, and it is as long as the budget allows.
-/
import Ask.ContentLaw

namespace Ask

open Lib.Utf8

variable {file pre : Bytes} {budget : ℕ} {t : Str}

/-! ## Reading -/

/-- What is read of a file: some bytes more than the budget, for the last scalar. -/
def bytesRead (file : Bytes) (budget : ℕ) : Bytes := file.take (budget + 3)

/-- No NUL stands among the first bytes that were read. -/
def NoEarlyNul (file : Bytes) (budget : ℕ) : Prop :=
  ∀ b ∈ (bytesRead file budget).take contentProbeBytes, b ≠ 0

instance : Decidable (NoEarlyNul file budget) := List.decidableBAll (fun b => b ≠ 0) _

/-- When a file has text for the budget: something was read, without an early NUL and valid up to a
    scalar that the file goes on with, and a first scalar fits. -/
structure Readable (file : Bytes) (budget : ℕ) : Prop where
  noNul : NoEarlyNul file budget
  ne_nil : bytesRead file budget ≠ []
  valid : Text (bytesRead file budget) ∨
    Partial (bytesRead file budget) ∧ (bytesRead file budget).length < file.length
  fits : ∃ pre ≠ [], TextWithin file budget pre

theorem textWithin_bytesRead : TextWithin (bytesRead file budget) budget pre ↔ TextWithin file budget pre := by
  constructor
  · exact fun h => ⟨h.isPrefix.trans (List.take_prefix _ file), h.text, h.length_le⟩
  · intro h
    have hlen := h.length_le
    exact ⟨List.prefix_take_iff.2 ⟨h.isPrefix, by omega⟩, h.text, h.length_le⟩

theorem LongestText.of_bytesRead (h : LongestText (bytesRead file budget) budget t) :
    LongestText file budget t where
  toTextWithin := textWithin_bytesRead.1 h.toTextWithin
  longest _ hpre := h.longest _ (textWithin_bytesRead.2 hpre)

theorem noEarlyNul_iff : NoEarlyNul file budget ↔
    ((file.take (budget + 3)).take contentProbeBytes).any (· = 0) = false := by
  simp only [NoEarlyNul, bytesRead, List.any_eq_false, decide_eq_true_eq, ne_eq]

/-- A reading yields text exactly when there is some, and the longest. -/
theorem readContentPrefixWithBudget_cases :
    (∃ t, (readContentPrefixWithBudget file budget).content = some t ∧ LongestText file budget t ∧
        Readable file budget) ∨
      (readContentPrefixWithBudget file budget).content = none ∧ ¬Readable file budget := by
  cases hc : (readContentPrefixWithBudget file budget).content with
  | some t =>
    left
    obtain ⟨hprobe, hne, hdec⟩ := readContentPrefixWithBudget_content.1 hc
    obtain ⟨-, -, hle, htake⟩ := of_decodeBoundedUtf8Prefix hdec hne
    have hbytes : bytesRead file budget ≠ [] := by
      intro hnil
      rw [← htake, show file.take (budget + 3) = [] from hnil, List.take_nil] at hne
      exact hne rfl
    have h0 : 0 < budget := lt_of_lt_of_le (List.length_pos_iff.2 hne) hle
    obtain ⟨t', ht', hlong, hvalid⟩ | ⟨hnone, -⟩ := decodeBoundedUtf8Prefix_cases hbytes h0
    · obtain rfl : t' = t := Option.some.inj (ht'.symm.trans hdec)
      exact ⟨t', rfl, hlong.of_bytesRead, noEarlyNul_iff.2 hprobe, hbytes,
        hvalid.imp_right fun h => ⟨h.1, of_decide_eq_true h.2⟩,
        t'.bytes, hne, hlong.of_bytesRead.toTextWithin⟩
    · rw [show decodeBoundedUtf8Prefix (file.take (budget + 3)) budget _ = none from hnone] at hdec
      cases hdec
  | none =>
    right
    refine ⟨rfl, fun ⟨hnul, hbytes, hvalid, pre, hne, hpre⟩ => ?_⟩
    have hpos : 0 < pre.length := List.length_pos_iff.2 hne
    have h0 : 0 < budget := lt_of_lt_of_le hpos hpre.length_le
    obtain ⟨t, ht, hlong, -⟩ | ⟨-, hnot⟩ := decodeBoundedUtf8Prefix_cases hbytes h0
    · have hlen := hlong.longest pre (textWithin_bytesRead.2 hpre)
      have htne : t.bytes ≠ [] := List.length_pos_iff.1 (lt_of_lt_of_le hpos hlen)
      rw [readContentPrefixWithBudget_content.2 ⟨noEarlyNul_iff.1 hnul, htne, ht⟩] at hc
      cases hc
    · exact hnot (hvalid.imp_right fun h => ⟨h.1, decide_eq_true h.2⟩)

theorem contentTruncated_eq (h : (readContentPrefixWithBudget file budget).content = some t) :
    (readContentPrefixWithBudget file budget).contentTruncated = decide (t.len < file.length) := by
  obtain ⟨hprobe, hne, hdec⟩ := readContentPrefixWithBudget_content.1 h
  unfold readContentPrefixWithBudget
  simp only [show budget + (utf8MaxScalarBytes - 1) = budget + 3 from rfl, hprobe, hdec,
    Bool.false_eq_true, if_false]

/-! ## Valid files -/

/-- A boundary is at most three bytes before the budget. -/
theorem LongestText.near (h : LongestText file budget t) (hfile : Text file) (hlen : budget < file.length) :
    budget ≤ t.len + 3 := by
  obtain ⟨j, hj, hb, hnear⟩ := hfile.boundary_near hlen.le
  have htake : (file.take j).length = j := by rw [List.length_take]; omega
  have := h.longest (file.take j) ⟨List.take_prefix j file, (hfile.split hb).1, by omega⟩
  omega

/-- A budget of four bytes fits every first scalar. -/
theorem readable_of_text (hfile : Text file) (hne : file ≠ []) (hnul : NoEarlyNul file budget)
    (hbudget : 4 ≤ budget) : Readable file budget where
  noNul := hnul
  ne_nil := by
    rw [bytesRead, ne_eq, List.take_eq_nil_iff]
    exact fun h => h.elim (by omega) hne
  valid := by
    by_cases hlen : file.length ≤ budget + 3
    · left
      rwa [bytesRead, List.take_of_length_le hlen]
    · right
      refine ⟨hfile.isPartial.take _, ?_⟩
      rw [bytesRead, List.length_take]
      omega
  fits := by
    cases hfile with
    | nil => exact absurd rfl hne
    | @cons u rest hu _ =>
      obtain ⟨b, tl, rfl, hle, -⟩ := scan_self hu
      refine ⟨b :: tl, List.cons_ne_nil b tl, List.prefix_append _ rest, ?_, ?_⟩
      · exact List.append_nil (b :: tl) ▸ Text.cons hu .nil
      · rw [List.length_cons]; omega

/-- **Bounded prefix decoding is exact**: a reading yields text exactly if the file has some for the
    budget; then it is the longest one, of a valid file at most three bytes short of the budget, and the
    plan says whether the file goes on; and four bytes of budget are enough for every valid file. -/
theorem read_prefix_exact (file : Bytes) (budget : ℕ) :
    ((readContentPrefixWithBudget file budget).content.isSome = true ↔ Readable file budget) ∧
    (∀ t, (readContentPrefixWithBudget file budget).content = some t →
      LongestText file budget t ∧
      (Text file → budget < file.length → budget ≤ t.len + 3) ∧
      ((readContentPrefixWithBudget file budget).contentTruncated = true ↔ t.len < file.length)) ∧
    (Text file → file ≠ [] → NoEarlyNul file budget → 4 ≤ budget →
      (readContentPrefixWithBudget file budget).content.isSome = true) := by
  have hsome : (readContentPrefixWithBudget file budget).content.isSome = true ↔ Readable file budget := by
    obtain ⟨t, ht, -, hread⟩ | ⟨hnone, hread⟩ := readContentPrefixWithBudget_cases
    · exact iff_of_true (by rw [ht]; rfl) hread
    · exact iff_of_false (by rw [hnone]; exact Bool.false_ne_true) hread
  refine ⟨hsome, fun t ht => ?_, fun hfile hne hnul hbudget =>
    hsome.2 (readable_of_text hfile hne hnul hbudget)⟩
  obtain ⟨t', ht', hlong, -⟩ | ⟨hnone, -⟩ := readContentPrefixWithBudget_cases
  · obtain rfl : t' = t := Option.some.inj (ht'.symm.trans ht)
    exact ⟨hlong, hlong.near, by rw [contentTruncated_eq ht, decide_eq_true_eq]⟩
  · rw [hnone] at ht
    cases ht

/-- A letter and a scalar of three bytes, of which a budget of three bytes leaves the letter. -/
theorem read_prefix_exact_euro :
    (readContentPrefixWithBudget [0x61, 0xE2, 0x82, 0xAC] 3).content.map (·.bytes) = some [0x61] ∧
      (readContentPrefixWithBudget [0x61, 0xE2, 0x82, 0xAC] 3).contentTruncated = true ∧
      (readContentPrefixWithBudget [0x61, 0xE2, 0x82, 0xAC] 4).content.isSome = true := by
  have hcontent : (readContentPrefixWithBudget [0x61, 0xE2, 0x82, 0xAC] 3).content =
      some ⟨[0x61], (check_eq_none (i := 0)).1 (by decide)⟩ := by decide +kernel
  obtain ⟨-, hread, -⟩ := read_prefix_exact [0x61, 0xE2, 0x82, 0xAC] 3
  obtain ⟨-, -, hfour⟩ := read_prefix_exact [0x61, 0xE2, 0x82, 0xAC] 4
  obtain ⟨-, -, htruncated⟩ := hread _ hcontent
  exact ⟨by rw [hcontent]; rfl, htruncated.2 (by decide),
    hfour ((check_eq_none (i := 0)).1 (by decide)) (by decide) (by decide +kernel) (by decide)⟩

end Ask
