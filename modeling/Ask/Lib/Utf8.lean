/-
  UTF-8 text as a list of bytes, in the way Rust's `str` works with it.

  `scan` reads one scalar off the front of a byte list and says, like
  `core::str::from_utf8`, whether the bytes run out or are wrong and after how
  many of them; `check` validates a whole list.  `Text` is the syntax they
  decide, `Str` the bytes that have it.  An index between two scalars is a
  boundary; no index is more than three bytes after one.
-/
import Mathlib.Tactic

namespace Lib.Utf8

/-! ## Scalars -/

/-- What the front of a byte list is. -/
inductive Scan where
  | scalar (width : ℕ)
  | incomplete
  | invalid (len : ℕ)
  deriving DecidableEq, Repr

/-- A continuation byte. -/
def isCont (b : UInt8) : Bool := decide (0x80 ≤ b) && decide (b ≤ 0xBF)

/-- How many bytes follow a non-ASCII first byte, and the range of the next one. -/
def lead (b : UInt8) : Option (ℕ × UInt8 × UInt8) :=
  if b < 0xC2 then none
  else if b ≤ 0xDF then some (1, 0x80, 0xBF)
  else if b = 0xE0 then some (2, 0xA0, 0xBF)
  else if b = 0xED then some (2, 0x80, 0x9F)
  else if b ≤ 0xEF then some (2, 0x80, 0xBF)
  else if b = 0xF0 then some (3, 0x90, 0xBF)
  else if b ≤ 0xF3 then some (3, 0x80, 0xBF)
  else if b = 0xF4 then some (3, 0x80, 0x8F)
  else none

/-- The number of bytes of the scalar that starts with `b`, `0` when none does. -/
def charWidth (b : UInt8) : ℕ :=
  if b < 0x80 then 1 else match lead b with
    | some (n, _, _) => n + 1
    | none => 0

/-- Read `n` more bytes of a scalar of which `k` have been read; the first of them
    lies between `lo` and `hi`. -/
def scanTails : ℕ → UInt8 → UInt8 → ℕ → List UInt8 → Scan
  | 0, _, _, k, _ => .scalar k
  | _ + 1, _, _, _, [] => .incomplete
  | n + 1, lo, hi, k, c :: bs =>
    if lo ≤ c ∧ c ≤ hi then scanTails n 0x80 0xBF (k + 1) bs else .invalid k

/-- Read the scalar at the front. -/
def scan : List UInt8 → Scan
  | [] => .incomplete
  | b :: bs =>
    if b < 0x80 then .scalar 1 else match lead b with
      | some (n, lo, hi) => scanTails n lo hi 1 bs
      | none => .invalid 1

theorem isCont_iff {b : UInt8} : isCont b = true ↔ 0x80 ≤ b ∧ b ≤ 0xBF := by simp [isCont]

theorem lead_some {b lo hi : UInt8} {n : ℕ} (h : lead b = some (n, lo, hi)) :
    1 ≤ n ∧ n ≤ 3 ∧ 0x80 ≤ lo ∧ hi ≤ 0xBF ∧ isCont b = false := by
  have hb : isCont b = false := by
    unfold lead at h
    split_ifs at h with h1
    all_goals simp only [isCont, Bool.and_eq_false_iff, decide_eq_false_iff_not]
    all_goals exact .inr fun h2 => h1 (UInt8.lt_of_le_of_lt h2 (by decide))
  unfold lead at h
  split_ifs at h <;> cases h <;> exact ⟨by decide, by decide, by decide, by decide, hb⟩

theorem scanTails_scalar {n k w : ℕ} {lo hi : UInt8} {bs : List UInt8} (hlo : 0x80 ≤ lo)
    (hhi : hi ≤ 0xBF) (h : scanTails n lo hi k bs = .scalar w) :
    w = k + n ∧ n ≤ bs.length ∧ (∀ c ∈ bs.take n, isCont c = true) ∧
      ∀ t, scanTails n lo hi k (bs.take n ++ t) = .scalar w := by
  induction n generalizing k lo hi bs with
  | zero =>
    obtain rfl : k = w := by simpa [scanTails] using h
    exact ⟨rfl, Nat.zero_le _, by simp, fun t => rfl⟩
  | succ n ih =>
    cases bs with
    | nil => cases h
    | cons c bs =>
      simp only [scanTails] at h
      split_ifs at h with hc
      obtain ⟨rfl, hle, htails, happ⟩ := ih (by decide) (by decide) h
      refine ⟨by omega, by simpa using hle, ?_, fun t => ?_⟩
      · intro c' hc'
        rcases List.mem_cons.1 (by simpa using hc') with rfl | hc'
        · exact isCont_iff.2 ⟨UInt8.le_trans hlo hc.1, UInt8.le_trans hc.2 hhi⟩
        · exact htails c' hc'
      · simpa [scanTails, hc] using happ t

theorem scanTails_take {n k j : ℕ} {lo hi : UInt8} {bs : List UInt8}
    (h : (∃ w, scanTails n lo hi k bs = .scalar w) ∧ j < n ∨
      scanTails n lo hi k bs = .incomplete) : scanTails n lo hi k (bs.take j) = .incomplete := by
  induction n generalizing k j lo hi bs with
  | zero =>
    rcases h with ⟨-, h⟩ | h
    · omega
    · cases h
  | succ n ih =>
    cases j with
    | zero => rfl
    | succ j =>
      cases bs with
      | nil => rfl
      | cons c bs =>
        simp only [scanTails, List.take_succ_cons] at h ⊢
        split_ifs at h ⊢ with hc
        · exact ih (by simpa using h)
        · simp at h

variable {bs u t : List UInt8} {i j w : ℕ}

/-- A scalar has one to four bytes, as its first byte says; the others are continuation
    bytes; and what follows it does not matter. -/
theorem scan_scalar (h : scan bs = .scalar w) :
    ∃ b tl t, bs = b :: tl ++ t ∧ w = tl.length + 1 ∧ tl.length ≤ 3 ∧ charWidth b = w ∧
      isCont b = false ∧ (∀ c ∈ tl, isCont c = true) ∧
      ∀ t', scan (b :: tl ++ t') = .scalar w := by
  cases bs with
  | nil => cases h
  | cons b bs =>
    simp only [scan] at h
    split_ifs at h with hb
    · cases h
      refine ⟨b, [], bs, rfl, rfl, by simp, by simp [charWidth, hb], ?_, by simp, ?_⟩
      · simp only [isCont, Bool.and_eq_false_iff, decide_eq_false_iff_not]
        exact .inl (UInt8.not_le.2 hb)
      · intro t'; simp [scan, hb]
    · cases hl : lead b with
      | none => rw [hl] at h; cases h
      | some p =>
        obtain ⟨n, lo, hi⟩ := p
        rw [hl] at h
        obtain ⟨hn1, hn3, hlo, hhi, hcont⟩ := lead_some hl
        obtain ⟨rfl, hle, htails, happ⟩ := scanTails_scalar hlo hhi h
        have hlen : (bs.take n).length = n := by simpa using hle
        refine ⟨b, bs.take n, bs.drop n, by simp, by omega, by omega, ?_, hcont, htails, ?_⟩
        · simp [charWidth, hb, hl, Nat.add_comm]
        · intro t'; simpa [scan, hb, hl] using happ t'

/-- Fewer bytes than a scalar has, or than an incomplete one has, are incomplete. -/
theorem scan_take (h : scan bs = .scalar w ∧ j < w ∨ scan bs = .incomplete) :
    scan (bs.take j) = .incomplete := by
  cases bs with
  | nil => simp [scan]
  | cons b bs =>
    cases j with
    | zero => rfl
    | succ j =>
      simp only [scan, List.take_succ_cons] at h ⊢
      split_ifs at h ⊢ with hb
      · rcases h with ⟨h, hj⟩ | h
        · cases h; omega
        · cases h
      · cases hl : lead b with
        | none => rw [hl] at h; simp at h
        | some p =>
          obtain ⟨n, lo, hi⟩ := p
          rw [hl] at h
          obtain ⟨-, -, hlo, hhi, -⟩ := lead_some hl
          refine scanTails_take (h.imp (fun ⟨h, hj⟩ => ⟨⟨w, h⟩, ?_⟩) id)
          obtain ⟨rfl, -⟩ := scanTails_scalar hlo hhi h
          omega

/-! ## Texts -/

/-- A sequence of scalars. -/
inductive Text : List UInt8 → Prop
  | nil : Text []
  | cons {u t : List UInt8} : scan u = .scalar u.length → Text t → Text (u ++ t)

/-- A text with an incomplete scalar, or none, at its end. -/
def Partial (bs : List UInt8) : Prop :=
  ∃ pre tail, bs = pre ++ tail ∧ Text pre ∧ scan tail = .incomplete

/-- Why validation stopped: the length of the valid prefix and, unless the bytes ran
    out, the length of what is wrong after it. -/
structure Error where
  validUpTo : ℕ
  errorLen : Option ℕ
  deriving DecidableEq, Repr

/-- Validate the bytes from offset `i` on; the first `k` of them belong to a scalar that
    has been read. -/
def check : ℕ → ℕ → List UInt8 → Option Error
  | _, _, [] => none
  | i, k + 1, _ :: bs => check (i + 1) k bs
  | i, 0, b :: bs =>
    match scan (b :: bs) with
    | .scalar w => check (i + 1) (w - 1) bs
    | .incomplete => some ⟨i, none⟩
    | .invalid n => some ⟨i, some n⟩

/-- A scalar at the front is the front itself and the rest. -/
theorem scan_split (h : scan bs = .scalar w) :
    ∃ u t, bs = u ++ t ∧ u.length = w ∧ scan u = .scalar w ∧ 1 ≤ w ∧ w ≤ 4 := by
  obtain ⟨b, tl, t, rfl, rfl, hle, -, -, -, happ⟩ := scan_scalar h
  exact ⟨b :: tl, t, rfl, by simp, by simpa using happ [], by omega, by omega⟩

/-- A scalar by itself. -/
theorem scan_self (h : scan u = .scalar u.length) :
    ∃ b tl, u = b :: tl ∧ tl.length ≤ 3 ∧ charWidth b = tl.length + 1 ∧ isCont b = false ∧
      (∀ c ∈ tl, isCont c = true) ∧ ∀ t, scan (u ++ t) = .scalar u.length := by
  obtain ⟨b, tl, t', rfl, hlen, hle, hw, hb, htl, happ⟩ := scan_scalar h
  have ht' : t' = [] := by simpa using hlen
  subst ht'
  exact ⟨b, tl, by simp, hle, hw.trans hlen, hb, htl, by simpa using happ⟩

theorem scan_append (h : scan u = .scalar u.length) (t : List UInt8) :
    scan (u ++ t) = .scalar u.length := by
  obtain ⟨-, -, -, -, -, -, -, happ⟩ := scan_self h
  exact happ t

theorem check_skip (i : ℕ) : ∀ (k : ℕ) (bs : List UInt8), k ≤ bs.length →
    check i k bs = check (i + k) 0 (bs.drop k)
  | 0, _, _ => by simp
  | k + 1, [], h => by simp at h
  | k + 1, b :: bs, h => by
    rw [check, check_skip (i + 1) k bs (by simpa using h), List.drop_succ_cons,
      show i + 1 + k = i + (k + 1) by omega]

theorem check_scalar (h : scan u = .scalar u.length) :
    check i 0 (u ++ t) = check (i + u.length) 0 t := by
  have hs := scan_append h t
  cases u with
  | nil => cases h
  | cons b u =>
    rw [List.cons_append] at hs ⊢
    rw [check, hs]
    simp only [List.length_cons, Nat.add_sub_cancel]
    rw [check_skip _ _ _ (by simp), List.drop_left, show i + 1 + u.length = i + (u.length + 1) by omega]

theorem check_text (h : Text u) : check i 0 (u ++ t) = check (i + u.length) 0 t := by
  induction h generalizing i with
  | nil => simp
  | cons hu _ ih => rw [List.append_assoc, check_scalar hu, ih]; simp [Nat.add_assoc]

/-- Validation finds the longest text at the front and says how it ends. -/
theorem check_cases (i : ℕ) (bs : List UInt8) : ∃ pre rest, bs = pre ++ rest ∧ Text pre ∧
    (rest = [] ∧ check i 0 bs = none ∨
      rest ≠ [] ∧ scan rest = .incomplete ∧ check i 0 bs = some ⟨i + pre.length, none⟩ ∨
      ∃ n, scan rest = .invalid n ∧ check i 0 bs = some ⟨i + pre.length, some n⟩) := by
  induction hn : bs.length using Nat.strong_induction_on generalizing i bs with
  | _ n ih =>
    cases bs with
    | nil => exact ⟨[], [], rfl, .nil, .inl ⟨rfl, rfl⟩⟩
    | cons b bs =>
      cases hs : scan (b :: bs) with
      | incomplete => exact ⟨[], _, rfl, .nil, .inr (.inl ⟨by simp, hs, by simp [check, hs]⟩)⟩
      | invalid m => exact ⟨[], _, rfl, .nil, .inr (.inr ⟨m, hs, by simp [check, hs]⟩)⟩
      | scalar w =>
        obtain ⟨u, t, hut, hlen, hu, h1, -⟩ := scan_split hs
        rw [hut] at hn ⊢
        obtain ⟨pre, rest, rfl, hpre, hcase⟩ := ih t.length (by simp at hn; omega) (i + u.length) t rfl
        rw [← hlen] at hu
        refine ⟨u ++ pre, rest, by simp, .cons hu hpre, ?_⟩
        rw [check_scalar hu]
        simpa [Nat.add_assoc] using hcase

/-- Validation accepts exactly the texts. -/
theorem check_eq_none : check i 0 bs = none ↔ Text bs := by
  constructor
  · intro h
    obtain ⟨pre, rest, rfl, hpre, ⟨rfl, -⟩ | ⟨-, -, h'⟩ | ⟨n, -, h'⟩⟩ := check_cases i bs
    · simpa using hpre
    · rw [h] at h'; cases h'
    · rw [h] at h'; cases h'
  · intro h
    simpa [check] using check_text (i := i) (t := []) h

theorem Text.append (hu : Text u) (ht : Text t) : Text (u ++ t) := by
  rw [← check_eq_none (i := 0), check_text hu]
  exact check_eq_none.2 ht

/-- Every prefix of a partial text is a partial text. -/
theorem Partial.take (h : Partial bs) (j : ℕ) : Partial (bs.take j) := by
  obtain ⟨pre, tail, rfl, hpre, htail⟩ := h
  induction hpre generalizing j with
  | nil => exact ⟨[], tail.take j, by simp, .nil, scan_take (.inr htail : _ ∧ j < 0 ∨ _)⟩
  | @cons u t hu _ ih =>
    by_cases hj : j < u.length
    · refine ⟨[], u.take j, ?_, .nil, scan_take (.inl ⟨hu, hj⟩)⟩
      rw [List.append_assoc, List.take_append_of_le_length (le_of_lt hj), List.nil_append]
    · obtain ⟨pre', tail', he, hpre', htail'⟩ := ih (j - u.length)
      refine ⟨u ++ pre', tail', ?_, .cons hu hpre', htail'⟩
      rw [List.append_assoc, List.take_append, List.take_of_length_le (by omega), he,
        List.append_assoc]

/-- A text does not reach into an incomplete scalar. -/
theorem Text.length_le_of_incomplete {pre tail : List UInt8} (hpre : Text pre)
    (htail : scan tail = .incomplete) (hu : Text u) (h : u <+: pre ++ tail) : u.length ≤ pre.length := by
  by_contra hgt
  have hsplit : u = pre ++ tail.take (u.length - pre.length) :=
    (List.prefix_iff_eq_take.1 h).trans (by rw [List.take_append, List.take_of_length_le (by omega)])
  have hinc : scan (tail.take (u.length - pre.length)) = .incomplete :=
    scan_take (.inr htail : _ ∧ u.length - pre.length < 0 ∨ _)
  generalize tail.take (u.length - pre.length) = rest at hsplit hinc
  subst hsplit
  cases rest with
  | nil => simp at hgt
  | cons b rest =>
    rw [← check_eq_none (i := 0), check_text hpre, check, hinc] at hu
    cases hu

theorem Text.isPartial (h : Text bs) : Partial bs := ⟨bs, [], by simp, h, rfl⟩

/-! ## Boundaries -/

/-- Rust's `is_char_boundary`. -/
def isBoundary (bs : List UInt8) (i : ℕ) : Bool :=
  if i = 0 then true else match bs[i]? with
    | some b => !isCont b
    | none => decide (i = bs.length)

@[simp] theorem isBoundary_zero : isBoundary bs 0 = true := rfl

@[simp] theorem isBoundary_length : isBoundary bs bs.length = true := by
  by_cases h : bs.length = 0 <;> simp [isBoundary, h]

theorem le_of_isBoundary (h : isBoundary bs i = true) : i ≤ bs.length := by
  unfold isBoundary at h
  split_ifs at h with h0
  · omega
  · cases hb : bs[i]? with
    | some b => exact le_of_lt (List.getElem?_eq_some_iff.1 hb).1
    | none => rw [hb] at h; simpa using (of_decide_eq_true h).le

theorem Text.head_not_cont (h : Text bs) {b : UInt8} (hb : bs[0]? = some b) :
    isCont b = false := by
  cases h with
  | nil => simp at hb
  | @cons u t hu _ =>
    obtain ⟨b', tl, rfl, -, -, hcont, -⟩ := scan_self hu
    simp only [List.cons_append, List.getElem?_cons_zero, Option.some.injEq] at hb
    rwa [← hb]

/-- The boundaries of a text are its start and those after its first scalar. -/
theorem isBoundary_append (hu : scan u = .scalar u.length) (ht : Text t) :
    isBoundary (u ++ t) i = true ↔ i = 0 ∨ u.length ≤ i ∧ isBoundary t (i - u.length) = true := by
  obtain ⟨b, tl, rfl, -, -, -, htl, -⟩ := scan_self hu
  simp only [List.length_cons]
  cases i with
  | zero => simp
  | succ i =>
    have hi : (b :: tl ++ t)[i + 1]? = (tl ++ t)[i]? := by simp
    by_cases hlt : i < tl.length
    · have hc : isCont tl[i] = true := htl _ (List.getElem_mem hlt)
      simp [isBoundary, List.getElem?_append_left hlt, List.getElem?_eq_getElem hlt, hc]
      omega
    · have hsub : i + 1 - (tl.length + 1) = i - tl.length := by omega
      rw [hsub]
      simp only [isBoundary, hi, List.getElem?_append_right (not_lt.1 hlt), Nat.add_eq_zero_iff,
        one_ne_zero, and_false, if_false, false_or]
      by_cases h0 : i - tl.length = 0
      · have hi' : i = tl.length := by omega
        simp only [h0, if_true, and_true]
        cases hb : t[0]? with
        | some b' => simpa [ht.head_not_cont hb] using by omega
        | none =>
          have : t = [] := by simpa using hb
          subst this; simp [hi']
      · simp only [h0, if_false]
        cases hb : t[i - tl.length]? with
        | some b' => simp; omega
        | none => simp; omega

/-- A boundary splits a text into texts. -/
theorem Text.split (h : Text bs) (hi : isBoundary bs i = true) :
    Text (bs.take i) ∧ Text (bs.drop i) := by
  induction h generalizing i with
  | nil => simp [Text.nil]
  | @cons u t hu ht ih =>
    rcases (isBoundary_append hu ht).1 hi with rfl | ⟨hle, hi⟩
    · exact ⟨.nil, .cons hu ht⟩
    · rw [List.take_append, List.take_of_length_le hle, List.drop_append,
        List.drop_of_length_le hle, List.nil_append]
      exact ⟨.cons hu (ih hi).1, (ih hi).2⟩

/-- No index is more than three bytes after a boundary. -/
theorem Text.boundary_near (h : Text bs) (hi : i ≤ bs.length) :
    ∃ j, j ≤ i ∧ isBoundary bs j = true ∧ i ≤ j + 3 := by
  induction h generalizing i with
  | nil => exact ⟨0, by omega, rfl, by simp at hi; omega⟩
  | @cons u t hu ht ih =>
    by_cases hlt : i < u.length
    · obtain ⟨b, tl, rfl, hle, -⟩ := scan_self hu
      exact ⟨0, by omega, rfl, by simp at hlt; omega⟩
    · obtain ⟨j, hj, hb, hij⟩ := ih (i := i - u.length) (by simp at hi; omega)
      exact ⟨j + u.length, by omega, (isBoundary_append hu ht).2 (.inr ⟨by omega, by simpa using hb⟩),
        by omega⟩

/-- A boundary after `i` in the whole is one in what `i` leaves, and conversely. -/
theorem isBoundary_drop (hi : i ≤ bs.length) (hj : 0 < j) :
    isBoundary (bs.drop i) j = isBoundary bs (i + j) := by
  simp only [isBoundary, List.getElem?_drop, List.length_drop, show j ≠ 0 by omega,
    show i + j ≠ 0 by omega, if_false]
  cases bs[i + j]? with
  | some b => rfl
  | none => exact decide_eq_decide.2 (by omega)

/-- From a boundary the next one is a scalar away, of the width its first byte says. -/
theorem Text.boundary_next (h : Text bs) (hi : isBoundary bs i = true) (hlt : i < bs.length) :
    1 ≤ charWidth bs[i] ∧ charWidth bs[i] ≤ 4 ∧ isBoundary bs (i + charWidth bs[i]) = true ∧
      ∀ j, i < j → j < i + charWidth bs[i] → isBoundary bs j = false := by
  have hd := (h.split hi).2
  generalize hdr : bs.drop i = d at hd
  cases hd with
  | nil => have := congrArg List.length hdr; simp at this; omega
  | @cons u t hu ht =>
    obtain ⟨b, tl, rfl, hle, hw, -⟩ := scan_self hu
    have hb : bs[i] = b := by
      have := congrArg (·[0]?) hdr
      simpa [List.getElem?_drop, List.getElem?_eq_getElem hlt] using this
    have hnext : ∀ j, 0 < j → (isBoundary bs (i + j) = true ↔
        tl.length + 1 ≤ j ∧ isBoundary t (j - (tl.length + 1)) = true) := by
      intro j hj
      rw [← isBoundary_drop hlt.le hj, hdr, isBoundary_append hu ht, List.length_cons]
      exact ⟨fun h => h.resolve_left (by omega), .inr⟩
    rw [hb, hw]
    refine ⟨by omega, by omega, (hnext _ (by omega)).2 ⟨le_rfl, by simp⟩, fun j hij hj => ?_⟩
    obtain ⟨k, rfl⟩ := Nat.exists_eq_add_of_lt hij
    refine Bool.eq_false_iff.2 ?_
    intro hb
    have := ((hnext (k + 1) (by omega)).1 hb).1
    omega

/-- An ASCII byte starts a scalar. -/
theorem boundary_at_ascii {b : UInt8} (hb : bs[i]? = some b) (hascii : b < 0x80) :
    isBoundary bs i = true := by
  unfold isBoundary
  split_ifs
  · rfl
  · rw [hb]
    simp only [isCont, Bool.not_and, Bool.or_eq_true, Bool.not_eq_true', decide_eq_false_iff_not]
    exact .inl (UInt8.not_le.2 hascii)

/-- The index after an ASCII byte is a boundary. -/
theorem Text.boundary_after_ascii (h : Text bs) {b : UInt8} (hb : bs[i]? = some b)
    (hascii : b < 0x80) : isBoundary bs (i + 1) = true := by
  obtain ⟨hlt, hget⟩ := List.getElem?_eq_some_iff.1 hb
  have hi : isBoundary bs i = true := boundary_at_ascii hb hascii
  have hw : charWidth bs[i] = 1 := by rw [hget, charWidth, if_pos hascii]
  simpa [hw] using (h.boundary_next hi hlt).2.2.1

/-! ## Strings -/

/-- A valid UTF-8 string. -/
structure Str where
  bytes : List UInt8
  valid : Text bytes

namespace Str

@[ext]
theorem ext {s s' : Str} (h : s.bytes = s'.bytes) : s = s' := by
  cases s; cases s'; cases h; rfl

instance : DecidableEq Str := fun s s' => decidable_of_iff (s.bytes = s'.bytes) Str.ext_iff.symm

/-- The empty string. -/
def empty : Str := ⟨[], .nil⟩

instance : Inhabited Str := ⟨empty⟩

/-- The length in bytes. -/
def len (s : Str) : ℕ := s.bytes.length

/-- Rust's `is_char_boundary`. -/
def isCharBoundary (s : Str) (i : ℕ) : Bool := isBoundary s.bytes i

/-- The bytes before a boundary. -/
def upTo (s : Str) (i : ℕ) (h : s.isCharBoundary i = true) : Str := ⟨s.bytes.take i, (s.valid.split h).1⟩

/-- The bytes from `i` to `j`. -/
def slice (s : Str) (i j : ℕ) : List UInt8 := (s.bytes.drop i).take (j - i)

/-- The width of the scalar that starts at `i`. -/
def widthAt (s : Str) (i : ℕ) : ℕ := (s.bytes[i]?.map charWidth).getD 0

variable {s : Str} {i j : ℕ}

@[simp] theorem isCharBoundary_zero : s.isCharBoundary 0 = true := rfl

@[simp] theorem isCharBoundary_len : s.isCharBoundary s.len = true := isBoundary_length

theorem le_len (h : s.isCharBoundary i = true) : i ≤ s.len := le_of_isBoundary h

theorem boundary_near (hi : i ≤ s.len) : ∃ j, j ≤ i ∧ s.isCharBoundary j = true ∧ i ≤ j + 3 :=
  s.valid.boundary_near hi

theorem boundary_next (hi : s.isCharBoundary i = true) (hlt : i < s.len) :
    1 ≤ s.widthAt i ∧ s.widthAt i ≤ 4 ∧ s.isCharBoundary (i + s.widthAt i) = true ∧
      ∀ j, i < j → j < i + s.widthAt i → s.isCharBoundary j = false := by
  replace hlt : i < s.bytes.length := hlt
  have hw : s.widthAt i = charWidth s.bytes[i] := by
    simp [widthAt, List.getElem?_eq_getElem hlt]
  rw [hw]
  exact s.valid.boundary_next hi hlt

/-- Two slices that meet make one. -/
theorem slice_append {k : ℕ} (hij : i ≤ j) (hjk : j ≤ k) :
    s.slice i j ++ s.slice j k = s.slice i k := by
  have hd : s.bytes.drop j = (s.bytes.drop i).drop (j - i) := by
    rw [List.drop_drop, Nat.add_sub_cancel' hij]
  rw [slice, slice, slice, hd, ← List.take_add, show j - i + (k - j) = k - i by omega]

@[simp] theorem slice_all : s.slice 0 s.len = s.bytes := by simp [slice, len]

end Str

/-- Rust's `from_utf8`. -/
def fromUtf8 (bs : List UInt8) : Except Error Str :=
  match h : check 0 0 bs with
  | none => .ok ⟨bs, check_eq_none.1 h⟩
  | some e => .error e

end Lib.Utf8
