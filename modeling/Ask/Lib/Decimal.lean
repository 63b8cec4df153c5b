/-
  Integers of a machine type, read from decimal text: what Rust's `from_str`
  does, with arithmetic that is checked digit by digit.

  `parse` accepts a text iff it denotes an integer of the type (`parse_eq_ok`):
  a number that overflows on the way is never in range at the end.
-/
import Ask.Lib.Json

namespace Lib.Decimal

/-! ## Reading -/

/-- The integers from `lo` to `hi`, with zero among them. -/
structure IntType where
  lo : ℤ
  hi : ℤ
  lo_nonpos : lo ≤ 0
  hi_nonneg : 0 ≤ hi

/-- The number is in range. -/
def IntType.Has (ty : IntType) (z : ℤ) : Prop := ty.lo ≤ z ∧ z ≤ ty.hi

instance (ty : IntType) (z : ℤ) : Decidable (ty.Has z) := inferInstanceAs (Decidable (_ ∧ _))

/-- Why a text is no number of the type. -/
inductive ParseIntError where
  | empty
  | invalidDigit
  | posOverflow
  | negOverflow
  deriving DecidableEq, Repr

/-- The error's text, as Rust has it. -/
def ParseIntError.text : ParseIntError → String
  | empty => "cannot parse integer from empty string"
  | invalidDigit => "invalid digit found in string"
  | posOverflow => "number too large to fit in target type"
  | negOverflow => "number too small to fit in target type"

/-- A number with its sign. -/
def signed (negative : Bool) (n : ℕ) : ℤ := if negative then -(n : ℤ) else n

/-- The digits after `result`; a product or a sum that is not of the type ends it. -/
def readDigits (ty : IntType) (negative : Bool) : ℤ → List Char → Except ParseIntError ℤ
  | result, [] => .ok result
  | result, c :: cs =>
    let overflow : ParseIntError := if negative then .negOverflow else .posOverflow
    let mul := result * 10
    if c.isDigit = false then .error .invalidDigit
    else if ¬ty.Has mul then .error overflow
    else
      let next := mul + signed negative (c.toNat - '0'.toNat)
      if ty.Has next then readDigits ty negative next cs else .error overflow

/-- A minus is a sign of the types with negative numbers only. -/
def parseChars (ty : IntType) : List Char → Except ParseIntError ℤ
  | [] => .error .empty
  | ['+'] => .error .invalidDigit
  | ['-'] => .error .invalidDigit
  | '+' :: digits => readDigits ty false 0 digits
  | '-' :: digits => if ty.lo < 0 then readDigits ty true 0 digits else .error .invalidDigit
  | digits => readDigits ty false 0 digits

/-- `str::parse` -/
def parse (ty : IntType) (text : String) : Except ParseIntError ℤ := parseChars ty text.toList

/-! ## What is read -/

/-- The text denotes the number: digits, after a sign or not, and the number is of the type. -/
def DenotesChars (ty : IntType) (cs : List Char) (z : ℤ) : Prop :=
  ∃ (negative : Bool) (digits : List Char), digits ≠ [] ∧ (∀ c ∈ digits, c.isDigit = true) ∧
    z = signed negative (Nat.ofDigitChars 10 digits 0) ∧ ty.Has z ∧
    if negative then ty.lo < 0 ∧ cs = '-' :: digits else cs = digits ∨ cs = '+' :: digits

/-- The text denotes the number. -/
def Denotes (ty : IntType) (text : String) (z : ℤ) : Prop := DenotesChars ty text.toList z

variable {ty : IntType} {negative : Bool} {n n' : ℕ} {z : ℤ} {c : Char} {cs : List Char} {text : String}

/-- With a number its smaller ones are of the type. -/
theorem IntType.Has.of_le (h : ty.Has (signed negative n')) (hle : n ≤ n') : ty.Has (signed negative n) := by
  have hlo := ty.lo_nonpos
  have hhi := ty.hi_nonneg
  unfold Has signed at *
  split_ifs at * <;> omega

theorem le_ofDigitChars (cs : List Char) (n : ℕ) : n ≤ Nat.ofDigitChars 10 cs n := by
  induction cs generalizing n with
  | nil => simp
  | cons c cs ih =>
    rw [Nat.ofDigitChars_cons]
    have := ih (10 * n + (c.toNat - '0'.toNat))
    omega

theorem signed_add (negative : Bool) (n n' : ℕ) :
    signed negative n + signed negative n' = signed negative (n + n') := by
  unfold signed
  split_ifs <;> push_cast <;> ring

theorem signed_mul (negative : Bool) (n : ℕ) : signed negative n * 10 = signed negative (10 * n) := by
  unfold signed
  split_ifs <;> push_cast <;> ring

theorem readDigits_signed (h : ty.Has (signed negative n)) :
    readDigits ty negative (signed negative n) cs = .ok z ↔
      (∀ c ∈ cs, c.isDigit = true) ∧ z = signed negative (Nat.ofDigitChars 10 cs n) ∧ ty.Has z := by
  induction cs generalizing n with
  | nil =>
    simp only [readDigits, Except.ok.injEq, List.not_mem_nil, false_imp_iff, implies_true, true_and,
      Nat.ofDigitChars_nil]
    constructor
    · rintro rfl
      exact ⟨rfl, h⟩
    · rintro ⟨rfl, -⟩
      rfl
  | cons c cs ih =>
    have hlast := le_ofDigitChars cs (10 * n + (c.toNat - '0'.toNat))
    rw [Nat.ofDigitChars_cons, readDigits, List.forall_mem_cons]
    simp only [signed_mul, signed_add]
    by_cases hc : c.isDigit = true
    · rw [if_neg (by simp [hc])]
      by_cases hnext : ty.Has (signed negative (10 * n + (c.toNat - '0'.toNat)))
      · rw [if_neg (not_not.2 (hnext.of_le (Nat.le_add_right _ _))), if_pos hnext, ih hnext]
        simp [hc]
      · -- what overflows here is no number of the type at the end
        have hnot : ¬(z = signed negative (Nat.ofDigitChars 10 cs (10 * n + (c.toNat - '0'.toNat))) ∧
            ty.Has z) := by
          rintro ⟨rfl, hz⟩
          exact hnext (hz.of_le hlast)
        rw [if_neg hnext]
        refine iff_of_false (fun h => ?_) fun h => hnot h.2
        split_ifs at h
    · simp [hc]

theorem readDigits_zero (ty : IntType) (negative : Bool) (cs : List Char) :
    readDigits ty negative 0 cs = .ok z ↔
      (∀ c ∈ cs, c.isDigit = true) ∧ z = signed negative (Nat.ofDigitChars 10 cs 0) ∧ ty.Has z := by
  have hzero : signed negative 0 = 0 := by simp [signed]
  have hhas : ty.Has (signed negative 0) := by
    rw [hzero]
    exact ⟨ty.lo_nonpos, ty.hi_nonneg⟩
  rw [← readDigits_signed hhas, hzero]

/-! ### The sign -/

theorem parseChars_plus (hne : cs ≠ []) : parseChars ty ('+' :: cs) = readDigits ty false 0 cs := by
  obtain ⟨d, ds, rfl⟩ := List.exists_cons_of_ne_nil hne
  rfl

theorem parseChars_minus (hne : cs ≠ []) :
    parseChars ty ('-' :: cs) = if ty.lo < 0 then readDigits ty true 0 cs else .error .invalidDigit := by
  obtain ⟨d, ds, rfl⟩ := List.exists_cons_of_ne_nil hne
  rfl

theorem parseChars_plain (hc : c ≠ '+') (hc' : c ≠ '-') :
    parseChars ty (c :: cs) = readDigits ty false 0 (c :: cs) := by
  rw [parseChars] <;> simp [hc, hc']

/-- A text is read iff it denotes a number of the type. -/
theorem parseChars_eq_ok : parseChars ty cs = .ok z ↔ DenotesChars ty cs z := by
  constructor
  · intro h
    obtain _ | ⟨c, cs⟩ := cs
    · cases h
    by_cases hplus : c = '+'
    · subst hplus
      obtain rfl | hne := eq_or_ne cs []
      · cases h
      rw [parseChars_plus hne, readDigits_zero] at h
      exact ⟨false, cs, hne, h.1, h.2.1, h.2.2, .inr rfl⟩
    by_cases hminus : c = '-'
    · subst hminus
      obtain rfl | hne := eq_or_ne cs []
      · cases h
      rw [parseChars_minus hne] at h
      split_ifs at h with hlo
      rw [readDigits_zero] at h
      exact ⟨true, cs, hne, h.1, h.2.1, h.2.2, hlo, rfl⟩
    · rw [parseChars_plain hplus hminus, readDigits_zero] at h
      exact ⟨false, c :: cs, by simp, h.1, h.2.1, h.2.2, .inl rfl⟩
  · rintro ⟨negative, digits, hne, hdigits, hz, hhas, hcs⟩
    have hread := (readDigits_zero ty negative digits).2 ⟨hdigits, hz, hhas⟩
    cases negative with
    | true =>
      obtain ⟨hlo, rfl⟩ := hcs
      rw [parseChars_minus hne, if_pos hlo, hread]
    | false =>
      obtain rfl | rfl := hcs
      · obtain ⟨d, ds, rfl⟩ := List.exists_cons_of_ne_nil hne
        have hd := hdigits d List.mem_cons_self
        rw [parseChars_plain _ _, hread]
        · rintro rfl
          exact absurd hd (by decide)
        · rintro rfl
          exact absurd hd (by decide)
      · rw [parseChars_plus hne, hread]

theorem parse_eq_ok : parse ty text = .ok z ↔ Denotes ty text z := parseChars_eq_ok

/-- A number's own text denotes it. -/
theorem denotes_toString (h : ty.Has z) : Denotes ty (toString z) z := by
  have hdigits : ∀ k : ℕ, ∀ c ∈ k.repr.toList, c.isDigit = true := fun k c hc => Json.isDigit_repr hc
  have hvalue : ∀ k : ℕ, Nat.ofDigitChars 10 k.repr.toList 0 = k := fun k => by
    rw [Nat.toList_repr, Nat.ofDigitChars_ten_toDigits]
  have hne : ∀ k : ℕ, k.repr.toList ≠ [] := fun k => by
    obtain ⟨d, ds, he, -⟩ := Json.repr_cases k
    simp [he]
  cases z with
  | ofNat k => exact ⟨false, k.repr.toList, hne k, hdigits k, by simp [signed], h, .inl rfl⟩
  | negSucc k =>
    refine ⟨true, (k + 1).repr.toList, hne _, hdigits _, ?_, h, ?_, Json.toList_toString_negSucc k⟩
    · rw [hvalue, signed, if_pos rfl]
      rfl
    · exact lt_of_le_of_lt h.1 (Int.negSucc_lt_zero k)

end Lib.Decimal
