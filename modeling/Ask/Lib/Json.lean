/-
  JSON objects whose members are integers.

  `writeObject` writes the members one after the other without blanks; `readObject`
  reads any such object, blanks between its tokens included, and gets back what
  was written.  Names have no escapes.
-/
import Mathlib.Tactic

namespace Lib.Json

/-! ## Writing -/

/-- A member, its name in quotes. -/
def writeMember (m : String × ℤ) : List Char :=
  '"' :: m.1.toList ++ '"' :: ':' :: (toString m.2).toList

/-- The members with commas between them, up to the closing brace. -/
def writeMembers : List (String × ℤ) → List Char
  | [] => ['\x7d']
  | [m] => writeMember m ++ ['\x7d']
  | m :: m' :: ms => writeMember m ++ ',' :: writeMembers (m' :: ms)

/-- An object of integers, without blanks. -/
def writeObject (members : List (String × ℤ)) : String := String.ofList ('\x7b' :: writeMembers members)

/-! ## Reading -/

/-- JSON's white space. -/
def isBlank (c : Char) : Bool := c = ' ' || c = '\n' || c = '\t' || c = '\r'

/-- What comes after white space. -/
def skipBlanks (cs : List Char) : List Char := cs.dropWhile isBlank

/-- A character that stands for itself between quotes. -/
def isPlain (c : Char) : Bool := c ≠ '"' && c ≠ '\\' && 0x20 ≤ c.toNat

/-- A name after its opening quote, and what follows it. -/
def readName (cs : List Char) : Option (String × List Char) :=
  match cs.dropWhile isPlain with
  | '"' :: rest => some (String.ofList (cs.takeWhile isPlain), rest)
  | _ => none

/-- A number without needless zeros. -/
def readNat (cs : List Char) : Option (ℕ × List Char) :=
  match cs.takeWhile Char.isDigit with
  | [] => none
  | d :: ds =>
    if d = '0' ∧ ds ≠ [] then none
    else some (Nat.ofDigitChars 10 (d :: ds) 0, cs.dropWhile Char.isDigit)

/-- An integer at the front, and the rest; there is no `-0`. -/
def readInt : List Char → Option (ℤ × List Char)
  | '-' :: cs => (readNat cs).bind fun (n, rest) => if n = 0 then none else some (-(n : ℤ), rest)
  | cs => (readNat cs).map fun (n, rest) => ((n : ℤ), rest)

/-- A member, and what follows it after blanks. -/
def readMember (cs : List Char) : Option ((String × ℤ) × List Char) :=
  match skipBlanks cs with
  | '"' :: cs => (readName cs).bind fun (name, cs) =>
    match skipBlanks cs with
    | ':' :: cs => (readInt (skipBlanks cs)).map fun (value, cs) => ((name, value), skipBlanks cs)
    | _ => none
  | _ => none

/-- The members up to the closing brace, and what follows it. -/
def readMembers : ℕ → List Char → Option (List (String × ℤ) × List Char)
  | 0, _ => none
  | fuel + 1, cs =>
    match readMember cs with
    | some (m, '\x7d' :: rest) => some ([m], rest)
    | some (m, ',' :: cs) => (readMembers fuel cs).map fun (ms, rest) => (m :: ms, rest)
    | _ => none

/-- An object of integers, blanks allowed between tokens. -/
def readObject (text : String) : Option (List (String × ℤ)) :=
  match skipBlanks text.toList with
  | '\x7b' :: cs => (readMembers cs.length cs).bind fun (ms, rest) =>
    if skipBlanks rest = [] then some ms else none
  | _ => none

/-! ## Reading what was written -/

theorem isDigit_repr {n : ℕ} {c : Char} (h : c ∈ n.repr.toList) : c.isDigit = true := by
  rw [Nat.toList_repr] at h
  exact Nat.isDigit_of_mem_toDigits (by decide) (by decide) h

theorem toList_toString_negSucc (k : ℕ) :
    (toString (Int.negSucc k)).toList = '-' :: (k + 1).repr.toList := by
  show ("-" ++ Nat.repr (k + 1)).toList = _
  rw [String.toList_append]
  rfl

variable {rest : List Char} {c : Char}

theorem span_append (rest : List Char) {p : Char → Bool} {cs : List Char}
    (hcs : ∀ c ∈ cs, p c = true) (hc : p c = false) :
    (cs ++ c :: rest).takeWhile p = cs ∧ (cs ++ c :: rest).dropWhile p = c :: rest := by
  rw [List.takeWhile_append_of_pos hcs, List.dropWhile_append_of_pos hcs]
  simp [hc]

theorem skipBlanks_cons (hc : isBlank c = false) : skipBlanks (c :: rest) = c :: rest := by
  simp [skipBlanks, hc]

/-- A number starts with a zero only if it is zero. -/
theorem repr_cases (n : ℕ) : ∃ d ds, n.repr.toList = d :: ds ∧ ¬(d = '0' ∧ ds ≠ []) := by
  rw [Nat.toList_repr]
  induction n using Nat.strong_induction_on with
  | _ n ih =>
    by_cases hn : n < 10
    · exact ⟨_, [], Nat.toDigits_of_lt_base hn, by simp⟩
    · obtain ⟨d, ds, he, hd⟩ := ih (n / 10) (by omega)
      rw [Nat.toDigits_of_base_le (by decide) (by omega), he]
      refine ⟨d, _, rfl, ?_⟩
      rintro ⟨rfl, -⟩
      -- the digits before the last are those of zero
      have hnil : ds = [] := by simpa using hd
      have hzero := Nat.ofDigitChars_ten_toDigits (n := n / 10)
      rw [he, hnil, Nat.ofDigitChars_cons, Nat.ofDigitChars_nil] at hzero
      have : n / 10 = 0 := hzero.symm
      omega

theorem readNat_repr (rest : List Char) (n : ℕ) (hc : c.isDigit = false) :
    readNat (n.repr.toList ++ c :: rest) = some (n, c :: rest) := by
  obtain ⟨htake, hdrop⟩ := span_append rest (fun _ h => isDigit_repr (n := n) h) hc
  have hval : Nat.ofDigitChars 10 n.repr.toList 0 = n := by
    rw [Nat.toList_repr, Nat.ofDigitChars_ten_toDigits]
  obtain ⟨d, ds, he, hd⟩ := repr_cases n
  unfold readNat
  rw [htake, hdrop, he]
  dsimp only
  rw [if_neg hd, ← he, hval]

theorem readInt_toString (rest : List Char) (z : ℤ) (hc : c.isDigit = false) :
    readInt ((toString z).toList ++ c :: rest) = some (z, c :: rest) := by
  cases z with
  | ofNat n =>
    show readInt (n.repr.toList ++ c :: rest) = _
    obtain ⟨d, ds, he, -⟩ := repr_cases n
    have hd : d ≠ '-' := by
      rintro rfl
      exact absurd (isDigit_repr (n := n) (he ▸ List.mem_cons_self)) (by decide)
    have hread := readNat_repr rest n hc
    rw [he] at hread ⊢
    unfold readInt
    split
    · rename_i heq
      exact absurd (List.cons.inj heq).1 hd
    · rw [hread]
      rfl
  | negSucc n =>
    rw [toList_toString_negSucc, List.cons_append, readInt, readNat_repr rest (n + 1) hc]
    rfl

/-- The name can be written without escapes. -/
def PlainName (name : String) : Prop := ∀ c ∈ name.toList, isPlain c = true

instance (name : String) : Decidable (PlainName name) := List.decidableBAll (fun c => isPlain c = true) _

theorem readMember_write {m : String × ℤ} (hm : PlainName m.1) (hc : c.isDigit = false)
    (hb : isBlank c = false) : readMember (writeMember m ++ c :: rest) = some (m, c :: rest) := by
  obtain ⟨name, value⟩ := m
  have hname : readName (name.toList ++ '"' :: (':' :: (toString value).toList ++ c :: rest)) =
      some (name, ':' :: (toString value).toList ++ c :: rest) := by
    obtain ⟨htake, hdrop⟩ := span_append (':' :: (toString value).toList ++ c :: rest) hm
      (show isPlain '"' = false by decide)
    rw [readName, hdrop, htake]
    simp only [String.ofList_toList]
  have hvalue : skipBlanks ((toString value).toList ++ c :: rest) = (toString value).toList ++ c :: rest := by
    have hhead : ∃ d ds, (toString value).toList = d :: ds ∧ isBlank d = false := by
      cases value with
      | ofNat n =>
        obtain ⟨d, ds, he, -⟩ := repr_cases n
        refine ⟨d, ds, he, ?_⟩
        have hd := isDigit_repr (n := n) (he ▸ List.mem_cons_self)
        rw [← Bool.not_eq_true]
        intro hblank
        simp only [isBlank, Bool.or_eq_true, decide_eq_true_eq] at hblank
        rcases hblank with ((rfl | rfl) | rfl) | rfl <;> exact absurd hd (by decide)
      | negSucc n => exact ⟨'-', _, toList_toString_negSucc n, by decide⟩
    obtain ⟨d, ds, he, hd⟩ := hhead
    rw [he, List.cons_append, skipBlanks_cons hd]
  have hint := readInt_toString rest value hc
  simp only [writeMember, List.cons_append, List.append_assoc] at hname ⊢
  rw [readMember, skipBlanks_cons (by decide)]
  simp only [hname, Option.bind_some]
  rw [skipBlanks_cons (by decide)]
  simp only [hvalue, hint, Option.map_some, skipBlanks_cons hb]

theorem readMembers_write {ms : List (String × ℤ)} (hne : ms ≠ []) (hms : ∀ m ∈ ms, PlainName m.1) :
    ∀ fuel, ms.length ≤ fuel → readMembers fuel (writeMembers ms) = some (ms, []) := by
  induction ms with
  | nil => exact absurd rfl hne
  | cons m ms ih =>
    intro fuel hfuel
    obtain ⟨fuel, rfl⟩ : ∃ k, fuel = k + 1 := ⟨fuel - 1, by simp at hfuel; omega⟩
    have hm := hms m List.mem_cons_self
    cases ms with
    | nil =>
      rw [writeMembers, readMembers, readMember_write hm (by decide) (by decide)]
      rfl
    | cons m' ms =>
      rw [writeMembers, readMembers, readMember_write hm (by decide) (by decide)]
      simp only
      rw [ih (by simp) (fun x hx => hms x (List.mem_cons_of_mem m hx)) fuel (by simp at hfuel ⊢; omega)]
      rfl

theorem length_le_writeMembers (ms : List (String × ℤ)) : ms.length ≤ (writeMembers ms).length := by
  induction ms with
  | nil => simp
  | cons m ms ih =>
    cases ms with
    | nil => simp [writeMembers]
    | cons m' ms =>
      rw [writeMembers]
      simp only [List.length_append, List.length_cons] at ih ⊢
      omega

/-- Reading an object gets back the members it was written from. -/
theorem readObject_writeObject {ms : List (String × ℤ)} (hne : ms ≠ [])
    (hms : ∀ m ∈ ms, PlainName m.1) : readObject (writeObject ms) = some ms := by
  unfold readObject writeObject
  rw [String.toList_ofList, skipBlanks_cons (by decide)]
  simp only [readMembers_write hne hms _ (length_le_writeMembers ms), Option.bind_some]
  rfl

end Lib.Json
