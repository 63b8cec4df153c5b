/-
  File names that need not be text.

  On Unix a name is a string of bytes.  It is spelled as text: scalars stand
  for themselves, and bytes that are no UTF-8 stand between two NULs, one group
  for each sequence that `str::from_utf8` reports.  A NUL of the bytes, which no
  name has, is an empty group.  The bytes are read back from their spelling;
  slashes and dots, which are ASCII, stay where they are; and a group is one
  U+FFFD for `to_string_lossy`.
-/
import Ask.Lib.Utf8

namespace Lib.OsStr

/-! ## Spelling bytes -/

/-- A byte within a group: neither a NUL nor a slash, whatever it is. -/
def byteChar (b : UInt8) : Char := Char.ofNat (256 + b.toNat)

/-- Bytes that are no text. -/
def group (bytes : List UInt8) : List Char := '\x00' :: bytes.map byteChar ++ ['\x00']

/-- A scalar. -/
def spellChar (c : Char) : List Char := if c = '\x00' then ['\x00', '\x00'] else [c]

/-- The scalar at the front of the bytes. -/
def front (bytes : List UInt8) : Option Char := ByteArray.utf8DecodeChar? bytes.toByteArray 0

/-- How many bytes at the front are no text together. -/
def badLen (bytes : List UInt8) : ℕ :=
  match Utf8.scan bytes with
  | .invalid n => n
  | _ => bytes.length

/-- Spell the bytes after the next `k`, which are done with. -/
def spellFrom : ℕ → List UInt8 → List Char
  | _, [] => []
  | k + 1, _ :: bytes => spellFrom k bytes
  | 0, b :: bytes =>
    match front (b :: bytes) with
    | some c => spellChar c ++ spellFrom (c.utf8Size - 1) bytes
    | none => group ((b :: bytes).take (badLen (b :: bytes))) ++ spellFrom (badLen (b :: bytes) - 1) bytes

/-- `OsString::from_vec` -/
def spell (bytes : List UInt8) : String := String.ofList (spellFrom 0 bytes)

/-- `Path::new` of a text. -/
def ofText (text : String) : String := String.ofList (text.toList.flatMap spellChar)

/-! ## Reading the spelling -/

/-- The text of a spelling; within a group, whether it is empty so far. -/
def lossyFrom : Option Bool → List Char → List Char
  | _, [] => []
  | none, c :: cs => if c = '\x00' then lossyFrom (some true) cs else c :: lossyFrom none cs
  | some empty, c :: cs =>
    if c = '\x00' then (if empty then '\x00' else '\uFFFD') :: lossyFrom none cs
    else lossyFrom (some false) cs

/-- `to_string_lossy`: U+FFFD for what is no text. -/
def toStringLossy (name : String) : String := String.ofList (lossyFrom none name.toList)

/-- `to_str`, of a name without a NUL of its own. -/
def toStr (name : String) : Option String := if '\x00' ∈ name.toList then none else some name

/-- The bytes of a spelling. -/
def bytesFrom : Option Bool → List Char → List UInt8
  | _, [] => []
  | none, c :: cs =>
    if c = '\x00' then bytesFrom (some true) cs else String.utf8EncodeChar c ++ bytesFrom none cs
  | some empty, c :: cs =>
    if c = '\x00' then (if empty then [0] else []) ++ bytesFrom none cs
    else UInt8.ofNat (c.toNat - 256) :: bytesFrom (some false) cs

/-- `as_encoded_bytes` -/
def bytesOf (name : String) : List UInt8 := bytesFrom none name.toList

/-- A name of a file or a directory: bytes without a NUL, spelled. -/
def OsName (name : String) : Prop := ∃ bytes : List UInt8, 0 ∉ bytes ∧ spell bytes = name

/-- A name that is text. -/
def TextName (name : String) : Prop := '\x00' ∉ name.toList

instance (name : String) : Decidable (TextName name) := inferInstanceAs (Decidable (_ ∉ _))

variable {bytes bytes' : List UInt8} {b : UInt8} {c : Char} {cs : List Char} {name name' : String} {k : ℕ}

/-! ## Groups -/

theorem toNat_byteChar : (byteChar b).toNat = 256 + b.toNat := by
  have hb := b.toNat_lt
  have hvalid : (256 + b.toNat).isValidChar := .inl (by omega)
  rw [byteChar, Char.ofNat, dif_pos hvalid]
  rfl

theorem byteChar_ne : byteChar b ≠ '\x00' := by
  intro h
  have hnat := congrArg Char.toNat h
  rw [toNat_byteChar] at hnat
  have : '\x00'.toNat = 0 := rfl
  omega

theorem bytesFrom_group_tail : bytesFrom (some false) (bytes.map byteChar ++ '\x00' :: cs) =
    bytes ++ bytesFrom none cs := by
  induction bytes with
  | nil => rfl
  | cons b bytes ih =>
    rw [List.map_cons, List.cons_append, bytesFrom, if_neg byteChar_ne, ih, toNat_byteChar,
      Nat.add_sub_cancel_left, UInt8.ofNat_toNat]
    rfl

theorem bytesFrom_group (hne : bytes ≠ []) : bytesFrom none (group bytes ++ cs) = bytes ++ bytesFrom none cs := by
  cases bytes with
  | nil => exact absurd rfl hne
  | cons b bytes =>
    show bytesFrom (some true) ((b :: bytes).map byteChar ++ ['\x00'] ++ cs) = _
    rw [List.append_assoc, List.map_cons, List.cons_append, bytesFrom, if_neg byteChar_ne, toNat_byteChar,
      Nat.add_sub_cancel_left, UInt8.ofNat_toNat]
    exact congrArg (b :: ·) bytesFrom_group_tail

theorem bytesFrom_spellChar :
    bytesFrom none (spellChar c ++ cs) = String.utf8EncodeChar c ++ bytesFrom none cs := by
  unfold spellChar
  split_ifs with hc
  · rw [hc]
    rfl
  · rw [List.singleton_append, bytesFrom, if_neg hc]

/-! ## The bytes are read back -/

theorem spellFrom_drop : spellFrom k bytes = spellFrom 0 (bytes.drop k) := by
  induction bytes generalizing k with
  | nil => cases k <;> rfl
  | cons b bytes ih =>
    cases k with
    | zero => rfl
    | succ k => exact ih

theorem front_eq_some (h : front bytes = some c) : bytes = String.utf8EncodeChar c ++ bytes.drop c.utf8Size := by
  obtain ⟨rest, hrest⟩ := ByteArray.exists_of_utf8DecodeChar?_eq_some h
  have hdata : rest = rest.data.toList.toByteArray := ByteArray.ext (by rw [List.data_toByteArray])
  rw [hdata, ← List.toByteArray_append, List.toByteArray_inj] at hrest
  have hdrop : bytes.drop c.utf8Size = rest.data.toList := by
    rw [hrest, ← String.length_utf8EncodeChar, List.drop_left]
  rw [hdrop]
  exact hrest

/-- The next byte is a scalar's, with those that complete it, or the first of a group. -/
theorem front_encode : front (String.utf8EncodeChar c ++ bytes) = some c := by
  rw [front, List.toByteArray_append]
  exact ByteArray.utf8DecodeChar?_utf8EncodeChar_append

theorem le_of_scanTails {n i j : ℕ} {lo hi : UInt8} (h : Utf8.scanTails n lo hi i bytes = .invalid j) : i ≤ j := by
  induction n generalizing lo hi i bytes with
  | zero => cases h
  | succ n ih =>
    cases bytes with
    | nil => cases h
    | cons b bytes =>
      rw [Utf8.scanTails] at h
      split_ifs at h
      · exact (Nat.le_succ i).trans (ih h)
      · exact (Utf8.Scan.invalid.inj h).le

theorem one_le_badLen : 1 ≤ badLen (b :: bytes) := by
  unfold badLen
  split
  · rename_i n hscan
    dsimp only [Utf8.scan] at hscan
    split_ifs at hscan
    split at hscan
    · exact le_of_scanTails hscan
    · exact (Utf8.Scan.invalid.inj hscan).le
  · exact Nat.succ_le_succ (Nat.zero_le _)

/-- One step of the spelling. -/
theorem spellFrom_cons (b : UInt8) (bytes : List UInt8) :
    (∃ c, b :: bytes = String.utf8EncodeChar c ++ (b :: bytes).drop c.utf8Size ∧ 1 ≤ c.utf8Size ∧
      spellFrom 0 (b :: bytes) = spellChar c ++ spellFrom 0 ((b :: bytes).drop c.utf8Size)) ∨
    ∃ n, 1 ≤ n ∧ spellFrom 0 (b :: bytes) =
      group ((b :: bytes).take n) ++ spellFrom 0 ((b :: bytes).drop n) := by
  have hdrop : ∀ {n}, 1 ≤ n → spellFrom (n - 1) bytes = spellFrom 0 ((b :: bytes).drop n) := by
    intro n hn
    obtain ⟨n, rfl⟩ := Nat.exists_eq_add_of_le' hn
    exact spellFrom_drop
  rw [spellFrom]
  cases hfront : front (b :: bytes) with
  | some c =>
    have hsize := c.utf8Size_pos
    exact .inl ⟨c, front_eq_some hfront, hsize, congrArg _ (hdrop hsize)⟩
  | none =>
    exact .inr ⟨badLen (b :: bytes), one_le_badLen, congrArg (group _ ++ ·) (hdrop one_le_badLen)⟩

/-- The bytes are read back from their spelling. -/
theorem bytesFrom_spellFrom (bytes : List UInt8) : bytesFrom none (spellFrom 0 bytes) = bytes := by
  induction hlen : bytes.length using Nat.strong_induction_on generalizing bytes with
  | _ len ih =>
    subst hlen
    cases bytes with
    | nil => rfl
    | cons b bytes =>
      have hshorter : ∀ {n}, 1 ≤ n → bytesFrom none (spellFrom 0 ((b :: bytes).drop n)) = (b :: bytes).drop n := by
        intro n hn
        refine ih _ ?_ _ rfl
        rw [List.length_drop, List.length_cons]
        omega
      obtain ⟨c, heq, hsize, hspell⟩ | ⟨n, hn, hspell⟩ := spellFrom_cons b bytes
      · rw [hspell, bytesFrom_spellChar, hshorter hsize]
        exact heq.symm
      · have hne : (b :: bytes).take n ≠ [] := by
          rw [Ne, List.take_eq_nil_iff, not_or]
          exact ⟨by omega, List.cons_ne_nil _ _⟩
        rw [hspell, bytesFrom_group hne, hshorter hn, List.take_append_drop]

@[simp] theorem bytesOf_spell : bytesOf (spell bytes) = bytes := by
  rw [bytesOf, spell, String.toList_ofList, bytesFrom_spellFrom]

example : toStringLossy (spell [0x61, 0xE2, 0x82, 0x2E, 0xFF]) = "a\uFFFD.\uFFFD" := by decide +kernel

/-! ## Names that are text -/

theorem ofNat_ne_zero {n : ℕ} (hpos : 0 < n) (hlt : n < 256) : UInt8.ofNat n ≠ 0 := by
  intro h
  have hnat := congrArg UInt8.toNat h
  rw [UInt8.toNat_ofNat', UInt8.toNat_zero] at hnat
  omega

/-- Only a NUL has a zero byte. -/
theorem eq_nul_of_mem (h : 0 ∈ String.utf8EncodeChar c) : c = '\x00' := by
  unfold String.utf8EncodeChar at h
  dsimp only at h
  split_ifs at h
  · by_contra hne
    have hpos : 0 < c.val.toNat := Nat.pos_of_ne_zero fun h0 => hne (Char.toNat_inj.1 h0)
    exact ofNat_ne_zero hpos (by omega) (List.mem_singleton.1 h).symm
  all_goals simp only [List.mem_cons, List.not_mem_nil, or_false] at h
  · rcases h with h | h <;> exact absurd h.symm (ofNat_ne_zero (by omega) (by omega))
  · rcases h with h | h | h <;> exact absurd h.symm (ofNat_ne_zero (by omega) (by omega))
  · rcases h with h | h | h | h <;> exact absurd h.symm (ofNat_ne_zero (by omega) (by omega))

theorem spellFrom_encode : spellFrom 0 (String.utf8EncodeChar c ++ bytes) = spellChar c ++ spellFrom 0 bytes := by
  obtain ⟨b, tail, hcons⟩ := List.exists_cons_of_ne_nil (String.utf8EncodeChar_ne_nil (c := c))
  have hlen : tail.length = c.utf8Size - 1 := by
    rw [← String.length_utf8EncodeChar, hcons]
    rfl
  have hfront : front (b :: (tail ++ bytes)) = some c := by
    rw [← List.cons_append, ← hcons]
    exact front_encode
  rw [hcons, List.cons_append, spellFrom, hfront]
  dsimp only
  rw [spellFrom_drop, ← hlen, List.drop_left]

/-- The bytes of a text are spelled as the text. -/
theorem spell_encode (cs : List Char) :
    spell (cs.flatMap String.utf8EncodeChar) = ofText (String.ofList cs) := by
  rw [spell, ofText, String.toList_ofList]
  congr 1
  induction cs with
  | nil => rfl
  | cons c cs ih => rw [List.flatMap_cons, spellFrom_encode, ih, List.flatMap_cons]

theorem ofText_text (h : TextName name) : ofText name = name := by
  have hchars : ∀ cs : List Char, '\x00' ∉ cs → cs.flatMap spellChar = cs := by
    intro cs hcs
    induction cs with
    | nil => rfl
    | cons c cs ih =>
      obtain ⟨hc, hcs⟩ := not_or.1 (fun hmem => hcs (List.mem_cons.2 hmem))
      rw [List.flatMap_cons, ih hcs, spellChar, if_neg (Ne.symm hc)]
      rfl
  rw [ofText, hchars _ h, String.ofList_toList]

theorem TextName.osName (h : TextName name) : OsName name := by
  refine ⟨name.toList.flatMap String.utf8EncodeChar, fun hmem => ?_, ?_⟩
  · obtain ⟨c, hc, hzero⟩ := List.mem_flatMap.1 hmem
    exact h (eq_nul_of_mem hzero ▸ hc)
  · rw [spell_encode, String.ofList_toList, ofText_text h]

/-- What comes before the first NUL is kept. -/
theorem lossyFrom_append (h : '\x00' ∉ cs) (rest : List Char) :
    lossyFrom none (cs ++ rest) = cs ++ lossyFrom none rest := by
  induction cs with
  | nil => rfl
  | cons c cs ih =>
    obtain ⟨hc, hcs⟩ := not_or.1 (fun hmem => h (List.mem_cons.2 hmem))
    rw [List.cons_append, lossyFrom, if_neg (Ne.symm hc), ih hcs, List.cons_append]

theorem toStringLossy_text (h : TextName name) : toStringLossy name = name := by
  rw [toStringLossy, ← List.append_nil name.toList, lossyFrom_append h]
  simp [lossyFrom]

theorem toStr_text (h : TextName name) : toStr name = some name := if_neg h

end Lib.OsStr
