/-
  Tables with an auto-incremented integer key and a unique index.

  A table keeps its rows in key order together with the largest key it ever
  gave out.  Both facts are fields, and so is the uniqueness of the index, so
  two rows never share a key or an index entry and a key is not given out
  twice, whatever was deleted in between.
-/
import Mathlib.Tactic

namespace Lib

/-- Rows of type `ρ` in the order of their key, the largest key given out, and
    at most one row for each value of the index. -/
structure AutoTable (ρ : Type) (key : ρ → ℤ) {ι : Type} (index : ρ → ι) where
  rows : List ρ
  seq : ℤ
  sorted : rows.Pairwise fun a b => key a < key b
  le_seq : ∀ r ∈ rows, key r ≤ seq
  unique : rows.Pairwise fun a b => index a ≠ index b

namespace AutoTable

variable {ρ : Type} {key : ρ → ℤ} {ι : Type} {index : ρ → ι}

@[ext]
theorem ext {t t' : AutoTable ρ key index} (hr : t.rows = t'.rows) (hs : t.seq = t'.seq) :
    t = t' := by
  cases t; cases t'; cases hr; cases hs; rfl

instance [DecidableEq ρ] : DecidableEq (AutoTable ρ key index) := fun t t' =>
  decidable_of_iff (t.rows = t'.rows ∧ t.seq = t'.seq)
    ⟨fun h => AutoTable.ext h.1 h.2, fun h => h ▸ ⟨rfl, rfl⟩⟩

/-- The table before any insertion. -/
def empty : AutoTable ρ key index := ⟨[], 0, .nil, by simp, .nil⟩

instance : Inhabited (AutoTable ρ key index) := ⟨empty⟩

/-- Append a row under the next key; nothing when its index entry is taken. -/
def insert [DecidableEq ι] (t : AutoTable ρ key index) (mk : ℤ → ρ)
    (hk : ∀ i, key (mk i) = i := by intro; rfl) : Option (AutoTable ρ key index) :=
  if h : ∀ r ∈ t.rows, index r ≠ index (mk (t.seq + 1)) then
    some
      { rows := t.rows ++ [mk (t.seq + 1)]
        seq := t.seq + 1
        sorted := by
          rw [List.pairwise_append]
          refine ⟨t.sorted, by simp, fun a ha b hb => ?_⟩
          rw [List.mem_singleton.1 hb, hk]
          exact lt_of_le_of_lt (t.le_seq a ha) (by omega)
        le_seq := fun r hr => by
          rcases List.mem_append.1 hr with hr | hr
          · exact le_trans (t.le_seq r hr) (by omega)
          · rw [List.mem_singleton.1 hr, hk]
        unique := by
          rw [List.pairwise_append]
          refine ⟨t.unique, by simp, fun a ha b hb => ?_⟩
          rw [List.mem_singleton.1 hb]
          exact h a ha }
  else none

/-- Rewrite every row, keeping its key and its index entry. -/
def update (t : AutoTable ρ key index) (f : ρ → ρ)
    (hf : ∀ r, key (f r) = key r ∧ index (f r) = index r := by
      intro r; split <;> exact ⟨rfl, rfl⟩) : AutoTable ρ key index where
  rows := t.rows.map f
  seq := t.seq
  sorted := List.pairwise_map.2 (t.sorted.imp fun h => by rwa [(hf _).1, (hf _).1])
  le_seq r hr := by
    obtain ⟨r', hr', rfl⟩ := List.mem_map.1 hr
    rw [(hf r').1]; exact t.le_seq r' hr'
  unique := List.pairwise_map.2 (t.unique.imp fun h => by rwa [(hf _).2, (hf _).2])

/-- Remove the rows that satisfy `p`; the keys stay used. -/
def delete (t : AutoTable ρ key index) (p : ρ → Bool) : AutoTable ρ key index where
  rows := t.rows.filter fun r => !p r
  seq := t.seq
  sorted := t.sorted.filter _
  le_seq r hr := t.le_seq r (List.mem_filter.1 hr).1
  unique := t.unique.filter _

/-- The row with key `i`. -/
def get? (t : AutoTable ρ key index) (i : ℤ) : Option ρ :=
  t.rows.find? fun r => decide (key r = i)

section
variable (t : AutoTable ρ key index)

@[simp] theorem rows_update (f : ρ → ρ) (hf) : (t.update f hf).rows = t.rows.map f := rfl

@[simp] theorem seq_update (f : ρ → ρ) (hf) : (t.update f hf).seq = t.seq := rfl

theorem mem_update {t : AutoTable ρ key index} {f : ρ → ρ} {hf} {r : ρ} :
    r ∈ (t.update f hf).rows ↔ ∃ r₀ ∈ t.rows, f r₀ = r := by simp

@[simp] theorem mem_delete {t : AutoTable ρ key index} {p : ρ → Bool} {r : ρ} :
    r ∈ (t.delete p).rows ↔ r ∈ t.rows ∧ p r = false := by
  simp [delete]

end

section insert
variable [DecidableEq ι] {t t' : AutoTable ρ key index} {mk : ℤ → ρ} {hk : ∀ i, key (mk i) = i}

/-- An insertion succeeds exactly when the index entry is free. -/
theorem insert_eq_some : t.insert mk hk = some t' ↔
    (∀ r ∈ t.rows, index r ≠ index (mk (t.seq + 1))) ∧
      t'.rows = t.rows ++ [mk (t.seq + 1)] ∧ t'.seq = t.seq + 1 := by
  unfold insert
  split
  · rename_i h
    constructor
    · rintro ⟨⟩; exact ⟨h, rfl, rfl⟩
    · rintro ⟨-, hr, hs⟩; exact congrArg some (AutoTable.ext hr.symm hs.symm)
  · rename_i h; simp [h]

theorem insert_eq_none :
    t.insert mk hk = none ↔ ∃ r ∈ t.rows, index r = index (mk (t.seq + 1)) := by
  unfold insert
  split
  · rename_i h; simpa using h
  · rename_i h; simpa using h

end insert

/-- A key belongs to one row. -/
theorem eq_of_key {t : AutoTable ρ key index} {r r' : ρ} (hr : r ∈ t.rows) (hr' : r' ∈ t.rows)
    (h : key r = key r') : r = r' := by
  by_contra hne
  have hs : t.rows.Pairwise fun a b => key a ≠ key b := t.sorted.imp fun h => ne_of_lt h
  have : Std.Symm fun a b : ρ => key a ≠ key b := ⟨fun _ _ h => h.symm⟩
  exact hs.forall hr hr' hne h

/-- An index entry belongs to one row. -/
theorem eq_of_index {t : AutoTable ρ key index} {r r' : ρ} (hr : r ∈ t.rows) (hr' : r' ∈ t.rows)
    (h : index r = index r') : r = r' := by
  by_contra hne
  have : Std.Symm fun a b : ρ => index a ≠ index b := ⟨fun _ _ h => h.symm⟩
  exact t.unique.forall hr hr' hne h

/-- What only one row satisfies is counted once. -/
theorem countP_eq_one {t : AutoTable ρ key index} {p : ρ → Bool} {r : ρ} (hr : r ∈ t.rows) (hp : p r = true)
    (h : ∀ r' ∈ t.rows, p r' = true → r' = r) : t.rows.countP p = 1 := by
  obtain ⟨l₁, l₂, he⟩ := List.append_of_mem hr
  have hs := t.sorted
  rw [he, List.pairwise_append, List.pairwise_cons] at hs
  obtain ⟨-, ⟨h₂, -⟩, h₁⟩ := hs
  have hzero : ∀ l : List ρ, (∀ r' ∈ l, r' ∈ t.rows ∧ r' ≠ r) → l.countP p = 0 := by
    intro l hl
    rw [List.countP_eq_zero]
    intro r' hr' hp'
    exact (hl r' hr').2 (h r' (hl r' hr').1 hp')
  rw [he, List.countP_append, List.countP_cons_of_pos hp, hzero l₁, hzero l₂]
  · intro r' hr'
    refine ⟨by rw [he]; simp [hr'], ?_⟩
    rintro rfl
    exact lt_irrefl _ (h₂ r' hr')
  · intro r' hr'
    refine ⟨by rw [he]; simp [hr'], ?_⟩
    rintro rfl
    exact lt_irrefl _ (h₁ r' hr' r' List.mem_cons_self)

theorem get?_eq_some {t : AutoTable ρ key index} {i : ℤ} {r : ρ} :
    t.get? i = some r ↔ r ∈ t.rows ∧ key r = i := by
  constructor
  · intro h
    exact ⟨List.mem_of_find?_eq_some h, by simpa using List.find?_some h⟩
  · rintro ⟨hr, rfl⟩
    cases h : t.get? (key r) with
    | none => simpa using List.find?_eq_none.1 h r hr
    | some r' =>
      have h' : key r' = key r := by simpa using List.find?_some h
      rw [eq_of_key (List.mem_of_find?_eq_some h) hr h']

/-- Looking the rows through in order finds the smallest key that satisfies `p`. -/
theorem find?_least {t : AutoTable ρ key index} {p : ρ → Bool} {r : ρ}
    (h : t.rows.find? p = some r) : ∀ r' ∈ t.rows, p r' = true → key r ≤ key r' := by
  intro r' hr' hp
  obtain ⟨-, as, bs, he, has⟩ := List.find?_eq_some_iff_append.1 h
  rw [he] at hr'
  rcases List.mem_append.1 hr' with ha | hb
  · exact absurd hp (by simpa using has r' ha)
  · rcases List.mem_cons.1 hb with rfl | hb
    · exact le_rfl
    · have hs := t.sorted
      rw [he, List.pairwise_append, List.pairwise_cons] at hs
      exact le_of_lt (hs.2.1.1 r' hb)

end AutoTable

end Lib
