/-
  Counting the rows of tables.

  `tally` counts the occurrences of each value; a set of keys is counted by
  the rows that have them, and disjoint classes of rows add up.
-/
import Ask.Lib.AutoTable

namespace Lib

/-! ## Values and their occurrences -/

section tally
variable {α : Type} [LinearOrder α]

/-- Each value once, in order, with the number of its occurrences. -/
def tally (l : List α) : List (α × ℕ) :=
  (l.dedup.insertionSort (· ≤ ·)).map fun a => (a, l.count a)

/-- The counts of all values are the length. -/
theorem sum_tally (l : List α) : ((tally l).map Prod.snd).sum = l.length := by
  rw [tally, List.map_map]
  have hperm : ((l.dedup.insertionSort (· ≤ ·)).map (Prod.snd ∘ fun a => (a, l.count a))).Perm
      (l.dedup.map fun a => l.count a) := (List.perm_insertionSort _ _).map _
  rw [hperm.sum_eq, List.sum_map_count_dedup_eq_length]

end tally

/-! ## Ones for the rows of a class -/

theorem sum_ones {ρ : Type} (p : ρ → Bool) : ∀ rows : List ρ,
    (rows.map fun r => if p r then (1 : ℤ) else 0).sum = rows.countP p
  | [] => rfl
  | r :: rows => by
    rw [List.map_cons, List.sum_cons, sum_ones p rows, List.countP_cons]
    split_ifs <;> simp [add_comm]

/-! ## Keys and their rows -/

namespace AutoTable

variable {ρ : Type} {key : ρ → ℤ} {ι : Type} {index : ρ → ι} {t : AutoTable ρ key index}

/-- The keys in use. -/
def keys (t : AutoTable ρ key index) : Finset ℤ := (t.rows.map key).toFinset

theorem mem_keys {k : ℤ} : k ∈ t.keys ↔ ∃ r ∈ t.rows, key r = k := by
  rw [keys, List.mem_toFinset, List.mem_map]

theorem card_keys : t.keys.card = t.rows.length := by
  have hnodup : (t.rows.map key).Nodup := List.pairwise_map.2 (t.sorted.imp fun h => ne_of_lt h)
  rw [keys, List.toFinset_card_of_nodup hnodup, List.length_map]

/-- A set of keys has as many elements as there are rows with them. -/
theorem ncard_rows {ks : Finset ℤ} {p : ρ → Prop}
    (h : ∀ k, k ∈ ks ↔ ∃ r ∈ t.rows, key r = k ∧ p r) : {r | r ∈ t.rows ∧ p r}.ncard = ks.card := by
  have himage : key '' {r | r ∈ t.rows ∧ p r} = ks := by
    ext k
    rw [Finset.mem_coe, h k]
    constructor
    · rintro ⟨r, ⟨hr, hp⟩, rfl⟩
      exact ⟨r, hr, rfl, hp⟩
    · rintro ⟨r, hr, rfl, hp⟩
      exact ⟨r, ⟨hr, hp⟩, rfl⟩
  have hinj : Set.InjOn key {r | r ∈ t.rows ∧ p r} := fun r hr r' hr' => eq_of_key hr.1 hr'.1
  rw [← Set.ncard_coe_finset, ← himage, hinj.ncard_image]

end AutoTable

end Lib
