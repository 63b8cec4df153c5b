/-
  Sets whose elements have keys.

  Rewriting what a set holds under one key does not depend on what it holds
  under another, so that rewritings under different keys commute.  Seeding asks
  for a set of keys: it renews the elements that have one of them and adds a
  fresh one for each key that has none; asking twice is asking once for both.
-/
import Mathlib.Tactic

namespace Lib

/-! ## Rewriting under one key -/

section updateAt
variable {α κ : Type} {key : α → κ} {k k' : κ} {f g : Set α → Set α} {S : Set α} {x : α}

/-- The elements with the key `k`. -/
def Fiber (key : α → κ) (k : κ) (S : Set α) : Set α := {x ∈ S | key x = k}

/-- Replace the elements with the key `k` by what `f` makes of them. -/
def updateAt (key : α → κ) (k : κ) (f : Set α → Set α) (S : Set α) : Set α :=
  {x | (x ∈ S ∧ key x ≠ k) ∨ key x = k ∧ x ∈ f (Fiber key k S)}

theorem mem_updateAt :
    x ∈ updateAt key k f S ↔ (x ∈ S ∧ key x ≠ k) ∨ key x = k ∧ x ∈ f (Fiber key k S) := Iff.rfl

theorem mem_updateAt_of_ne (h : key x ≠ k) : x ∈ updateAt key k f S ↔ x ∈ S := by
  simp [mem_updateAt, h]

theorem mem_updateAt_self (h : key x = k) : x ∈ updateAt key k f S ↔ x ∈ f (Fiber key k S) := by
  simp [mem_updateAt, h]

theorem fiber_updateAt (hne : k ≠ k') : Fiber key k (updateAt key k' f S) = Fiber key k S := by
  ext x
  refine and_congr_left fun hx => ?_
  exact mem_updateAt_of_ne fun h => hne (hx.symm.trans h)

theorem updateAt_comm (hne : k ≠ k') :
    updateAt key k f (updateAt key k' g S) = updateAt key k' g (updateAt key k f S) := by
  ext x
  by_cases hk : key x = k
  · have hk' : key x ≠ k' := fun h => hne (hk.symm.trans h)
    rw [mem_updateAt_self hk, fiber_updateAt hne, mem_updateAt_of_ne hk', mem_updateAt_self hk]
  · by_cases hk' : key x = k'
    · rw [mem_updateAt_of_ne hk, mem_updateAt_self hk', mem_updateAt_self hk', fiber_updateAt hne.symm]
    · rw [mem_updateAt_of_ne hk, mem_updateAt_of_ne hk', mem_updateAt_of_ne hk', mem_updateAt_of_ne hk]

end updateAt

/-! ## Seeding -/

/-- What seeding knows of jobs `σ` with keys `κ`: how a job that is asked for again is renewed, and
    what a fresh one is. -/
structure Seeder (σ κ : Type) where
  key : σ → κ
  renew : σ → σ
  fresh : κ → σ
  key_renew : ∀ j, key (renew j) = key j
  key_fresh : ∀ k, key (fresh k) = k
  renew_renew : ∀ j, renew (renew j) = renew j
  renew_fresh : ∀ k, renew (fresh k) = fresh k

namespace Seeder

variable {σ κ : Type} (S : Seeder σ κ) {P Q : Set κ} {J : Set σ} {j : σ} {k : κ}

open Classical in
/-- A job after the keys were asked for. -/
noncomputable def touch (P : Set κ) (j : σ) : σ := if S.key j ∈ P then S.renew j else j

/-- The jobs after the keys were asked for. -/
def seed (P : Set κ) (J : Set σ) : Set σ :=
  {x | (∃ j ∈ J, x = S.touch P j) ∨ ∃ k ∈ P, x = S.fresh k ∧ ∀ j ∈ J, S.key j ≠ k}

variable {S}

theorem touch_of_mem (h : S.key j ∈ P) : S.touch P j = S.renew j := if_pos h

theorem touch_of_notMem (h : S.key j ∉ P) : S.touch P j = j := if_neg h

@[simp] theorem key_touch : S.key (S.touch P j) = S.key j := by
  unfold touch
  split_ifs
  · exact S.key_renew j
  · rfl

theorem touch_fresh : S.touch P (S.fresh k) = S.fresh k := by
  unfold touch
  split_ifs
  · exact S.renew_fresh k
  · rfl

theorem touch_touch : S.touch P (S.touch Q j) = S.touch (Q ∪ P) j := by
  by_cases hQ : S.key j ∈ Q
  · rw [touch_of_mem hQ, touch_of_mem (P := Q ∪ P) (.inl hQ)]
    by_cases hP : S.key j ∈ P
    · rw [touch_of_mem (by rwa [S.key_renew]), S.renew_renew]
    · rw [touch_of_notMem (by rwa [S.key_renew])]
  · rw [touch_of_notMem hQ]
    by_cases hP : S.key j ∈ P
    · rw [touch_of_mem hP, touch_of_mem (P := Q ∪ P) (.inr hP)]
    · rw [touch_of_notMem hP, touch_of_notMem (P := Q ∪ P) (not_or.2 ⟨hQ, hP⟩)]

/-- A key that was asked for, and no other, may get a job. -/
theorem exists_key_seed : (∃ x ∈ S.seed P J, S.key x = k) ↔ k ∈ P ∨ ∃ j ∈ J, S.key j = k := by
  constructor
  · rintro ⟨x, ⟨j, hj, rfl⟩ | ⟨k', hk', rfl, -⟩, hkey⟩
    · exact .inr ⟨j, hj, key_touch.symm.trans hkey⟩
    · rw [S.key_fresh] at hkey
      exact .inl (hkey ▸ hk')
  · intro h
    by_cases hJ : ∃ j ∈ J, S.key j = k
    · obtain ⟨j, hj, hkey⟩ := hJ
      exact ⟨_, .inl ⟨j, hj, rfl⟩, key_touch.trans hkey⟩
    · have hfree : ∀ j ∈ J, S.key j ≠ k := fun j hj hkey => hJ ⟨j, hj, hkey⟩
      exact ⟨_, .inr ⟨k, h.resolve_right hJ, rfl, hfree⟩, S.key_fresh k⟩

/-- Asking twice is asking once for all. -/
theorem seed_seed : S.seed P (S.seed Q J) = S.seed (Q ∪ P) J := by
  ext x
  constructor
  · rintro (⟨_, ⟨j, hj, rfl⟩ | ⟨k, hk, rfl, hfree⟩, rfl⟩ | ⟨k, hk, rfl, hfree⟩)
    · exact .inl ⟨j, hj, touch_touch⟩
    · rw [touch_fresh]
      exact .inr ⟨k, .inl hk, rfl, hfree⟩
    · refine .inr ⟨k, .inr hk, rfl, ?_⟩
      intro j hj hkey
      obtain ⟨x, hx, hkx⟩ := (exists_key_seed (P := Q)).2 (.inr ⟨j, hj, hkey⟩)
      exact hfree x hx hkx
  · rintro (⟨j, hj, rfl⟩ | ⟨k, hk, rfl, hfree⟩)
    · exact .inl ⟨_, .inl ⟨j, hj, rfl⟩, touch_touch.symm⟩
    · by_cases hQ : k ∈ Q
      · exact .inl ⟨_, .inr ⟨k, hQ, rfl, hfree⟩, touch_fresh.symm⟩
      · refine .inr ⟨k, hk.resolve_left hQ, rfl, ?_⟩
        intro x hx hkey
        obtain h | ⟨j, hj, hkj⟩ := exists_key_seed.1 ⟨x, hx, hkey⟩
        · exact hQ h
        · exact hfree j hj hkj

end Seeder

end Lib
