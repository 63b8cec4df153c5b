/-
  The best entries of groups, and of sorted lists.

  In a list whose entries come in the order `r`, the first entry of each group
  is the group's best one.  A prefix of the list decides which groups come
  first, and shows enough of them when no group has many entries.
-/
import Mathlib.Tactic

namespace Lib

variable {α δ : Type} [DecidableEq δ]

/-- The first entry of each group. -/
def firsts (group : α → δ) (l : List α) : List α :=
  l.foldl (fun acc a => if group a ∈ acc.map group then acc else acc ++ [a]) []

variable {group : α → δ} {l l' : List α} {a b : α} {d : δ} {r : α → α → Prop} {m n : ℕ}

theorem firsts_append_singleton (l : List α) (a : α) : firsts group (l ++ [a]) =
    if group a ∈ (firsts group l).map group then firsts group l else firsts group l ++ [a] := by
  unfold firsts
  rw [List.foldl_append]
  rfl

theorem firsts_sublist (l : List α) : (firsts group l).Sublist l := by
  induction l using List.reverseRecOn with
  | nil => exact .refl []
  | append_singleton l a ih =>
    rw [firsts_append_singleton]
    split_ifs
    · exact ih.trans (List.sublist_append_left l [a])
    · exact ih.append_right [a]

theorem mem_map_firsts : d ∈ (firsts group l).map group ↔ d ∈ l.map group := by
  induction l using List.reverseRecOn with
  | nil => rfl
  | append_singleton l a ih =>
    rw [firsts_append_singleton, List.map_append, List.mem_append, ← ih]
    split_ifs with h
    · rw [List.map_singleton, List.mem_singleton]
      exact ⟨.inl, fun hd => hd.elim id fun heq => heq ▸ h⟩
    · rw [List.map_append, List.mem_append]

/-- A group has one first entry. -/
theorem nodup_map_firsts (l : List α) : ((firsts group l).map group).Nodup := by
  induction l using List.reverseRecOn with
  | nil => exact .nil
  | append_singleton l a ih =>
    rw [firsts_append_singleton]
    split_ifs with h
    · exact ih
    · rw [List.map_append, List.nodup_append]
      refine ⟨ih, by simp, ?_⟩
      rintro d hd d' hd' rfl
      exact h (List.mem_singleton.1 hd' ▸ hd)

/-- The first entry of its group is found first. -/
theorem find?_of_mem_firsts (ha : a ∈ firsts group l) :
    l.find? (fun x => decide (group x = group a)) = some a := by
  induction l using List.reverseRecOn with
  | nil => exact absurd ha List.not_mem_nil
  | append_singleton l c ih =>
    rw [firsts_append_singleton] at ha
    split_ifs at ha with h
    · rw [List.find?_append, ih ha, Option.some_or]
    · rcases List.mem_append.1 ha with hal | hac
      · rw [List.find?_append, ih hal, Option.some_or]
      · rw [List.mem_singleton.1 hac]
        have hnone : l.find? (fun x => decide (group x = group c)) = none := by
          rw [List.find?_eq_none]
          intro x hx heq
          exact h (mem_map_firsts.2 (List.mem_map.2 ⟨x, hx, of_decide_eq_true heq⟩))
        rw [List.find?_append, hnone]
        simp

/-- The groups in the order of their first entries. -/
theorem map_firsts (l : List α) : (firsts group l).map group = (l.map group).eraseDups := by
  induction l using List.reverseRecOn with
  | nil => rfl
  | append_singleton l a ih =>
    rw [firsts_append_singleton, List.map_append, List.eraseDups_append, ← ih]
    split_ifs with h
    · have hseen : (l.map group).elem (group a) = true := List.elem_iff.2 (mem_map_firsts.1 h)
      simp only [List.map_singleton, List.removeAll, List.filter_singleton, hseen]
      simp
    · have hnew : (l.map group).elem (group a) = false :=
        Bool.eq_false_iff.2 fun hmem => h (mem_map_firsts.2 (List.elem_iff.1 hmem))
      simp only [List.map_singleton, List.removeAll, List.filter_singleton, hnew, List.map_append]
      rfl

/-- First entries, one group after the other. -/
theorem filterMap_firsts {β : Type} (f : α → β) (l : List α) (n : ℕ) :
    ((l.map group).eraseDups.take n).filterMap (fun d => (l.find? fun x => decide (group x = d)).map f) =
      ((firsts group l).take n).map f := by
  rw [← map_firsts, ← List.map_take, List.filterMap_map, ← List.filterMap_eq_map]
  refine List.filterMap_congr ?_
  intro a ha
  rw [Function.comp, find?_of_mem_firsts (List.mem_of_mem_take ha)]
  rfl

/-- Later entries add groups at the end. -/
theorem firsts_prefix_append (l l' : List α) : firsts group l <+: firsts group (l ++ l') := by
  induction l' using List.reverseRecOn with
  | nil => rw [List.append_nil]
  | append_singleton l' a ih =>
    rw [← List.append_assoc, firsts_append_singleton]
    split_ifs
    · exact ih
    · exact ih.trans (List.prefix_append _ [a])

theorem firsts_take_prefix (l : List α) (n : ℕ) : firsts group (l.take n) <+: firsts group l := by
  have h : firsts group (l.take n) <+: firsts group (l.take n ++ l.drop n) :=
    firsts_prefix_append (l.take n) (l.drop n)
  rwa [List.take_append_drop] at h

/-- A first entry comes before the others of its group. -/
theorem first_of_mem_firsts (hl : l.Pairwise r) (ha : a ∈ firsts group l) (hb : b ∈ l)
    (hab : group b = group a) : b = a ∨ r a b := by
  induction l using List.reverseRecOn with
  | nil => exact absurd hb List.not_mem_nil
  | append_singleton l c ih =>
    obtain ⟨hl, -, hc⟩ := List.pairwise_append.1 hl
    have hlast : ∀ x ∈ l, r x c := fun x hx => hc x hx c (List.mem_singleton.2 rfl)
    rw [firsts_append_singleton] at ha
    rcases List.mem_append.1 hb with hbl | hbc
    · split_ifs at ha with h
      · exact ih hl ha hbl
      · rcases List.mem_append.1 ha with hal | hac
        · exact ih hl hal hbl
        · -- the group would have been seen before
          rw [← List.mem_singleton.1 hac] at h
          exact absurd (mem_map_firsts.2 (List.mem_map.2 ⟨b, hbl, hab⟩)) h
    · rw [List.mem_singleton.1 hbc] at hab ⊢
      split_ifs at ha with h
      · exact .inr (hlast a ((firsts_sublist l).subset ha))
      · rcases List.mem_append.1 ha with hal | hac
        · exact absurd (List.mem_map.2 ⟨a, hal, hab.symm⟩) h
        · exact .inl (List.mem_singleton.1 hac).symm

/-- The groups of `S` in the order of their best entries. -/
structure Ranking (r : α → α → Prop) (group : α → δ) (S : Set α) (R : List α) : Prop where
  sorted : R.Pairwise r
  nodup : (R.map group).Nodup
  best : ∀ a ∈ R, a ∈ S ∧ ∀ b ∈ S, group b = group a → b = a ∨ r a b
  complete : ∀ b ∈ S, ∃ a ∈ R, group a = group b

theorem ranking_firsts (hl : l.Pairwise r) : Ranking r group {a | a ∈ l} (firsts group l) where
  sorted := hl.sublist (firsts_sublist l)
  nodup := nodup_map_firsts l
  best _ ha := ⟨(firsts_sublist l).subset ha, fun _ hb => first_of_mem_firsts hl ha hb⟩
  complete b hb := List.mem_map.1 (mem_map_firsts.2 (List.mem_map.2 ⟨b, hb, rfl⟩))

/-! ## The closest names -/

section closest
variable {β D : Type} {name : α → β} {value : α → D} {S : Set α} {R : List α}

/-- Names found with their distances: each once, the nearest first, and none that is left out is
    nearer than one of them. -/
structure Closest [LE D] (near : β → D → Prop) (found : List (β × D)) : Prop where
  nodup : (found.map Prod.fst).Nodup
  sorted : found.Pairwise fun x y => x.2 ≤ y.2
  each : ∀ x ∈ found, near x.1 x.2
  least : ∀ p d, near p d → p ∉ found.map Prod.fst → ∀ x ∈ found, x.2 ≤ d

omit [DecidableEq δ] in
/-- The first groups of a ranking are the closest, when a group's name tells it from the others and its
    distance is that of its best entry. -/
theorem Ranking.closest [Preorder D] (h : Ranking r group S R) (hr : ∀ a b, r a b → value a ≤ value b)
    (hname : ∀ a ∈ S, ∀ b ∈ S, name a = name b ↔ group a = group b) (n : ℕ) :
    Closest (fun p d => IsLeast {x | ∃ a ∈ S, name a = p ∧ value a = x} d)
      ((R.take n).map fun a => (name a, value a)) := by
  have hmem : ∀ {a}, a ∈ R.take n → a ∈ R := fun ha => List.mem_of_mem_take ha
  refine ⟨?_, ?_, ?_, ?_⟩
  · rw [List.map_map]
    have hgroups : (R.take n).Pairwise fun a b => group a ≠ group b :=
      (List.pairwise_map.1 h.nodup).sublist (List.take_sublist n R)
    refine List.pairwise_map.2 (hgroups.imp_of_mem fun ha hb hne heq => hne ?_)
    exact (hname _ (h.best _ (hmem ha)).1 _ (h.best _ (hmem hb)).1).1 heq
  · exact List.pairwise_map.2 ((h.sorted.sublist (List.take_sublist n R)).imp fun hab => hr _ _ hab)
  · rintro x hx
    obtain ⟨a, ha, rfl⟩ := List.mem_map.1 hx
    obtain ⟨haS, hbest⟩ := h.best a (hmem ha)
    refine ⟨⟨a, haS, rfl, rfl⟩, ?_⟩
    rintro _ ⟨b, hb, hba, rfl⟩
    rcases hbest b hb ((hname b hb a haS).1 hba) with rfl | hab
    · exact le_rfl
    · exact hr a b hab
  · rintro p d ⟨⟨b, hb, rfl, rfl⟩, -⟩ hout x hx
    obtain ⟨a, ha, rfl⟩ := List.mem_map.1 hx
    obtain ⟨c, hc, hcb⟩ := h.complete b hb
    obtain ⟨hcS, hbest⟩ := h.best c hc
    have hdrop : c ∈ R.drop n := by
      rw [← List.take_append_drop n R, List.mem_append] at hc
      refine hc.resolve_left fun htake => hout ?_
      refine List.mem_map.2 ⟨_, List.mem_map.2 ⟨c, htake, rfl⟩, ?_⟩
      exact (hname c hcS b hb).2 hcb
    have hsorted := h.sorted
    rw [← List.take_append_drop n R] at hsorted
    have hac : value a ≤ value c := hr a c ((List.pairwise_append.1 hsorted).2.2 a ha c hdrop)
    rcases hbest b hb hcb.symm with rfl | hcb'
    · exact hac
    · exact hac.trans (hr c b hcb')

end closest

/-! ## Counting groups -/

/-- Few entries in each group make many groups. -/
theorem length_le_mul_firsts (hcount : ∀ d, (l.map group).count d ≤ m) :
    l.length ≤ m * (firsts group l).length := by
  have hgroups : (l.map group).toFinset = ((firsts group l).map group).toFinset := by
    ext d
    rw [List.mem_toFinset, List.mem_toFinset, mem_map_firsts]
  have hcard : ((firsts group l).map group).toFinset.card = (firsts group l).length := by
    rw [List.toFinset_card_of_nodup (nodup_map_firsts l), List.length_map]
  calc l.length = (l.map group).length := (List.length_map group).symm
    _ = ∑ d ∈ (l.map group).toFinset, (l.map group).count d :=
      (List.sum_toFinset_count_eq_length _).symm
    _ ≤ (l.map group).toFinset.card • m := Finset.sum_le_card_nsmul _ _ m fun d _ => hcount d
    _ = m * (firsts group l).length := by rw [hgroups, hcard, smul_eq_mul, Nat.mul_comm]

/-- Where a group has `m` entries at most, the first `m * n` entries show `n` groups, or all. -/
theorem le_length_firsts_take (hcount : ∀ d, (l.map group).count d ≤ m) :
    min n (firsts group l).length ≤ (firsts group (l.take (m * n))).length := by
  rcases Nat.lt_or_ge (m * n) l.length with hlt | hge
  · have hfew : ∀ d, ((l.take (m * n)).map group).count d ≤ m := fun d =>
      (((List.take_sublist (m * n) l).map group).count_le d).trans (hcount d)
    have hlen := length_le_mul_firsts hfew
    have hall := length_le_mul_firsts hcount
    rw [List.length_take, Nat.min_eq_left hlt.le] at hlen
    have hm : 0 < m := by
      by_contra h
      obtain rfl : m = 0 := by omega
      omega
    exact (Nat.min_le_left ..).trans (Nat.le_of_mul_le_mul_left hlen hm)
  · rw [List.take_of_length_le hge]
    exact Nat.min_le_right ..

/-! ## The first entry of a stable sort -/

section sort
variable [DecidableRel r] {p : α → Bool}

theorem find?_orderedInsert_of_neg (ha : ¬p a = true) : (l.orderedInsert r a).find? p = l.find? p := by
  induction l with
  | nil => exact List.find?_cons_of_neg ha
  | cons c l ih =>
    rw [List.orderedInsert_cons]
    split_ifs
    · exact List.find?_cons_of_neg ha
    · rw [List.find?_cons, List.find?_cons, ih]

/-- An inserted entry is found unless one that goes strictly before it is. -/
theorem find?_orderedInsert (htrans : ∀ a b c, r a b → r b c → r a c) (hsorted : l.Pairwise r)
    (ha : p a = true) : (l.orderedInsert r a).find? p =
      some ((l.find? p).elim a fun b => if r a b then a else b) := by
  induction l with
  | nil => simp [ha]
  | cons c l ih =>
    obtain ⟨hc, hl⟩ := List.pairwise_cons.1 hsorted
    rw [List.orderedInsert_cons]
    split_ifs with hac
    · have hab : ∀ b, (c :: l).find? p = some b → r a b := by
        intro b hb
        rcases List.mem_cons.1 (List.mem_of_find?_eq_some hb) with rfl | hmem
        · exact hac
        · exact htrans a c b hac (hc b hmem)
      rw [List.find?_cons_of_pos ha]
      cases hfind : (c :: l).find? p with
      | none => rfl
      | some b => rw [Option.elim_some, if_pos (hab b hfind)]
    · by_cases hpc : p c = true
      · rw [List.find?_cons_of_pos hpc, List.find?_cons_of_pos hpc, Option.elim_some, if_neg hac]
      · rw [List.find?_cons_of_neg hpc, List.find?_cons_of_neg hpc, ih hl]

/-- What is found first in a stable sort: no entry goes before it, and it is the first of its rank. -/
theorem find?_insertionSort (htrans : ∀ a b c, r a b → r b c → r a c) (htotal : ∀ a b, r a b ∨ r b a)
    (h : (l.insertionSort r).find? p = some b) :
    ∃ before after, l = before ++ b :: after ∧ p b = true ∧
      (∀ y ∈ before, p y = true → ¬r y b) ∧ ∀ y ∈ after, p y = true → r b y := by
  have : IsTrans α r := ⟨htrans⟩
  have : Std.Total r := ⟨htotal⟩
  induction l generalizing b with
  | nil => cases h
  | cons a l ih =>
    rw [List.insertionSort_cons] at h
    by_cases hpa : p a = true
    · rw [find?_orderedInsert htrans (List.pairwise_insertionSort r l) hpa] at h
      cases hfind : (l.insertionSort r).find? p with
      | none =>
        rw [hfind] at h
        obtain rfl : a = b := Option.some.inj h
        refine ⟨[], l, rfl, hpa, by simp, fun y hy hpy => ?_⟩
        exact absurd hpy (List.find?_eq_none.1 hfind y ((List.mem_insertionSort r).2 hy))
      | some c =>
        rw [hfind, Option.elim_some] at h
        obtain ⟨before, after, rfl, hpc, hbefore, hafter⟩ := ih hfind
        split_ifs at h with hac
        · obtain rfl : a = b := Option.some.inj h
          refine ⟨[], before ++ c :: after, rfl, hpa, by simp, fun y hy hpy => ?_⟩
          refine htrans a c y hac ?_
          rcases List.mem_append.1 hy with hy | hy
          · exact (htotal c y).resolve_right (hbefore y hy hpy)
          · rcases List.mem_cons.1 hy with rfl | hy
            · exact (htotal y y).elim id id
            · exact hafter y hy hpy
        · obtain rfl : c = b := Option.some.inj h
          exact ⟨a :: before, after, rfl, hpc, List.forall_mem_cons.2 ⟨fun _ => hac, hbefore⟩, hafter⟩
    · rw [find?_orderedInsert_of_neg hpa] at h
      obtain ⟨before, after, rfl, hpb, hbefore, hafter⟩ := ih h
      exact ⟨a :: before, after, rfl, hpb,
        List.forall_mem_cons.2 ⟨fun hp => absurd hp hpa, hbefore⟩, hafter⟩

end sort

end Lib
