/-
  The topmost marked paths of a tree.

  A tree is given by the names right below each path.  A search with a stack
  collects the marked paths it comes to and does not go below them: what it has
  found and what is still on the stack lies apart, and above each of them
  nothing is marked.
-/
import Mathlib.Tactic

namespace Lib

variable {ν : Type} (kids : List ν → List ν) (mark : List ν → Bool)

/-- The nodes right below. -/
def children (p : List ν) : List (List ν) := (kids p).map fun n => p ++ [n]

/-- The search, the stack with its top first. -/
def topmostSearch : ℕ → List (List ν) → List (List ν) → Option (List (List ν))
  | _, [], found => some found
  | 0, _ :: _, _ => none
  | fuel + 1, p :: stack, found =>
    if mark p then topmostSearch fuel stack (found ++ [p])
    else topmostSearch fuel ((children kids p).reverse ++ stack) found

/-- The paths of the tree at and below `root`. -/
inductive Below (root : List ν) : List ν → Prop
  | refl : Below root root
  | child {p : List ν} {n : ν} : Below root p → n ∈ kids p → Below root (p ++ [n])

/-- Nothing from `root` down to `p`, itself left out, is marked. -/
def Clear (root p : List ν) : Prop := ∀ q, root <+: q → q <+: p → q ≠ p → mark q = false

/-- A marked node below the root with no marked node above it. -/
structure Topmost (root p : List ν) : Prop where
  below : Below kids root p
  marked : mark p = true
  clear : Clear mark root p

/-- Neither lies below the other. -/
def Apart (p q : List ν) : Prop := ¬p <+: q ∧ ¬q <+: p

/-- What the search keeps. -/
structure Frontier (root : List ν) (stack found : List (List ν)) : Prop where
  below : ∀ p ∈ stack ++ found, Below kids root p
  clear : ∀ p ∈ stack ++ found, Clear mark root p
  marked : ∀ p ∈ found, mark p = true
  apart : (stack ++ found).Pairwise Apart
  complete : ∀ p, Topmost kids mark root p → ∃ q ∈ stack ++ found, q <+: p

variable {kids mark} {root p q t t' rest : List ν} {n : ν} {stack found result : List (List ν)} {fuel : ℕ}

/-! ## Paths -/

theorem Apart.symm (h : Apart p q) : Apart q p := ⟨h.2, h.1⟩

theorem Below.isPrefix (h : Below kids root p) : root <+: p := by
  induction h with
  | refl => exact List.prefix_refl root
  | child _ _ ih => exact ih.trans (List.prefix_append _ _)

theorem Below.mem_kids (h : Below kids root (p ++ n :: rest)) (hp : root <+: p) : n ∈ kids p := by
  generalize hq : p ++ n :: rest = q at h
  induction h generalizing rest with
  | refl =>
    have hlen := hp.length_le
    rw [← hq, List.length_append, List.length_cons] at hlen
    omega
  | @child q m hbelow hm ih =>
    induction rest using List.reverseRecOn with
    | nil =>
      obtain ⟨rfl, hn⟩ := List.append_inj' hq rfl
      rwa [List.singleton_inj.1 hn]
    | append_singleton rest k _ =>
      rw [← List.cons_append, ← List.append_assoc] at hq
      exact ih (List.append_inj' hq rfl).1

theorem prefix_concat (h : q <+: p ++ [n]) (hne : q ≠ p ++ [n]) : q <+: p := by
  rw [List.prefix_concat_iff] at h
  exact h.resolve_left hne

theorem Clear.child (h : Clear mark root p) (hp : mark p = false) : Clear mark root (p ++ [n]) := by
  intro q hroot hq hne
  by_cases heq : q = p
  · rw [heq, hp]
  · exact h q hroot (prefix_concat hq hne) heq

/-! ## Topmost marked paths -/

theorem Topmost.unique (h : Topmost kids mark root t) (h' : Topmost kids mark root t')
    (ht : t <+: p) (ht' : t' <+: p) : t = t' := by
  by_contra hne
  rcases List.prefix_or_prefix_of_prefix ht ht' with hle | hle
  · exact Bool.false_ne_true ((h'.clear t h.below.isPrefix hle hne).symm.trans h.marked)
  · exact Bool.false_ne_true ((h.clear t' h'.below.isPrefix hle (Ne.symm hne)).symm.trans h'.marked)

/-- Above a path, at it or above, some marked path is the topmost. -/
theorem Below.exists_topmost (h : Below kids root p)
    (hmarked : ∃ q, root <+: q ∧ q <+: p ∧ mark q = true) :
    ∃ t, Topmost kids mark root t ∧ t <+: p := by
  induction h with
  | refl =>
    obtain ⟨q, hroot, hq, hm⟩ := hmarked
    obtain rfl : root = q := hroot.eq_of_length (Nat.le_antisymm hroot.length_le hq.length_le)
    exact ⟨root, ⟨.refl, hm, fun r hr hle hne => absurd (hle.eq_of_length
      (Nat.le_antisymm hle.length_le hr.length_le)) hne⟩, hq⟩
  | @child p n hbelow hn ih =>
    by_cases habove : ∃ q, root <+: q ∧ q <+: p ∧ mark q = true
    · obtain ⟨t, ht, hle⟩ := ih habove
      exact ⟨t, ht, hle.trans (List.prefix_append _ _)⟩
    · push Not at habove
      obtain ⟨q, hroot, hq, hm⟩ := hmarked
      have heq : q = p ++ [n] := by
        by_contra hne
        exact habove q hroot (prefix_concat hq hne) hm
      refine ⟨p ++ [n], ⟨.child hbelow hn, heq ▸ hm, ?_⟩, List.prefix_refl _⟩
      intro r hr hle hne
      exact Bool.eq_false_iff.2 (habove r hr (prefix_concat hle hne))

/-- The way down to a marked path goes through a child of each unmarked one above it. -/
theorem Topmost.exists_child (h : Topmost kids mark root t) (hroot : root <+: p) (hp : mark p = false)
    (hle : p <+: t) : ∃ n ∈ kids p, p ++ [n] <+: t := by
  obtain ⟨rest, rfl⟩ := hle
  cases rest with
  | nil =>
    have hmarked := h.marked
    rw [List.append_nil, hp] at hmarked
    cases hmarked
  | cons n rest =>
    exact ⟨n, h.below.mem_kids hroot, rest, by rw [List.append_assoc, List.singleton_append]⟩

/-! ## The search -/

theorem frontier_root : Frontier kids mark root [root] [] where
  below p hp := by
    rw [List.append_nil, List.mem_singleton] at hp
    exact hp ▸ .refl
  clear p hp q hroot hq hne := by
    rw [List.append_nil, List.mem_singleton] at hp
    subst hp
    exact absurd (hq.eq_of_length (Nat.le_antisymm hq.length_le hroot.length_le)) hne
  marked p hp := absurd hp List.not_mem_nil
  apart := by simp
  complete p hp := ⟨root, by simp, hp.below.isPrefix⟩

theorem Frontier.collect (h : Frontier kids mark root (p :: stack) found) (hp : mark p = true) :
    Frontier kids mark root stack (found ++ [p]) := by
  have hperm : (stack ++ (found ++ [p])).Perm ((p :: stack) ++ found) := by
    rw [← List.append_assoc, List.cons_append]
    exact List.perm_append_singleton p (stack ++ found)
  exact {
    below := fun q hq => h.below q (hperm.mem_iff.1 hq)
    clear := fun q hq => h.clear q (hperm.mem_iff.1 hq)
    marked := fun q hq => (List.mem_append.1 hq).elim (h.marked q) fun hq =>
      (List.mem_singleton.1 hq) ▸ hp
    apart := (hperm.pairwise_iff Apart.symm).2 h.apart
    complete := fun t ht =>
      let ⟨q, hq, hle⟩ := h.complete t ht
      ⟨q, hperm.mem_iff.2 hq, hle⟩ }

theorem apart_child (h : Apart p q) : Apart (p ++ [n]) q := by
  refine ⟨fun hle => h.1 ((List.prefix_append p [n]).trans hle), fun hle => ?_⟩
  by_cases heq : q = p ++ [n]
  · exact h.1 (heq ▸ List.prefix_append p [n])
  · exact h.2 (prefix_concat hle heq)

theorem pairwise_children (hnodup : (kids p).Nodup) : (children kids p).Pairwise Apart := by
  refine List.pairwise_map.2 (hnodup.imp ?_)
  intro m n hne
  have hsame : ∀ {m n : ν}, p ++ [m] <+: p ++ [n] → m = n := by
    intro m n hle
    have heq := hle.eq_of_length (by simp)
    exact List.singleton_inj.1 (List.append_cancel_left heq)
  exact ⟨fun hle => hne (hsame hle), fun hle => hne (hsame hle).symm⟩

theorem Frontier.expand (h : Frontier kids mark root (p :: stack) found) (hp : mark p = false)
    (hnodup : (kids p).Nodup) :
    Frontier kids mark root ((children kids p).reverse ++ stack) found := by
  have hbelow : Below kids root p := h.below p (by simp)
  have hclear : Clear mark root p := h.clear p (by simp)
  obtain ⟨hfirst, hothers⟩ := List.pairwise_cons.1 h.apart
  have hmem : ∀ q ∈ (children kids p).reverse ++ stack ++ found,
      (∃ n ∈ kids p, q = p ++ [n]) ∨ q ∈ stack ++ found := by
    intro q hq
    rw [List.append_assoc] at hq
    rcases List.mem_append.1 hq with hq | hq
    · obtain ⟨n, hn, rfl⟩ := List.mem_map.1 (List.mem_reverse.1 hq)
      exact .inl ⟨n, hn, rfl⟩
    · exact .inr hq
  refine ⟨?_, ?_, h.marked, ?_, ?_⟩
  · intro q hq
    obtain ⟨n, hn, rfl⟩ | hq := hmem q hq
    · exact .child hbelow hn
    · exact h.below q (List.mem_cons_of_mem p hq)
  · intro q hq
    obtain ⟨n, hn, rfl⟩ | hq := hmem q hq
    · exact hclear.child hp
    · exact h.clear q (List.mem_cons_of_mem p hq)
  · rw [List.append_assoc, List.pairwise_append]
    refine ⟨List.pairwise_reverse.2 ((pairwise_children hnodup).imp Apart.symm), hothers, ?_⟩
    intro q hq r hr
    obtain ⟨n, hn, rfl⟩ := List.mem_map.1 (List.mem_reverse.1 hq)
    exact apart_child (hfirst r hr)
  · intro t ht
    obtain ⟨q, hq, hle⟩ := h.complete t ht
    rcases List.mem_cons.1 hq with rfl | hq
    · obtain ⟨n, hn, hchild⟩ := ht.exists_child hbelow.isPrefix hp hle
      refine ⟨q ++ [n], ?_, hchild⟩
      rw [List.append_assoc]
      exact List.mem_append_left _ (List.mem_reverse.2 (List.mem_map.2 ⟨n, hn, rfl⟩))
    · refine ⟨q, ?_, hle⟩
      rw [List.append_assoc]
      exact List.mem_append_right _ hq

/-- With an empty stack, the topmost marked paths have been found. -/
theorem Frontier.mem_iff (h : Frontier kids mark root [] found) :
    p ∈ found ↔ Topmost kids mark root p := by
  constructor
  · intro hp
    exact ⟨h.below p hp, h.marked p hp, h.clear p hp⟩
  · intro hp
    obtain ⟨q, hq, hle⟩ := h.complete p hp
    rw [List.nil_append] at hq
    rwa [← Topmost.unique ⟨h.below q hq, h.marked q hq, h.clear q hq⟩ hp hle (List.prefix_refl p)]

theorem Frontier.nodup (h : Frontier kids mark root [] found) : found.Nodup := by
  refine List.Pairwise.imp ?_ h.apart
  rintro p q hpq rfl
  exact hpq.1 (List.prefix_refl p)

/-! ## Its end -/

/-- The paths of the tree that are still to be looked at. -/
def Ahead (kids : List ν → List ν) (root : List ν) (stack : List (List ν)) : Set (List ν) :=
  {p | Below kids root p ∧ ∃ q ∈ stack, q <+: p}

theorem Frontier.not_above (h : Frontier kids mark root (p :: stack) found) (hq : q ∈ stack) :
    ¬q <+: p :=
  ((List.pairwise_cons.1 h.apart).1 q (List.mem_append_left _ hq)).2

/-- A stack that leads nowhere else, and not to `p` again, has less ahead. -/
theorem Frontier.ncard_ahead_lt (h : Frontier kids mark root (p :: stack) found) {stack' : List (List ν)}
    (hfin : {p | Below kids root p}.Finite)
    (hsub : ∀ q ∈ stack', ∃ r ∈ p :: stack, r <+: q) (hout : ∀ q ∈ stack', ¬q <+: p) :
    (Ahead kids root stack').ncard < (Ahead kids root (p :: stack)).ncard := by
  have hle : Ahead kids root stack' ⊆ Ahead kids root (p :: stack) := by
    rintro t ⟨hbelow, q, hq, hqt⟩
    obtain ⟨r, hr, hrq⟩ := hsub q hq
    exact ⟨hbelow, r, hr, hrq.trans hqt⟩
  have hp : p ∈ Ahead kids root (p :: stack) :=
    ⟨h.below p (by simp), p, List.mem_cons_self, List.prefix_refl p⟩
  refine Set.ncard_lt_ncard ((Set.ssubset_iff_of_subset hle).2 ⟨p, hp, ?_⟩) (hfin.subset fun t ht => ht.1)
  rintro ⟨-, q, hq, hqp⟩
  exact hout q hq hqp

theorem Frontier.ncard_collect (h : Frontier kids mark root (p :: stack) found)
    (hfin : {p | Below kids root p}.Finite) :
    (Ahead kids root stack).ncard < (Ahead kids root (p :: stack)).ncard := by
  refine h.ncard_ahead_lt hfin ?_ fun q hq => h.not_above hq
  intro q hq
  exact ⟨q, List.mem_cons_of_mem p hq, List.prefix_refl q⟩

theorem Frontier.ncard_expand (h : Frontier kids mark root (p :: stack) found)
    (hfin : {p | Below kids root p}.Finite) :
    (Ahead kids root ((children kids p).reverse ++ stack)).ncard <
      (Ahead kids root (p :: stack)).ncard := by
  refine h.ncard_ahead_lt hfin ?_ ?_
  · intro q hq
    rcases List.mem_append.1 hq with hq | hq
    · obtain ⟨n, -, rfl⟩ := List.mem_map.1 (List.mem_reverse.1 hq)
      exact ⟨p, List.mem_cons_self, List.prefix_append p [n]⟩
    · exact ⟨q, List.mem_cons_of_mem p hq, List.prefix_refl q⟩
  · intro q hq hle
    rcases List.mem_append.1 hq with hq | hq
    · obtain ⟨n, -, rfl⟩ := List.mem_map.1 (List.mem_reverse.1 hq)
      have hlen := hle.length_le
      rw [List.length_append, List.length_singleton] at hlen
      omega
    · exact h.not_above hq hle

/-- A search of a finite tree ends, and keeps the invariant to its end. -/
theorem Frontier.run (hfin : {p | Below kids root p}.Finite) (hnodup : ∀ p, Below kids root p → (kids p).Nodup)
    (h : Frontier kids mark root stack found) (hfuel : (Ahead kids root stack).ncard ≤ fuel) :
    ∃ result, topmostSearch kids mark fuel stack found = some result ∧ Frontier kids mark root [] result := by
  induction fuel generalizing stack found with
  | zero =>
    cases stack with
    | nil => exact ⟨found, rfl, h⟩
    | cons p stack =>
      have hlt := h.ncard_collect hfin
      omega
  | succ fuel ih =>
    cases stack with
    | nil => exact ⟨found, rfl, h⟩
    | cons p stack =>
      rw [topmostSearch]
      cases hp : mark p with
      | true =>
        have hlt := h.ncard_collect hfin
        exact ih (h.collect hp) (by omega)
      | false =>
        have hlt := h.ncard_expand hfin
        exact ih (h.expand hp (hnodup p (h.below p (by simp)))) (by omega)

theorem topmostSearch_succ (h : topmostSearch kids mark fuel stack found = some result) :
    topmostSearch kids mark (fuel + 1) stack found = some result := by
  induction fuel generalizing stack found with
  | zero =>
    cases stack with
    | nil => exact h
    | cons p stack => cases h
  | succ fuel ih =>
    cases stack with
    | nil => exact h
    | cons p stack =>
      rw [topmostSearch] at h ⊢
      split_ifs at h ⊢
      · exact ih h
      · exact ih h

theorem topmostSearch_mono {fuel' : ℕ} (hle : fuel ≤ fuel')
    (h : topmostSearch kids mark fuel stack found = some result) :
    topmostSearch kids mark fuel' stack found = some result := by
  induction hle with
  | refl => exact h
  | step _ ih => exact topmostSearch_succ ih

/-- With fuel enough, the search of a finite tree finds the topmost marked paths, each once. -/
theorem topmostSearch_exact (hfin : {p | Below kids root p}.Finite)
    (hnodup : ∀ p, Below kids root p → (kids p).Nodup) :
    ∃ result, (∃ enough, ∀ fuel ≥ enough, topmostSearch kids mark fuel [root] [] = some result) ∧
      result.Nodup ∧ ∀ p, p ∈ result ↔ Topmost kids mark root p := by
  obtain ⟨result, hrun, hfront⟩ := frontier_root.run hfin hnodup (Nat.le_refl _)
  exact ⟨result, ⟨_, fun fuel hge => topmostSearch_mono hge hrun⟩, hfront.nodup, fun p => hfront.mem_iff⟩

end Lib
