/-
  Directory trees with symbolic links.

  A tree has a directory, a file, a link or nothing at each list of names.
  Resolution follows a path hop by hop and goes on with the target of each
  link it meets; what it arrives at is reached by names alone.
-/
import Mathlib.Tactic

namespace Lib

/-- A hop of a path: to an entry, to the directory itself, to its parent, or to the root. -/
inductive Hop (ν : Type) where
  | name (n : ν)
  | here
  | up
  | root
  deriving DecidableEq, Repr

/-- What an entry of the tree is. -/
inductive Node (ν β : Type) where
  | dir
  | file (content : β)
  | link (target : List (Hop ν))
  deriving DecidableEq

/-- What is at each list of names; an entry's parent is a directory. -/
structure FileTree (ν β : Type) where
  node : List ν → Option (Node ν β)
  root : node [] = some .dir
  parent : ∀ p n, node (p ++ [n]) ≠ none → node p = some .dir

namespace FileTree

theorem exists_mem_of_lookup {ν β : Type} [DecidableEq ν] {entries : List (List ν × Node ν β)} {p : List ν}
    (h : entries.lookup p ≠ none) : ∃ e ∈ entries, e.1 = p := by
  obtain ⟨found, hfound⟩ := Option.ne_none_iff_exists'.1 h
  obtain ⟨l₁, l₂, rfl, -⟩ := List.lookup_eq_some_iff.1 hfound
  exact ⟨(p, found), by simp, rfl⟩

/-- The tree of a list of entries. -/
def ofEntries {ν β : Type} [DecidableEq ν] (entries : List (List ν × Node ν β))
    (root : entries.lookup [] = some .dir)
    (parent : ∀ e ∈ entries, e.1 ≠ [] → entries.lookup e.1.dropLast = some .dir) : FileTree ν β where
  node p := entries.lookup p
  root := root
  parent p n h := by
    obtain ⟨e, he, hpath⟩ := exists_mem_of_lookup h
    have hp := parent e he (by rw [hpath]; simp)
    rwa [hpath, List.dropLast_concat] at hp

variable {ν β : Type} (t : FileTree ν β)

/-- Follow the hops from a directory; `expand` goes on where a link was met. -/
def follow (expand : List ν → List (Hop ν) → Option (List ν)) : List ν → List (Hop ν) → Option (List ν)
  | p, [] => some p
  | _, .root :: hops => follow expand [] hops
  | p, .here :: hops => follow expand p hops
  | p, .up :: hops => follow expand p.dropLast hops
  | p, .name n :: hops =>
    match t.node (p ++ [n]) with
    | none => none
    | some .dir => follow expand (p ++ [n]) hops
    | some (.file _) => if hops.isEmpty then some (p ++ [n]) else none
    | some (.link target) => expand p (target ++ hops)

/-- Resolve a path from a directory, through so many links at most. -/
def resolve : ℕ → List ν → List (Hop ν) → Option (List ν)
  | 0 => t.follow fun _ _ => none
  | links + 1 => t.follow (resolve links)

/-- What is at the end of a path, be it a link. -/
def lookup (links : ℕ) (p : List ν) (hops : List (Hop ν)) : Option (Node ν β) :=
  match hops.getLast? with
  | some (.name n) => (t.resolve links p hops.dropLast).bind fun dir => t.node (dir ++ [n])
  | _ => (t.resolve links p hops).bind t.node

/-- A directory or a file, not a link. -/
def Real (p : List ν) : Prop := t.node p = some .dir ∨ ∃ content, t.node p = some (.file content)

variable {t} {p q names : List ν} {hops : List (Hop ν)} {links : ℕ}
  {expand : List ν → List (Hop ν) → Option (List ν)}

theorem Real.ne_none (h : t.Real p) : t.node p ≠ none := by
  obtain h | ⟨content, h⟩ := h
  · rw [h]
    exact Option.some_ne_none _
  · rw [h]
    exact Option.some_ne_none _

/-- The way to an entry is through directories. -/
theorem dir_of_append (hne : names ≠ []) (h : t.node (p ++ names) ≠ none) : t.node p = some .dir := by
  induction names using List.reverseRecOn with
  | nil => exact absurd rfl hne
  | append_singleton names n ih =>
    rw [← List.append_assoc] at h
    have hdir := t.parent _ n h
    by_cases hnil : names = []
    · rwa [hnil, List.append_nil] at hdir
    · refine ih hnil ?_
      rw [hdir]
      exact Option.some_ne_none _

theorem dir_dropLast (h : t.node p = some .dir) : t.node p.dropLast = some .dir := by
  by_cases hnil : p = []
  · rwa [hnil] at h ⊢
  · refine dir_of_append (List.cons_ne_nil (p.getLast hnil) []) ?_
    rw [List.dropLast_append_getLast hnil, h]
    exact Option.some_ne_none _

theorem real_of_follow (hexp : ∀ p hops q, t.node p = some .dir → expand p hops = some q → t.Real q) :
    ∀ hops p q, t.node p = some .dir → t.follow expand p hops = some q → t.Real q := by
  intro hops
  induction hops with
  | nil =>
    rintro p q hp ⟨⟩
    exact .inl hp
  | cons hop hops ih =>
    intro p q hp h
    cases hop with
    | root => exact ih [] q t.root h
    | here => exact ih p q hp h
    | up => exact ih p.dropLast q (dir_dropLast hp) h
    | name n =>
      unfold follow at h
      split at h
      · cases h
      · exact ih _ q ‹_› h
      · split_ifs at h
        cases h
        exact .inr ⟨_, ‹_›⟩
      · exact hexp p _ q hp h

/-- Resolution arrives at a directory or a file. -/
theorem real_of_resolve (hp : t.node p = some .dir) (h : t.resolve links p hops = some q) : t.Real q := by
  induction links generalizing p hops q with
  | zero => exact real_of_follow (fun _ _ _ _ h => by cases h) hops p q hp h
  | succ links ih => exact real_of_follow (fun _ _ _ hp h => ih hp h) hops p q hp h

theorem resolve_eq_follow (t : FileTree ν β) (links : ℕ) : ∃ expand, t.resolve links = t.follow expand := by
  cases links with
  | zero => exact ⟨_, rfl⟩
  | succ links => exact ⟨_, rfl⟩

theorem follow_names (h : t.Real (p ++ names)) :
    t.follow expand p (names.map .name) = some (p ++ names) := by
  induction names generalizing p with
  | nil =>
    rw [List.append_nil]
    rfl
  | cons n names ih =>
    rw [List.append_cons] at h ⊢
    rw [List.map_cons, follow]
    by_cases hnil : names = []
    · subst hnil
      rw [List.append_nil] at h ⊢
      obtain h | ⟨content, h⟩ := h
      · rw [h]
        rfl
      · rw [h]
        rfl
    · rw [dir_of_append hnil h.ne_none]
      exact ih h

/-- From the root, the names of a directory or a file lead to it. -/
theorem resolve_names (h : t.Real names) :
    t.resolve links p (.root :: .here :: names.map .name) = some names := by
  obtain ⟨expand, hexpand⟩ := resolve_eq_follow t links
  rw [hexpand, follow, follow]
  exact follow_names (p := []) h

theorem resolve_root_here : t.resolve links p [.root, .here, .here] = some [] := by
  obtain ⟨expand, hexpand⟩ := resolve_eq_follow t links
  rw [hexpand]
  rfl

end FileTree

end Lib
