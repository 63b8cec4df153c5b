/-
  Programs over a transactional store.

  A program runs statements one after the other; each statement commits by
  itself, a transaction commits once or not at all.  Running a program yields
  its result, the final state and the states committed on the way, which are
  the states a failure or a crash can leave behind.  `Ok` is the big-step
  semantics of the runs that succeed, `Commits` that of the states on the way,
  `Keeps` the rule for invariants of both.
-/
import Ask.Lib.Fallible

namespace Lib

/-- What a program did: its result, the final state, and the committed states in order. -/
structure Outcome (σ ε α : Type) where
  result : Except ε α
  state : σ
  trace : List σ

/-- A program over states `σ` with errors `ε`. -/
def Tx (σ ε α : Type) : Type := σ → Outcome σ ε α

namespace Tx

variable {σ ε α β : Type}

/-- Nothing is done. -/
protected def pure (a : α) : Tx σ ε α := fun s => ⟨.ok a, s, []⟩

/-- One after the other; an error ends both, and what was done stays. -/
protected def bind (p : Tx σ ε α) (f : α → Tx σ ε β) : Tx σ ε β := fun s =>
  match p s with
  | ⟨.ok a, s', tr⟩ => ⟨(f a s').result, (f a s').state, tr ++ (f a s').trace⟩
  | ⟨.error e, s', tr⟩ => ⟨.error e, s', tr⟩

instance : Monad (Tx σ ε) where
  pure := Tx.pure
  bind := Tx.bind

/-- An error. -/
def fail (e : ε) : Tx σ ε α := fun s => ⟨.error e, s, []⟩

/-- Read the state. -/
def query (f : σ → Except ε α) : Tx σ ε α := fun s => ⟨f s, s, []⟩

/-- A statement: it commits its new state or fails and leaves the state alone. -/
def exec (f : σ → Except ε (α × σ)) : Tx σ ε α := fun s =>
  match f s with
  | .ok (a, s') => ⟨.ok a, s', [s']⟩
  | .error e => ⟨.error e, s, []⟩

theorem run_bind_ok {p : Tx σ ε α} {f : α → Tx σ ε β} {s t : σ} {a : α} {l : List σ}
    (h : p s = ⟨.ok a, t, l⟩) : (p >>= f) s = ⟨(f a t).result, (f a t).state, l ++ (f a t).trace⟩ := by
  show Tx.bind p f s = _
  rw [Tx.bind, h]

theorem run_bind_error {p : Tx σ ε α} {f : α → Tx σ ε β} {s t : σ} {e : ε} {l : List σ}
    (h : p s = ⟨.error e, t, l⟩) : (p >>= f) s = ⟨.error e, t, l⟩ := by
  show Tx.bind p f s = _
  rw [Tx.bind, h]

@[simp] theorem query_ok_bind {a : α} {f : α → Tx σ ε β} : (query fun _ => .ok a) >>= f = f a := rfl

/-- Run the statements as one: commit the last state, or roll back. -/
def transaction (p : Tx σ ε α) : Tx σ ε α := fun s =>
  match p s with
  | ⟨.ok a, s', _⟩ => ⟨.ok a, s', [s']⟩
  | ⟨.error e, _, _⟩ => ⟨.error e, s, []⟩

/-- Go on with the outcome as a value. -/
def attempt (p : Tx σ ε α) : Tx σ ε (Except ε α) := fun s => ⟨.ok (p s).result, (p s).state, (p s).trace⟩

/-- The same with another error. -/
def mapError (g : ε → ε) (p : Tx σ ε α) : Tx σ ε α := fun s =>
  ⟨(p s).result.mapError g, (p s).state, (p s).trace⟩

/-- Run `f` on each element. -/
def each (f : α → Tx σ ε Unit) : List α → Tx σ ε Unit
  | [] => pure ()
  | a :: as => do f a; each f as

/-! ## Successful runs -/

/-- The program succeeds from `s` with `a`, in `s'`. -/
def Ok (p : Tx σ ε α) (s : σ) (a : α) (s' : σ) : Prop := (p s).result = .ok a ∧ (p s).state = s'

variable {p : Tx σ ε α} {f : α → Tx σ ε β} {s s' : σ} {a : α} {b : β}

@[simp] theorem ok_pure : (pure a : Tx σ ε α).Ok s b' s' ↔ a = b' ∧ s = s' := by
  simp [Ok, pure, Tx.pure]

@[simp] theorem ok_bind : (p >>= f).Ok s b s' ↔ ∃ a s₁, p.Ok s a s₁ ∧ (f a).Ok s₁ b s' := by
  show Ok (Tx.bind p f) s b s' ↔ _
  unfold Ok Tx.bind
  rcases p s with ⟨_ | a, s₁, tr⟩
  · simp
  · simp

@[simp] theorem ok_fail {e : ε} : ¬(fail e : Tx σ ε α).Ok s a s' := by simp [Ok, fail]

@[simp] theorem ok_query {f : σ → Except ε α} : (query f).Ok s a s' ↔ f s = .ok a ∧ s = s' := Iff.rfl

@[simp] theorem ok_exec {f : σ → Except ε (α × σ)} : (exec f).Ok s a s' ↔ f s = .ok (a, s') := by
  unfold Ok exec
  rcases f s with e | ⟨a', s₁⟩ <;> simp

@[simp] theorem ok_transaction : (transaction p).Ok s a s' ↔ p.Ok s a s' := by
  unfold Ok transaction
  rcases p s with ⟨_ | a', s₁, tr⟩ <;> simp

@[simp] theorem ok_mapError {g : ε → ε} : (mapError g p).Ok s a s' ↔ p.Ok s a s' := by
  unfold Ok mapError
  rcases p s with ⟨_ | a', s₁, tr⟩ <;> simp [Except.mapError]

@[simp] theorem ok_attempt {x : Except ε α} :
    (attempt p).Ok s x s' ↔ (p s).result = x ∧ (p s).state = s' := by
  unfold Ok attempt
  rw [Except.ok.injEq]

theorem ok_each_nil {f : α → Tx σ ε Unit} {u : Unit} : (each f []).Ok s u s' ↔ s = s' := by
  simp [each]

theorem ok_each_cons {f : α → Tx σ ε Unit} {as : List α} {u : Unit} :
    (each f (a :: as)).Ok s u s' ↔ ∃ s₁, (f a).Ok s () s₁ ∧ (each f as).Ok s₁ () s' := by
  rw [each, ok_bind]
  exact ⟨fun ⟨_, s₁, h⟩ => ⟨s₁, h⟩, fun ⟨s₁, h⟩ => ⟨(), s₁, h⟩⟩

theorem ok_each_append {f : α → Tx σ ε Unit} {as bs : List α} {u : Unit} :
    (each f (as ++ bs)).Ok s u s' ↔ ∃ s₁, (each f as).Ok s () s₁ ∧ (each f bs).Ok s₁ () s' := by
  induction as generalizing s with
  | nil => simp [each]
  | cons a as ih =>
    rw [List.cons_append, ok_each_cons]
    constructor
    · rintro ⟨s₁, h1, h2⟩
      obtain ⟨s₂, h3, h4⟩ := ih.1 h2
      exact ⟨s₂, ok_each_cons.2 ⟨s₁, h1, h3⟩, h4⟩
    · rintro ⟨s₂, h, h4⟩
      obtain ⟨s₁, h1, h3⟩ := ok_each_cons.1 h
      exact ⟨s₁, h1, ih.2 ⟨s₂, h3, h4⟩⟩

/-- What every element's run preserves, the loop preserves. -/
theorem ok_each_invariant {f : α → Tx σ ε Unit} {I : σ → Prop} :
    ∀ {as : List α} {s : σ} {u : Unit}, (each f as).Ok s u s' →
      (∀ a ∈ as, ∀ s s₁, (f a).Ok s () s₁ → I s → I s₁) → I s → I s'
  | [], _, _, h, _, hs => ok_each_nil.1 h ▸ hs
  | a :: as, s, _, h, hf, hs => by
    obtain ⟨s₁, h1, h2⟩ := ok_each_cons.1 h
    exact ok_each_invariant h2 (fun a' ha' => hf a' (List.mem_cons_of_mem a ha'))
      (hf a List.mem_cons_self s s₁ h1 hs)

/-- What each element's run establishes, and the others' runs keep, holds of all at the end. -/
theorem ok_each_all {f : α → Tx σ ε Unit} {Q : α → σ → Prop} :
    ∀ {as : List α} {s : σ} {u : Unit}, (each f as).Ok s u s' →
      (∀ a ∈ as, ∀ s s₁, (f a).Ok s () s₁ → Q a s₁ ∧ ∀ b, Q b s → Q b s₁) → ∀ a ∈ as, Q a s'
  | [], _, _, _, _, _, ha => absurd ha List.not_mem_nil
  | a :: as, s, _, h, hf, b, hb => by
    obtain ⟨s₁, h1, h2⟩ := ok_each_cons.1 h
    have hrest : ∀ a' ∈ as, ∀ s s₁, (f a').Ok s () s₁ → Q a' s₁ ∧ ∀ b, Q b s → Q b s₁ :=
      fun a' ha' => hf a' (List.mem_cons_of_mem a ha')
    rcases List.mem_cons.1 hb with rfl | hb
    · exact ok_each_invariant h2 (fun a' ha' s s₁ hok => (hrest a' ha' s s₁ hok).2 b)
        (hf b List.mem_cons_self s s₁ h1).1
    · exact ok_each_all h2 hrest b hb

/-! ## Runs that fail -/

/-- The program fails from `s` with `e`. -/
def Fails (p : Tx σ ε α) (s : σ) (e : ε) : Prop := (p s).result = .error e

variable {e : ε}

@[simp] theorem fails_query {f : σ → Except ε α} : (query f).Fails s e ↔ f s = .error e := Iff.rfl

@[simp] theorem fails_bind :
    (p >>= f).Fails s e ↔ p.Fails s e ∨ ∃ a s₁, p.Ok s a s₁ ∧ (f a).Fails s₁ e := by
  show Fails (Tx.bind p f) s e ↔ _
  unfold Fails Ok Tx.bind
  rcases p s with ⟨_ | a, s₁, tr⟩ <;> simp

@[simp] theorem fails_transaction : (transaction p).Fails s e ↔ p.Fails s e := by
  unfold Fails transaction
  rcases p s with ⟨_ | a', s₁, tr⟩ <;> simp

@[simp] theorem fails_mapError {g : ε → ε} : (mapError g p).Fails s e ↔ ∃ e', p.Fails s e' ∧ g e' = e := by
  unfold Fails mapError
  rcases p s with ⟨_ | a', s₁, tr⟩ <;> simp [Except.mapError]

/-! ## Committed states -/

/-- The program commits the state `s'` on its way from `s`. -/
def Commits (p : Tx σ ε α) (s s' : σ) : Prop := s' ∈ (p s).trace

@[simp] theorem commits_pure : ¬(pure a : Tx σ ε α).Commits s s' := List.not_mem_nil

@[simp] theorem commits_fail {e : ε} : ¬(fail e : Tx σ ε α).Commits s s' := List.not_mem_nil

@[simp] theorem commits_query {f : σ → Except ε α} : ¬(query f).Commits s s' := List.not_mem_nil

@[simp] theorem commits_bind : (p >>= f).Commits s s' ↔
    p.Commits s s' ∨ ∃ a s₁, p.Ok s a s₁ ∧ (f a).Commits s₁ s' := by
  show Commits (Tx.bind p f) s s' ↔ _
  unfold Commits Ok Tx.bind
  rcases p s with ⟨_ | a, s₁, tr⟩
  · simp
  · simp

@[simp] theorem commits_exec {f : σ → Except ε (α × σ)} :
    (exec f).Commits s s' ↔ ∃ a, (exec f).Ok s a s' := by
  unfold Commits Ok exec
  rcases f s with e | ⟨a, s₁⟩
  · simp
  · simp [eq_comm]

@[simp] theorem commits_mapError {g : ε → ε} : (mapError g p).Commits s s' ↔ p.Commits s s' := Iff.rfl

/-- Every committed state, and the last one of a run that succeeds, satisfies `I` if the first
    one does. -/
def Keeps (I : σ → Prop) (p : Tx σ ε α) : Prop :=
  ∀ s s', I s → (p.Commits s s' ∨ ∃ a, p.Ok s a s') → I s'

variable {I : σ → Prop}

/-- What a program reaches after a part of it, the part reaches or leaves to the rest. -/
theorem reaches_bind (h : (p >>= f).Commits s s' ∨ ∃ b, (p >>= f).Ok s b s') :
    p.Commits s s' ∨ ∃ a s₁, p.Ok s a s₁ ∧ ((f a).Commits s₁ s' ∨ ∃ b, (f a).Ok s₁ b s') := by
  obtain h | ⟨b, h⟩ := h
  · exact (commits_bind.1 h).imp_right fun ⟨a, s₁, h1, h2⟩ => ⟨a, s₁, h1, .inl h2⟩
  · obtain ⟨a, s₁, h1, h2⟩ := ok_bind.1 h
    exact .inr ⟨a, s₁, h1, .inr ⟨b, h2⟩⟩

theorem keeps_pure : Keeps I (pure a : Tx σ ε α) := by
  rintro s s' hs (h | ⟨b, h⟩)
  · exact absurd h commits_pure
  · exact (ok_pure.1 h).2 ▸ hs

theorem keeps_query {f : σ → Except ε α} : Keeps I (query f) := by
  rintro s s' hs (h | ⟨b, h⟩)
  · exact absurd h commits_query
  · exact (ok_query.1 h).2 ▸ hs

theorem keeps_bind (hp : Keeps I p) (hf : ∀ a, Keeps I (f a)) : Keeps I (p >>= f) := by
  rintro s s' hs (h | ⟨b, h⟩)
  · obtain h | ⟨a, s₁, h1, h2⟩ := commits_bind.1 h
    · exact hp s s' hs (.inl h)
    · exact hf a s₁ s' (hp s s₁ hs (.inr ⟨a, h1⟩)) (.inl h2)
  · obtain ⟨a, s₁, h1, h2⟩ := ok_bind.1 h
    exact hf a s₁ s' (hp s s₁ hs (.inr ⟨a, h1⟩)) (.inr ⟨b, h2⟩)

theorem keeps_exec {f : σ → Except ε (α × σ)} (h : ∀ s a s', (exec f).Ok s a s' → I s → I s') :
    Keeps I (exec f) := by
  rintro s s' hs (h' | ⟨a, h'⟩)
  · obtain ⟨a, h'⟩ := commits_exec.1 h'
    exact h s a s' h' hs
  · exact h s a s' h' hs

theorem keeps_mapError {g : ε → ε} (hp : Keeps I p) : Keeps I (mapError g p) := fun s s' hs h =>
  hp s s' hs (h.imp commits_mapError.1 fun ⟨a, h⟩ => ⟨a, ok_mapError.1 h⟩)

theorem keeps_each {f : α → Tx σ ε Unit} : ∀ {as : List α}, (∀ a ∈ as, Keeps I (f a)) →
    Keeps I (each f as)
  | [], _ => keeps_pure
  | a :: _, h => keeps_bind (h a List.mem_cons_self) fun _ =>
      keeps_each fun a' ha' => h a' (List.mem_cons_of_mem a ha')

/-! ## Calls that end or are interrupted -/

/-- A call from `s` leaves `s'`: it ends there, well or with an error, or it is interrupted, before
    its first commit or right after it committed `s'`. -/
def Leaves (p : Tx σ ε α) (s s' : σ) : Prop := s' = s ∨ p.Commits s s' ∨ (p s).state = s'

theorem leaves_query {f : σ → Except ε α} (h : (query f).Leaves s s') : s' = s := by
  obtain rfl | h | rfl := h
  · rfl
  · exact absurd h commits_query
  · rfl

theorem leaves_bind (h : (p >>= f).Leaves s s') :
    p.Leaves s s' ∨ ∃ a s₁, p.Ok s a s₁ ∧ (f a).Leaves s₁ s' := by
  obtain rfl | h | h := h
  · exact .inl (.inl rfl)
  · exact (commits_bind.1 h).imp (fun h => .inr (.inl h)) fun ⟨a, s₁, h1, h2⟩ => ⟨a, s₁, h1, .inr (.inl h2)⟩
  · rcases hp : p s with ⟨_ | a, s₁, l⟩
    · rw [run_bind_error hp] at h
      exact .inl (.inr (.inr (by rw [hp]; exact h)))
    · rw [run_bind_ok hp] at h
      exact .inr ⟨a, s₁, by rw [Ok, hp]; exact ⟨rfl, rfl⟩, .inr (.inr h)⟩

/-- The last state is the first one or one of the committed ones. -/
def Traced (p : Tx σ ε α) : Prop := ∀ s, (p s).state = s ∨ p.Commits s (p s).state

theorem traced_pure : Traced (pure a : Tx σ ε α) := fun _ => .inl rfl

theorem traced_fail {e : ε} : Traced (fail e : Tx σ ε α) := fun _ => .inl rfl

theorem traced_query {f : σ → Except ε α} : Traced (query f) := fun _ => .inl rfl

theorem traced_exec {f : σ → Except ε (α × σ)} : Traced (exec f) := by
  intro s
  simp only [exec, Commits]
  rcases f s with e | ⟨a, s₁⟩
  · exact .inl rfl
  · exact .inr (List.mem_singleton.2 rfl)

theorem traced_mapError {g : ε → ε} (hp : Traced p) : Traced (mapError g p) := hp

theorem traced_bind (hp : Traced p) (hf : ∀ a, Traced (f a)) : Traced (p >>= f) := by
  intro s
  show (Tx.bind p f s).state = s ∨ (Tx.bind p f s).state ∈ (Tx.bind p f s).trace
  have hps := hp s
  simp only [Commits] at hps
  simp only [Tx.bind]
  generalize p s = o at hps ⊢
  rcases o with ⟨_ | a, s₁, tr⟩
  · exact hps
  · rcases hf a s₁ with h | h
    · rw [h]
      exact hps.imp_right (List.mem_append_left _)
    · exact .inr (List.mem_append_right tr h)

theorem traced_each {f : α → Tx σ ε Unit} (hf : ∀ a, Traced (f a)) : ∀ as : List α, Traced (each f as)
  | [] => traced_pure
  | a :: as => traced_bind (hf a) fun _ => traced_each hf as

/-- What the statements keep, a call keeps wherever it stops. -/
theorem Leaves.keeps (h : p.Leaves s s') (ht : Traced p) (hp : Keeps I p) (hs : I s) : I s' := by
  obtain rfl | h | rfl := h
  · exact hs
  · exact hp s s' hs (.inl h)
  · rcases ht s with h | h
    · rwa [h]
    · exact hp s _ hs (.inl h)

/-- The program commits once, when it succeeds, or not at all. -/
def Atomic (p : Tx σ ε α) : Prop := ∀ s s', p.Leaves s s' → s' = s ∨ ∃ a, p.Ok s a s'

theorem atomic_query {f : σ → Except ε α} : Atomic (query f) := by
  rintro s s' (rfl | h | rfl)
  · exact .inl rfl
  · exact absurd h commits_query
  · exact .inl rfl

theorem atomic_exec {f : σ → Except ε (α × σ)} : Atomic (exec f) := by
  rintro s s' (rfl | h | rfl)
  · exact .inl rfl
  · exact .inr (commits_exec.1 h)
  · exact (traced_exec s).imp_right commits_exec.1

theorem atomic_transaction : Atomic (transaction p) := by
  intro s s' h
  simp only [Leaves, Commits, transaction, Ok] at h ⊢
  generalize p s = o at h ⊢
  rcases o with ⟨_ | a, s₁, tr⟩
  · simpa [eq_comm] using h
  · simpa [eq_comm] using h

/-- What comes before the only commit reads. -/
theorem atomic_bind (hp : ∀ s, p s = ⟨(p s).result, s, []⟩) (hf : ∀ a, Atomic (f a)) :
    Atomic (p >>= f) := by
  intro s s' h
  have hs := hp s
  cases hres : (p s).result with
  | error e =>
    rw [hres] at hs
    simp only [Leaves, Commits, run_bind_error hs] at h
    exact .inl (by simpa [eq_comm] using h)
  | ok a =>
    rw [hres] at hs
    have hrun : (p >>= f) s = f a s := run_bind_ok hs
    have hl : (f a).Leaves s s' := by
      simpa only [Leaves, Commits, hrun] using h
    have hok : p.Ok s a s := by
      rw [Ok, hs]
      exact ⟨rfl, rfl⟩
    exact (hf a s s' hl).imp_right fun ⟨b, h⟩ => ⟨b, ok_bind.2 ⟨a, s, hok, h⟩⟩

theorem Atomic.state_of_fails (hp : Atomic p) {e : ε} (h : p.Fails s e) : (p s).state = s := by
  obtain hstate | ⟨a, hok⟩ := hp s (p s).state (.inr (.inr rfl))
  · exact hstate
  · exact absurd (h.symm.trans hok.1) (by simp)

theorem keeps_fail {e : ε} : Keeps I (fail e : Tx σ ε α) := by
  rintro s s' - (h | ⟨a, h⟩)
  · exact absurd h commits_fail
  · exact absurd h ok_fail

/-! ## Programs that succeed -/

/-- From `s` the program succeeds. -/
def Succeeds (p : Tx σ ε α) (s : σ) : Prop := ∃ a s', p.Ok s a s'

theorem succeeds_pure : Succeeds (pure a : Tx σ ε α) s := ⟨a, s, ok_pure.2 ⟨rfl, rfl⟩⟩

theorem succeeds_bind (hp : Succeeds p s) (hf : ∀ a s₁, p.Ok s a s₁ → Succeeds (f a) s₁) :
    Succeeds (p >>= f) s := by
  obtain ⟨a, s₁, h⟩ := hp
  obtain ⟨b, s', h'⟩ := hf a s₁ h
  exact ⟨b, s', ok_bind.2 ⟨a, s₁, h, h'⟩⟩

theorem succeeds_mapError {g : ε → ε} (hp : Succeeds p s) : Succeeds (mapError g p) s := by
  obtain ⟨a, s', h⟩ := hp
  exact ⟨a, s', ok_mapError.2 h⟩

theorem succeeds_transaction (hp : Succeeds p s) : Succeeds (transaction p) s := by
  obtain ⟨a, s', h⟩ := hp
  exact ⟨a, s', ok_transaction.2 h⟩

/-- The loop succeeds if each round does and keeps what the others need. -/
theorem succeeds_each {f : α → Tx σ ε Unit} : ∀ {as : List α} {s : σ},
    (∀ a ∈ as, ∀ s, I s → Succeeds (f a) s ∧ ∀ s₁, (f a).Ok s () s₁ → I s₁) → I s →
      Succeeds (each f as) s
  | [], _, _, _ => succeeds_pure
  | a :: as, s, hf, hs => by
    have ha := hf a List.mem_cons_self s hs
    refine succeeds_bind ha.1 ?_
    intro u s₁ h₁
    exact succeeds_each (fun a' ha' => hf a' (List.mem_cons_of_mem a ha')) (ha.2 s₁ h₁)

/-- A program has one outcome. -/
theorem Ok.unique {s₁ s₂ : σ} {a' : α} (h : p.Ok s a s₁) (h' : p.Ok s a' s₂) : a = a' ∧ s₁ = s₂ := by
  have ha := h.1.symm.trans h'.1
  cases ha
  exact ⟨rfl, h.2.symm.trans h'.2⟩

/-- After a program whose outcome is known. -/
theorem Ok.bind_iff {s₁ : σ} (h : p.Ok s a s₁) : (p >>= f).Ok s b s' ↔ (f a).Ok s₁ b s' := by
  rw [ok_bind]
  constructor
  · rintro ⟨a', s₂, h', hf⟩
    obtain ⟨rfl, rfl⟩ := h.unique h'
    exact hf
  · exact fun hf => ⟨a, s₁, h, hf⟩

theorem Ok.not_fails {s₁ : σ} {e : ε} (h : p.Ok s a s₁) : ¬p.Fails s e := by
  intro he
  cases h.1.symm.trans he

theorem Ok.fails_bind_iff {s₁ : σ} {e : ε} (h : p.Ok s a s₁) : (p >>= f).Fails s e ↔ (f a).Fails s₁ e := by
  rw [fails_bind, or_iff_right h.not_fails]
  constructor
  · rintro ⟨a', s₂, h', hf⟩
    obtain ⟨rfl, rfl⟩ := h.unique h'
    exact hf
  · exact fun hf => ⟨a, s₁, h, hf⟩

end Tx

end Lib
