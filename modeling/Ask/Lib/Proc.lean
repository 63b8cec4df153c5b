/-
  Programs that ask their environment.

  A `Proc` is a result, or a request with a continuation for each answer.  What
  the answers are, and what a request does to the state, is a step relation
  the program knows nothing about, so that one program has sequential runs
  (`Runs`), runs interleaved with others, and runs whose accesses fail.
  `Sat` is its rely-guarantee logic: between two requests the others may do
  what the rely allows, and every request keeps the guarantee.
-/
import Mathlib.Tactic

namespace Lib

/-- A program that ends, or makes a call and goes on with the answer. -/
inductive Proc (Req : Type) (Ans : Req → Type) (α : Type) : Type
  | ret (a : α)
  | call (r : Req) (k : Ans r → Proc Req Ans α)

/-- What a program is judged by: how requests are answered, what the others may do between
    two of them, and what each request must keep. -/
structure Setting (σ Req : Type) (Ans : Req → Type) where
  step : σ → (r : Req) → Ans r → σ → Prop
  rely : σ → σ → Prop
  guar : σ → (r : Req) → Ans r → σ → Prop

namespace Proc

variable {Req : Type} {Ans : Req → Type} {σ α β ε : Type}

/-- One program after another. -/
protected def bind : Proc Req Ans α → (α → Proc Req Ans β) → Proc Req Ans β
  | .ret a, f => f a
  | .call r k, f => .call r fun a => (k a).bind f

/-- The result of a program that has ended. -/
def result? : Proc Req Ans α → Option α
  | .ret a => some a
  | .call _ _ => none

/-! ## Runs -/

variable {step : σ → (r : Req) → Ans r → σ → Prop}

/-- The program runs from the first state to the last, by itself. -/
inductive Runs (step : σ → (r : Req) → Ans r → σ → Prop) : Proc Req Ans α → σ → α → σ → Prop
  | ret (a : α) (s : σ) : Runs step (.ret a) s a s
  | call {r : Req} {k : Ans r → Proc Req Ans α} {s s₁ s₂ : σ} {a : Ans r} {b : α} :
      step s r a s₁ → Runs step (k a) s₁ b s₂ → Runs step (.call r k) s b s₂

theorem Runs.mono {step' : σ → (r : Req) → Ans r → σ → Prop} {p : Proc Req Ans α} {s s' : σ} {a : α}
    (h : Runs step p s a s') (himp : ∀ s r a s', step s r a s' → step' s r a s') :
    Runs step' p s a s' := by
  induction h with
  | ret a s => exact .ret a s
  | call h _ ih => exact .call (himp _ _ _ _ h) ih

@[simp] theorem runs_ret {a b : α} {s s' : σ} :
    Runs step (.ret a : Proc Req Ans α) s b s' ↔ a = b ∧ s = s' := by
  constructor
  · rintro ⟨⟩
    exact ⟨rfl, rfl⟩
  · rintro ⟨rfl, rfl⟩
    exact .ret a s

theorem runs_call {r : Req} {k : Ans r → Proc Req Ans α} {s s' : σ} {b : α} :
    Runs step (.call r k) s b s' ↔ ∃ a s₁, step s r a s₁ ∧ Runs step (k a) s₁ b s' := by
  constructor
  · rintro ⟨⟩
    exact ⟨_, _, ‹_›, ‹_›⟩
  · rintro ⟨a, s₁, hstep, hk⟩
    exact .call hstep hk

theorem runs_bind {p : Proc Req Ans α} {f : α → Proc Req Ans β} {s s' : σ} {b : β} :
    Runs step (p.bind f) s b s' ↔ ∃ a s₁, Runs step p s a s₁ ∧ Runs step (f a) s₁ b s' := by
  induction p generalizing s with
  | ret a => simp [Proc.bind]
  | call r k ih =>
    simp only [Proc.bind, runs_call, ih]
    constructor
    · rintro ⟨x, s₁, hstep, a, s₂, hk, hf⟩
      exact ⟨a, s₂, ⟨x, s₁, hstep, hk⟩, hf⟩
    · rintro ⟨a, s₂, ⟨x, s₁, hstep, hk⟩, hf⟩
      exact ⟨x, s₁, hstep, a, s₂, hk, hf⟩

/-- Run the program on the answers of an oracle, which is told how many requests came before. -/
def play (oracle : ℕ → σ → (r : Req) → Option (Ans r × σ)) :
    Proc Req Ans α → ℕ → σ → Option (α × σ)
  | .ret a, _, s => some (a, s)
  | .call r k, n, s => (oracle n s r).bind fun out => (k out.1).play oracle (n + 1) out.2

theorem runs_play {oracle : ℕ → σ → (r : Req) → Option (Ans r × σ)}
    (h : ∀ n s r out, oracle n s r = some out → step s r out.1 out.2) :
    ∀ {p : Proc Req Ans α} {n : ℕ} {s s' : σ} {a : α},
      p.play oracle n s = some (a, s') → Runs step p s a s'
  | .ret a, _, s, _, _, hp => by
    cases hp
    exact .ret a s
  | .call r k, n, s, _, _, hp => by
    obtain ⟨out, ho, hk⟩ := Option.bind_eq_some_iff.1 hp
    exact .call (h n s r out ho) (runs_play h hk)

/-- What every step of the run preserves holds at its end. -/
theorem Runs.invariant {p : Proc Req Ans α} {s s' : σ} {a : α} (h : Runs step p s a s')
    {I : σ → Prop} (hstep : ∀ s r a s', step s r a s' → I s → I s') (hs : I s) : I s' := by
  induction h with
  | ret => exact hs
  | call h _ ih => exact ih (hstep _ _ _ _ h hs)

/-! ## Rely and guarantee -/

variable {C : Setting σ Req Ans}

/-- From `s` on, the program keeps the guarantee of `C` and ends with `Q`. -/
def Sat (C : Setting σ Req Ans) : Proc Req Ans α → (α → σ → Prop) → σ → Prop
  | .ret a, Q, s => Q a s
  | .call r k, Q, s => ∀ s₁, C.rely s s₁ → ∀ a s₂, C.step s₁ r a s₂ →
      C.guar s₁ r a s₂ ∧ (k a).Sat C Q s₂

theorem Sat.mono {p : Proc Req Ans α} {Q Q' : α → σ → Prop} {s : σ} (h : p.Sat C Q s)
    (hQ : ∀ a s, Q a s → Q' a s) : p.Sat C Q' s := by
  induction p generalizing s with
  | ret a => exact hQ a s h
  | call r k ih =>
    intro s₁ h₁ a s₂ hstep
    exact ⟨(h s₁ h₁ a s₂ hstep).1, ih a (h s₁ h₁ a s₂ hstep).2⟩

theorem Sat.and {p : Proc Req Ans α} {Q Q' : α → σ → Prop} {s : σ} (h : p.Sat C Q s)
    (h' : p.Sat C Q' s) : p.Sat C (fun a s => Q a s ∧ Q' a s) s := by
  induction p generalizing s with
  | ret a => exact ⟨h, h'⟩
  | call r k ih =>
    intro s₁ h₁ a s₂ hstep
    obtain ⟨hguar, hk⟩ := h s₁ h₁ a s₂ hstep
    exact ⟨hguar, ih a hk (h' s₁ h₁ a s₂ hstep).2⟩

/-- What the rely allows, a program does not mind before its next request, nor its postcondition if
    that is stable. -/
theorem Sat.stable (htrans : ∀ {s s' s''}, C.rely s s' → C.rely s' s'' → C.rely s s'')
    {p : Proc Req Ans α} {Q : α → σ → Prop} {s s' : σ} (hQ : ∀ {a s s'}, C.rely s s' → Q a s → Q a s')
    (h : p.Sat C Q s) (hs : C.rely s s') : p.Sat C Q s' := by
  cases p with
  | ret a => exact hQ hs h
  | call r k => exact fun s₁ h₁ => h s₁ (htrans hs h₁)

/-- A program that has not ended does not mind what the rely allows. -/
theorem Sat.later (htrans : ∀ {s s' s''}, C.rely s s' → C.rely s' s'' → C.rely s s'')
    {p : Proc Req Ans α} {s s' : σ} (h : p.Sat C (fun _ _ => True) s) (hs : C.rely s s') :
    p.Sat C (fun _ _ => True) s' := h.stable htrans (fun _ _ => trivial) hs

theorem sat_bind {p : Proc Req Ans α} {f : α → Proc Req Ans β} {Q : β → σ → Prop} {s : σ} :
    (p.bind f).Sat C Q s ↔ p.Sat C (fun a s => (f a).Sat C Q s) s := by
  induction p generalizing s with
  | ret a => rfl
  | call r k ih =>
    simp only [Proc.bind, Sat]
    simp only [ih]

/-- A run keeps the guarantee at every step and ends with the postcondition. -/
theorem Runs.sat (hrefl : ∀ s, C.rely s s) (hstep : ∀ {s r a s'}, step s r a s' → C.step s r a s')
    {p : Proc Req Ans α} {Q : α → σ → Prop} {s s' : σ} {a : α} (h : Runs step p s a s')
    (hp : p.Sat C Q s) : Runs (fun s r a s' => step s r a s' ∧ C.guar s r a s') p s a s' ∧ Q a s' := by
  induction h with
  | ret a s => exact ⟨.ret a s, hp⟩
  | call hs _ ih =>
    obtain ⟨hguar, hk⟩ := hp _ (hrefl _) _ _ (hstep hs)
    obtain ⟨hrun, hQ⟩ := ih hk
    exact ⟨.call ⟨hs, hguar⟩ hrun, hQ⟩

/-! ## The requests a program makes -/

/-- Every request the program can make is in `P`. -/
def Calls (P : Req → Prop) : Proc Req Ans α → Prop
  | .ret _ => True
  | .call r k => P r ∧ ∀ a, (k a).Calls P

theorem calls_bind {P : Req → Prop} {p : Proc Req Ans α} {f : α → Proc Req Ans β} (hp : p.Calls P)
    (hf : ∀ a, (f a).Calls P) : (p.bind f).Calls P := by
  induction p with
  | ret a => exact hf a
  | call r k ih => exact ⟨hp.1, fun a => ih a (hp.2 a)⟩

theorem Calls.mono {P P' : Req → Prop} {p : Proc Req Ans α} (hp : p.Calls P) (h : ∀ r, P r → P' r) :
    p.Calls P' := by
  induction p with
  | ret a => trivial
  | call r k ih => exact ⟨h r hp.1, fun a => ih a (hp.2 a)⟩

/-- What the rely and every such request keep, the program keeps. -/
theorem Calls.sat {P : Req → Prop} {I : σ → Prop} {p : Proc Req Ans α} {s : σ} (hp : p.Calls P)
    (hrely : ∀ s s', C.rely s s' → I s → I s')
    (hstep : ∀ s r a s', P r → C.step s r a s' → I s → C.guar s r a s' ∧ I s') (hs : I s) :
    p.Sat C (fun _ => I) s := by
  induction p generalizing s with
  | ret a => exact hs
  | call r k ih =>
    intro s₁ h₁ a s₂ h₂
    obtain ⟨hguar, hs₂⟩ := hstep s₁ r a s₂ hp.1 h₂ (hrely s s₁ h₁ hs)
    exact ⟨hguar, ih a (hp.2 a) hs₂⟩

/-! ## The last request -/

/-- A program that ends well does so right after a request in `C`. -/
def EndsBy (C : Req → Prop) : Proc Req Ans (Except ε α) → Prop
  | .ret _ => True
  | .call r k => ∀ a, ((∃ b, k a = .ret (.ok b)) → C r) ∧ (k a).EndsBy C

theorem endsBy_bind {C : Req → Prop} {p : Proc Req Ans α} {f : α → Proc Req Ans (Except ε β)}
    (hf : ∀ a, (f a).EndsBy C) (hne : ∀ a b, f a ≠ .ret (.ok b)) : (p.bind f).EndsBy C := by
  induction p with
  | ret a => exact hf a
  | call r k ih =>
    intro a
    refine ⟨fun ⟨b, hb⟩ => ?_, ih a⟩
    dsimp only at hb
    cases hk : k a with
    | ret c => rw [hk] at hb; exact absurd hb (hne c b)
    | call r' k' => rw [hk] at hb; cases hb

end Proc

/-! ## Programs that may fail -/

/-- A program that ends with a value or an error. -/
def Task (Req : Type) (Ans : Req → Type) (ε α : Type) : Type := Proc Req Ans (Except ε α)

namespace Task

variable {Req : Type} {Ans : Req → Type} {σ α β ε : Type}

/-- One task after another; an error ends both. -/
protected def bind (p : Task Req Ans ε α) (f : α → Task Req Ans ε β) : Task Req Ans ε β :=
  Proc.bind p fun
    | .ok a => f a
    | .error e => .ret (.error e)

instance : Monad (Task Req Ans ε) where
  pure a := Proc.ret (.ok a)
  bind := Task.bind

/-- A task that is done already. -/
def ofExcept (x : Except ε α) : Task Req Ans ε α := Proc.ret x

instance : MonadLift (Except ε) (Task Req Ans ε) := ⟨ofExcept⟩

/-- A task that has failed already. -/
def fail (e : ε) : Task Req Ans ε α := Proc.ret (.error e)

/-- Make a request; its answer, whatever it is. -/
def ask (r : Req) : Task Req Ans ε (Ans r) := Proc.call r fun a => .ret (.ok a)

/-- Go on with the outcome of a program, a value or an error. -/
def andThen (p : Task Req Ans ε α) (f : Except ε α → Task Req Ans ε β) : Task Req Ans ε β :=
  Proc.bind p f

/-- The task with another error. -/
def mapError (g : ε → ε) (p : Task Req Ans ε α) : Task Req Ans ε α :=
  Proc.bind p fun x => .ret (x.mapError g)

/-- Run `f` on each element. -/
def each (f : α → Task Req Ans ε Unit) : List α → Task Req Ans ε Unit
  | [] => pure ()
  | a :: as => do f a; each f as

/-! ## Runs that end well -/

/-- The program runs from `s` to the value `a` in `s'`. -/
def Done (step : σ → (r : Req) → Ans r → σ → Prop) (p : Task Req Ans ε α) (s : σ) (a : α) (s' : σ) :
    Prop := Proc.Runs step p s (.ok a) s'

section Done
variable {step : σ → (r : Req) → Ans r → σ → Prop} {p : Task Req Ans ε α} {s s' : σ} {a : α} {b : β}

@[simp] theorem done_pure {a' : α} :
    Done step (pure a : Task Req Ans ε α) s a' s' ↔ a = a' ∧ s = s' := by
  refine Proc.runs_ret.trans ?_
  rw [Except.ok.injEq]

@[simp] theorem done_fail {e : ε} : ¬Done step (fail e : Task Req Ans ε α) s a s' := by
  intro h
  cases (Proc.runs_ret.1 h).1

@[simp] theorem done_ofExcept {x : Except ε α} :
    Done step (ofExcept x) s a s' ↔ x = .ok a ∧ s = s' := Proc.runs_ret

@[simp] theorem done_ask {r : Req} {a : Ans r} :
    Done step (ask r : Task Req Ans ε (Ans r)) s a s' ↔ step s r a s' := by
  refine Proc.runs_call.trans ?_
  simp

@[simp] theorem done_bind {f : α → Task Req Ans ε β} :
    Done step (p >>= f) s b s' ↔ ∃ a s₁, Done step p s a s₁ ∧ Done step (f a) s₁ b s' := by
  refine Proc.runs_bind.trans ?_
  constructor
  · rintro ⟨x, s₁, hp, hf⟩
    cases x with
    | ok a => exact ⟨a, s₁, hp, hf⟩
    | error e => cases (Proc.runs_ret.1 hf).1
  · rintro ⟨a, s₁, hp, hf⟩
    exact ⟨.ok a, s₁, hp, hf⟩

@[simp] theorem done_mapError {g : ε → ε} : Done step (p.mapError g) s a s' ↔ Done step p s a s' := by
  refine Proc.runs_bind.trans ?_
  constructor
  · rintro ⟨x, s₁, hp, hf⟩
    obtain ⟨hx, rfl⟩ := Proc.runs_ret.1 hf
    cases x with
    | ok a' =>
      cases hx
      exact hp
    | error e => cases hx
  · intro hp
    exact ⟨.ok a, s', hp, .ret _ _⟩

theorem done_andThen {f : Except ε α → Task Req Ans ε β} :
    Done step (p.andThen f) s b s' ↔ ∃ x s₁, Proc.Runs step p s x s₁ ∧ Done step (f x) s₁ b s' :=
  Proc.runs_bind

theorem Done.bind {f : α → Task Req Ans ε β} {s₁ s₂ : σ} (hp : Done step p s a s₁)
    (hf : Done step (f a) s₁ b s₂) : Done step (p >>= f) s b s₂ := done_bind.2 ⟨a, s₁, hp, hf⟩

theorem Done.mapError {g : ε → ε} (hp : Done step p s a s') : Done step (p.mapError g) s a s' :=
  done_mapError.2 hp

theorem Done.pure {a : α} {s : σ} : Done step (Pure.pure a : Task Req Ans ε α) s a s := done_pure.2 ⟨rfl, rfl⟩

theorem Done.ofExcept {x : Except ε α} {a : α} {s : σ} (h : x = .ok a) :
    Done step (Task.ofExcept x : Task Req Ans ε α) s a s := done_ofExcept.2 ⟨h, rfl⟩

/-- A loop runs when every round does and keeps what the rounds rely on. -/
theorem exists_done_each {f : α → Task Req Ans ε Unit} {I : σ → Prop} :
    ∀ {as : List α} {s : σ}, (∀ a ∈ as, ∀ s, I s → ∃ s', Done step (f a) s () s' ∧ I s') → I s →
      ∃ s', Done step (each f as) s () s' ∧ I s'
  | [], s, _, hs => ⟨s, done_pure.2 ⟨rfl, rfl⟩, hs⟩
  | a :: as, s, hf, hs => by
    obtain ⟨s₁, hdone, hs₁⟩ := hf a List.mem_cons_self s hs
    obtain ⟨s₂, hrest, hs₂⟩ := exists_done_each (fun a' ha' => hf a' (List.mem_cons_of_mem a ha')) hs₁
    exact ⟨s₂, done_bind.2 ⟨(), s₁, hdone, hrest⟩, hs₂⟩

end Done

/-! ## Rely and guarantee -/

/-- A task satisfies a postcondition of its result. -/
abbrev Sat (C : Setting σ Req Ans) (p : Task Req Ans ε α) (Q : Except ε α → σ → Prop) (s : σ) : Prop :=
  Proc.Sat C p Q s

variable {C : Setting σ Req Ans} {p : Task Req Ans ε α} {Q : Except ε α → σ → Prop} {s : σ}

/-- The rest of a program after an outcome: an error ends it. -/
def rest (C : Setting σ Req Ans) (f : α → Task Req Ans ε β) (Q : Except ε β → σ → Prop) :
    Except ε α → σ → Prop
  | .ok a, s => Sat C (f a) Q s
  | .error e, s => Q (.error e) s

@[simp] theorem rest_ok {f : α → Task Req Ans ε β} {Q : Except ε β → σ → Prop} {a : α} :
    rest C f Q (.ok a) s ↔ Sat C (f a) Q s := Iff.rfl

theorem sat_bind {f : α → Task Req Ans ε β} {Q : Except ε β → σ → Prop} :
    Sat C (p >>= f) Q s ↔ Sat C p (rest C f Q) s := by
  refine Proc.sat_bind.trans (Iff.of_eq (congrFun (congrArg (Proc.Sat C p) ?_) s))
  funext x s
  cases x <;> rfl

theorem sat_andThen {f : Except ε α → Task Req Ans ε β} {Q : Except ε β → σ → Prop} :
    Sat C (p.andThen f) Q s ↔ Sat C p (fun x s => Sat C (f x) Q s) s := Proc.sat_bind

theorem sat_mapError {g : ε → ε} :
    Sat C (p.mapError g) Q s ↔ Sat C p (fun x s => Q (x.mapError g) s) s := Proc.sat_bind

/-- A loop keeps what every round keeps. -/
theorem sat_each {f : α → Task Req Ans ε Unit} {Q : Except ε Unit → σ → Prop} :
    ∀ {as : List α} {s : σ},
      (∀ a ∈ as, ∀ s, Q (.ok ()) s → Sat C (f a) Q s) → Q (.ok ()) s → Sat C (each f as) Q s
  | [], _, _, hs => hs
  | a :: as, s, hf, hs => by
    rw [each, sat_bind]
    refine (hf a List.mem_cons_self s hs).mono ?_
    intro x s₁ hx
    cases x with
    | ok u => exact sat_each (fun a' ha' => hf a' (List.mem_cons_of_mem a ha')) hx
    | error e => exact hx

/-- A program that fails at last does not end well. -/
theorem endsBy_fail {C : Req → Prop} {γ : Type} (p : Task Req Ans ε γ) (e : ε) :
    Proc.EndsBy C (Task.bind p fun _ => (fail e : Task Req Ans ε α)) := by
  refine Proc.endsBy_bind (fun x => ?_) fun x b h => ?_
  · cases x <;> trivial
  · cases x <;> cases h

/-! ## The requests a fallible program makes -/

/-- A task only makes calls of a kind. -/
abbrev Calls (P : Req → Prop) (p : Task Req Ans ε α) : Prop := Proc.Calls P p

variable {P : Req → Prop}

theorem calls_pure {a : α} : Calls P (pure a : Task Req Ans ε α) := trivial

theorem calls_fail {e : ε} : Calls P (fail e : Task Req Ans ε α) := trivial

theorem calls_ofExcept {x : Except ε α} : Calls P (ofExcept x : Task Req Ans ε α) := trivial

theorem calls_ask {r : Req} (h : P r) : Calls P (ask r : Task Req Ans ε (Ans r)) :=
  ⟨h, fun _ => trivial⟩

theorem calls_bind {f : α → Task Req Ans ε β} (hp : Calls P p) (hf : ∀ a, Calls P (f a)) :
    Calls P (p >>= f) := by
  refine Proc.calls_bind hp ?_
  intro x
  cases x with
  | ok a => exact hf a
  | error e => trivial

theorem calls_andThen {f : Except ε α → Task Req Ans ε β} (hp : Calls P p)
    (hf : ∀ x, Calls P (f x)) : Calls P (p.andThen f) := Proc.calls_bind hp hf

theorem calls_mapError {g : ε → ε} (hp : Calls P p) : Calls P (p.mapError g) :=
  Proc.calls_bind hp fun _ => trivial

theorem calls_each {f : α → Task Req Ans ε Unit} : ∀ {as : List α}, (∀ a ∈ as, Calls P (f a)) →
    Calls P (each f as)
  | [], _ => calls_pure
  | a :: _, h => calls_bind (h a List.mem_cons_self) fun _ =>
      calls_each fun a' ha' => h a' (List.mem_cons_of_mem a ha')

end Task

end Lib
