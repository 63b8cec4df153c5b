/-
  Programs that always end well.

  A program works from a state when each of its requests has an answer, and
  whatever the answers are, it ends with a value.  This is total correctness:
  a run exists (`Works.done`) and no run fails (`Works.of_runs`); what the
  value and the last state are is said by `Task.Done`.
-/
import Ask.Lib.Proc

namespace Lib

variable {Req : Type} {Ans : Req → Type} {σ α β ε : Type} {step : σ → (r : Req) → Ans r → σ → Prop}

namespace Proc

/-- From `s` on, every request is answered, and the program ends with `Q`. -/
def Total (step : σ → (r : Req) → Ans r → σ → Prop) : Proc Req Ans α → (α → Prop) → σ → Prop
  | .ret a, Q, _ => Q a
  | .call r k, Q, s => (∃ a s₁, step s r a s₁) ∧ ∀ a s₁, step s r a s₁ → (k a).Total step Q s₁

theorem Total.exists_runs {p : Proc Req Ans α} {Q : α → Prop} {s : σ} (h : p.Total step Q s) :
    ∃ a s', Runs step p s a s' ∧ Q a := by
  induction p generalizing s with
  | ret a => exact ⟨a, s, .ret a s, h⟩
  | call r k ih =>
    obtain ⟨⟨a, s₁, hstep⟩, hk⟩ := h
    obtain ⟨b, s', hrun, hQ⟩ := ih a (hk a s₁ hstep)
    exact ⟨b, s', .call hstep hrun, hQ⟩

theorem Total.of_runs {p : Proc Req Ans α} {Q : α → Prop} {s s' : σ} {a : α} (h : p.Total step Q s)
    (hrun : Runs step p s a s') : Q a := by
  induction hrun with
  | ret => exact h
  | call hstep _ ih => exact ih (h.2 _ _ hstep)

/-- A program goes on where its first part has ended. -/
theorem total_bind {p : Proc Req Ans α} {f : α → Proc Req Ans β} {P : α → Prop} {Q : β → Prop} {s : σ}
    (hp : p.Total step P s) (hf : ∀ a s₁, Runs step p s a s₁ → P a → (f a).Total step Q s₁) :
    (p.bind f).Total step Q s := by
  induction p generalizing s with
  | ret a => exact hf a s (.ret a s) hp
  | call r k ih =>
    refine ⟨hp.1, fun a s₁ hstep => ih a (hp.2 a s₁ hstep) ?_⟩
    exact fun b s₂ hrun => hf b s₂ (.call hstep hrun)

end Proc

namespace Task

/-- From `s` on, every request is answered, and the program ends with a value. -/
def Works (step : σ → (r : Req) → Ans r → σ → Prop) (p : Task Req Ans ε α) (s : σ) : Prop :=
  Proc.Total step p (fun x => ∃ a, x = .ok a) s

variable {p : Task Req Ans ε α} {s s' : σ}

theorem Works.done (h : Works step p s) : ∃ a s', Done step p s a s' := by
  obtain ⟨x, s', hrun, a, rfl⟩ := Proc.Total.exists_runs h
  exact ⟨a, s', hrun⟩

theorem Works.of_runs {x : Except ε α} (h : Works step p s) (hrun : Proc.Runs step p s x s') :
    ∃ a, x = .ok a := by
  have htotal : Proc.Total step p (fun x => ∃ a, x = .ok a) s := h
  exact htotal.of_runs hrun

theorem works_pure {a : α} : Works step (pure a : Task Req Ans ε α) s := ⟨a, rfl⟩

theorem works_ofExcept {x : Except ε α} {a : α} (h : x = .ok a) :
    Works step (ofExcept x : Task Req Ans ε α) s := ⟨a, h⟩

theorem works_ask {r : Req} (h : ∃ a s₁, step s r a s₁) :
    Works step (ask r : Task Req Ans ε (Ans r)) s := ⟨h, fun a _ _ => ⟨a, rfl⟩⟩

theorem works_bind {f : α → Task Req Ans ε β} (hp : Works step p s)
    (hf : ∀ a s₁, Done step p s a s₁ → Works step (f a) s₁) : Works step (p >>= f) s := by
  refine Proc.total_bind hp ?_
  rintro x s₁ hrun ⟨a, rfl⟩
  exact hf a s₁ hrun

theorem works_andThen {f : Except ε α → Task Req Ans ε β} (hp : Works step p s)
    (hf : ∀ a s₁, Done step p s a s₁ → Works step (f (.ok a)) s₁) : Works step (p.andThen f) s := by
  refine Proc.total_bind hp ?_
  rintro x s₁ hrun ⟨a, rfl⟩
  exact hf a s₁ hrun

theorem works_mapError {g : ε → ε} (hp : Works step p s) : Works step (p.mapError g) s := by
  refine Proc.total_bind hp ?_
  rintro x s₁ - ⟨a, rfl⟩
  exact ⟨a, rfl⟩

end Task

end Lib
