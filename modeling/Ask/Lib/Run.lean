/-
  Runs of a labelled transition system.

  `Run step s tr s'` says that the labels `tr`, in order, lead from `s` to
  `s'`.  An invariant is checked on one step and then holds along every run
  (`Run.invariant`); `When C step` keeps the steps that meet a condition on
  the state they leave.
-/
import Mathlib.Tactic

namespace Lib

variable {σ Λ : Type*}

/-- The labels `tr` lead from the first state to the last. -/
inductive Run (step : σ → Λ → σ → Prop) : σ → List Λ → σ → Prop
  | nil (s : σ) : Run step s [] s
  | cons {s s' s'' : σ} {l : Λ} {tr : List Λ} :
      step s l s' → Run step s' tr s'' → Run step s (l :: tr) s''

/-- The steps that meet `C` in the state they leave. -/
def When (C : σ → Λ → Prop) (step : σ → Λ → σ → Prop) (s : σ) (l : Λ) (s' : σ) : Prop :=
  step s l s' ∧ C s l

namespace Run

variable {step : σ → Λ → σ → Prop} {s s' s'' : σ} {tr tr' : List Λ}

theorem split : ∀ {tr : List Λ} {s : σ}, Run step s (tr ++ tr') s'' →
    ∃ s', Run step s tr s' ∧ Run step s' tr' s''
  | [], s, h => ⟨s, .nil s, h⟩
  | _ :: _, _, .cons hs h => by
    obtain ⟨s', h1, h2⟩ := split h
    exact ⟨s', .cons hs h1, h2⟩

theorem append (h : Run step s tr s') (h' : Run step s' tr' s'') : Run step s (tr ++ tr') s'' := by
  induction h with
  | nil => exact h'
  | cons hs _ ih => exact .cons hs (ih h')

theorem split_cons {l : Λ} (h : Run step s (tr ++ l :: tr') s'') :
    ∃ s₁ s₂, Run step s tr s₁ ∧ step s₁ l s₂ ∧ Run step s₂ tr' s'' := by
  obtain ⟨s₁, h1, h2⟩ := split h
  cases h2 with
  | cons hs h2 => exact ⟨s₁, _, h1, hs, h2⟩

/-- What every step of the run preserves holds at its end. -/
theorem invariant {I : σ → Prop} (h : Run step s tr s')
    (hstep : ∀ s l s', l ∈ tr → step s l s' → I s → I s') (hs : I s) : I s' := by
  induction h with
  | nil => exact hs
  | cons h _ ih =>
    exact ih (fun s l s' hl => hstep s l s' (List.mem_cons_of_mem _ hl))
      (hstep _ _ _ (List.mem_cons_self) h hs)

/-- Where each step lowers a measure, it bounds the length of the runs. -/
theorem length_add_le {I : σ → Prop} {μ : σ → ℕ} (h : Run step s tr s')
    (hstep : ∀ s l s', step s l s' → I s → I s' ∧ μ s' < μ s) (hs : I s) :
    I s' ∧ tr.length + μ s' ≤ μ s := by
  induction h with
  | nil => exact ⟨hs, by simp⟩
  | cons h _ ih =>
    obtain ⟨hs₁, hlt⟩ := hstep _ _ _ h hs
    obtain ⟨hs', hle⟩ := ih hs₁
    refine ⟨hs', ?_⟩
    rw [List.length_cons]
    omega

/-- Other steps, which the run's labels make as well. -/
theorem mono_of_mem {step' : σ → Λ → σ → Prop} (h : Run step s tr s')
    (himp : ∀ s l s', l ∈ tr → step s l s' → step' s l s') : Run step' s tr s' := by
  induction h with
  | nil => exact .nil _
  | cons h _ ih =>
    exact .cons (himp _ _ _ List.mem_cons_self h)
      (ih fun s l s' hl => himp s l s' (List.mem_cons_of_mem _ hl))

theorem mono {step' : σ → Λ → σ → Prop} (h : Run step s tr s')
    (himp : ∀ s l s', step s l s' → step' s l s') : Run step' s tr s' :=
  h.mono_of_mem fun s l s' _ => himp s l s'

/-- A function that plays a list of labels, each of them by a step. -/
theorem of_play {next : σ → Λ → Option σ} {play : List Λ → σ → Option σ}
    (hnext : ∀ {s l s'}, next s l = some s' → step s l s') (hnil : ∀ s, play [] s = some s)
    (hcons : ∀ l tr s, play (l :: tr) s = (next s l).bind (play tr)) (h : play tr s = some s') :
    Run step s tr s' := by
  induction tr generalizing s with
  | nil =>
    rw [hnil] at h
    cases h
    exact .nil _
  | cons l tr ih =>
    rw [hcons] at h
    obtain ⟨s₁, h1, h2⟩ := Option.bind_eq_some_iff.1 h
    exact .cons (hnext h1) (ih h2)

/-- A run all of whose labels meet the condition in every state. -/
theorem when {C : σ → Λ → Prop} (h : Run step s tr s') (hc : ∀ l ∈ tr, ∀ s, C s l) :
    Run (When C step) s tr s' :=
  h.mono_of_mem fun s l _ hl hs => ⟨hs, hc l hl s⟩

end Run

end Lib
