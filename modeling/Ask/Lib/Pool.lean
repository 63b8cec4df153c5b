/-
  Programs over one shared state.

  The programs of a pool take their requests in any order; a new one starts at
  any time, and one that is killed takes no more.  The parallel rule is that
  of rely and guarantee: where what each request guarantees is what the others
  rely on, a program keeps in the pool what it satisfies alone.
-/
import Ask.Lib.Proc
import Ask.Lib.Run

namespace Lib

/-- The shared state, and what is left of each program; nothing of one that was killed. -/
structure Pool (σ Req : Type) (Ans : Req → Type) (α : Type) where
  state : σ
  procs : List (Option (Proc Req Ans α))

/-- What may happen to the runs: one starts, goes on, or is killed. -/
inductive PoolOp where
  | start
  | request (i : ℕ)
  | kill (i : ℕ)
  deriving DecidableEq, Repr

namespace Pool

variable {σ Req α : Type} {Ans : Req → Type}

/-- A program starts, one takes its next request, or one is killed. -/
inductive Step (step : σ → (r : Req) → Ans r → σ → Prop) (prog : Proc Req Ans α) :
    Pool σ Req Ans α → PoolOp → Pool σ Req Ans α → Prop
  | start {s : σ} {ps : List (Option (Proc Req Ans α))} : Step step prog ⟨s, ps⟩ .start ⟨s, ps ++ [some prog]⟩
  | request {s s' : σ} {ps : List (Option (Proc Req Ans α))} {i : ℕ} {r : Req}
      {k : Ans r → Proc Req Ans α} {a : Ans r} :
      ps[i]? = some (some (.call r k)) → step s r a s' →
      Step step prog ⟨s, ps⟩ (.request i) ⟨s', ps.set i (some (k a))⟩
  | kill {s : σ} {ps : List (Option (Proc Req Ans α))} {i : ℕ} :
      Step step prog ⟨s, ps⟩ (.kill i) ⟨s, ps.set i none⟩

/-! ## The parallel rule -/

variable {C : Setting σ Req Ans} {prog : Proc Req Ans α} {I : σ → Prop} {Q : α → σ → Prop}
  {pool pool' : Pool σ Req Ans α}

/-- What a request guarantees, the others rely on; what they rely on composes, and keeps `I` and the
    postcondition `Q`. -/
structure Parallel (C : Setting σ Req Ans) (I : σ → Prop) (Q : α → σ → Prop) : Prop where
  refl : ∀ s, C.rely s s
  trans : ∀ {s s' s''}, C.rely s s' → C.rely s' s'' → C.rely s s''
  guar : ∀ {s r a s'}, C.guar s r a s' → C.rely s s'
  keeps : ∀ {s s'}, C.rely s s' → I s → I s'
  stable : ∀ {a s s'}, C.rely s s' → Q a s → Q a s'

/-- The state satisfies `I`, and from it on every program its specification. -/
def Sound (C : Setting σ Req Ans) (I : σ → Prop) (Q : α → σ → Prop) (pool : Pool σ Req Ans α) : Prop :=
  I pool.state ∧ ∀ p, some p ∈ pool.procs → p.Sat C Q pool.state

/-- The other programs keep their specifications when the state changes as they expect. -/
theorem Sound.others (hC : Parallel C I Q) (h : Sound C I Q pool) {s' : σ}
    (hs : C.rely pool.state s') {p : Proc Req Ans α} (hp : some p ∈ pool.procs) : p.Sat C Q s' :=
  Proc.Sat.stable hC.trans hC.stable (h.2 p hp) hs

theorem Sound.step {op : PoolOp} (hC : Parallel C I Q) (hprog : ∀ s, I s → prog.Sat C Q s)
    (h : Step C.step prog pool op pool') (hpool : Sound C I Q pool) : Sound C I Q pool' := by
  cases h with
  | start =>
    refine ⟨hpool.1, fun p hp => ?_⟩
    rcases List.mem_append.1 hp with hp | hp
    · exact hpool.2 p hp
    · obtain rfl : p = prog := Option.some.inj (List.mem_singleton.1 hp)
      exact hprog _ hpool.1
  | @request s s' ps i r k a hi hs =>
    obtain ⟨hguar, hk⟩ := hpool.2 _ (List.mem_of_getElem? hi) s (hC.refl s) a s' hs
    refine ⟨hC.keeps (hC.guar hguar) hpool.1, fun p hp => ?_⟩
    obtain hold | hnew := List.mem_or_eq_of_mem_set hp
    · exact hpool.others hC (hC.guar hguar) hold
    · obtain rfl : p = k a := Option.some.inj hnew
      exact hk
  | kill =>
    refine ⟨hpool.1, fun p hp => ?_⟩
    obtain hold | hnew := List.mem_or_eq_of_mem_set hp
    · exact hpool.2 p hold
    · cases hnew

/-- Along every run of a pool the invariant holds and every program keeps its specification. -/
theorem sound_run {s : σ} {tr : List PoolOp} (hC : Parallel C I Q) (hprog : ∀ s, I s → prog.Sat C Q s)
    (h : Run (Step C.step prog) ⟨s, []⟩ tr pool) (hs : I s) : Sound C I Q pool :=
  h.invariant (fun _ _ _ _ hstep => Sound.step hC hprog hstep)
    ⟨hs, fun _ hp => absurd hp List.not_mem_nil⟩

/-- A program that has ended in a sound pool has met its postcondition. -/
theorem Sound.ended {a : α} (h : Sound C I Q pool) (hp : some (.ret a) ∈ pool.procs) : Q a pool.state :=
  h.2 _ hp

/-! ## Other states -/

/-- A run is one on the images of the states when every answered request is. -/
theorem run_map {τ : Type} {step : σ → (r : Req) → Ans r → σ → Prop} {step' : τ → (r : Req) → Ans r → τ → Prop}
    {f : σ → τ} (hf : ∀ s r a s', step s r a s' → step' (f s) r a (f s')) {tr : List PoolOp}
    (h : Run (Step step prog) pool tr pool') :
    Run (Step step' prog) ⟨f pool.state, pool.procs⟩ tr ⟨f pool'.state, pool'.procs⟩ := by
  induction h with
  | nil => exact .nil _
  | cons hstep _ ih =>
    refine .cons ?_ ih
    cases hstep with
    | start => exact .start
    | request hi hs => exact .request hi (hf _ _ _ _ hs)
    | kill => exact .kill

/-! ## Pools played -/

/-- Take the steps of a list on the answers of an oracle, which is told how many steps came before. -/
def play (oracle : ℕ → σ → (r : Req) → Option (Ans r × σ)) (prog : Proc Req Ans α) :
    List PoolOp → ℕ → Pool σ Req Ans α → Option (Pool σ Req Ans α)
  | [], _, pool => some pool
  | .start :: ops, n, ⟨s, ps⟩ => play oracle prog ops (n + 1) ⟨s, ps ++ [some prog]⟩
  | .kill i :: ops, n, ⟨s, ps⟩ => play oracle prog ops (n + 1) ⟨s, ps.set i none⟩
  | .request i :: ops, n, ⟨s, ps⟩ =>
    match ps[i]? with
    | some (some (.call r k)) => (oracle n s r).bind fun out =>
        play oracle prog ops (n + 1) ⟨out.2, ps.set i (some (k out.1))⟩
    | _ => none

theorem run_of_play {step : σ → (r : Req) → Ans r → σ → Prop}
    {oracle : ℕ → σ → (r : Req) → Option (Ans r × σ)}
    (horacle : ∀ n s r out, oracle n s r = some out → step s r out.1 out.2) :
    ∀ {ops : List PoolOp} {n : ℕ} {pool : Pool σ Req Ans α}, play oracle prog ops n pool = some pool' →
      Run (Step step prog) pool ops pool'
  | [], _, _, h => by
    cases h
    exact .nil _
  | .start :: ops, n, ⟨s, ps⟩, h => .cons .start (run_of_play horacle h)
  | .kill i :: ops, n, ⟨s, ps⟩, h => .cons .kill (run_of_play horacle h)
  | .request i :: ops, n, ⟨s, ps⟩, h => by
    rw [play] at h
    split at h
    · rename_i r k hi
      obtain ⟨out, hout, hrest⟩ := Option.bind_eq_some_iff.1 h
      exact .cons (.request hi (horacle n s r out hout)) (run_of_play horacle hrest)
    · cases h

end Pool

end Lib
