import Mathlib.Algebra.Ring.Nat
import Mathlib.Tactic.Common

/-!
# Runs of a transition system

A system is given by what an action does to a state, `none` where the action cannot happen. `run` takes a list of
actions one after another. An invariant of the steps is one of the runs, and a rank that each step lowers bounds the
length of a run, also when some actions raise it, by what they raise it in all.
-/

namespace Steps

variable {σ α : Type*}

/-- The state after a list of actions, if they can happen. -/
def run (step : σ → α → Option σ) : σ → List α → Option σ
  | s, [] => some s
  | s, a :: acts => (step s a).bind (run step · acts)

variable {step : σ → α → Option σ} {s s' : σ} {acts : List α}

/-- The invariant rule. -/
theorem inv_of_run (inv : σ → Prop) (hinv : ∀ s a s', inv s → step s a = some s' → inv s') (hs : inv s)
    (h : run step s acts = some s') : inv s' := by
  induction acts generalizing s with
  | nil => exact Option.some.inj h ▸ hs
  | cons a acts ih =>
    obtain ⟨t, hstep, hrun⟩ := Option.bind_eq_some_iff.1 h
    exact ih (hinv s a t hs hstep) hrun

/-- The rank rule: each step takes one off the rank, but for what its action may add to it. -/
theorem length_add_rank_le (rank : σ → ℕ) (adds : α → ℕ)
    (hrank : ∀ s a s', step s a = some s' → rank s' + 1 ≤ rank s + adds a) (h : run step s acts = some s') :
    acts.length + rank s' ≤ rank s + (acts.map adds).sum := by
  induction acts generalizing s with
  | nil =>
    cases h
    simp
  | cons a acts ih =>
    obtain ⟨t, hstep, hrun⟩ := Option.bind_eq_some_iff.1 h
    have hone := hrank s a t hstep
    have hrest := ih hrun
    simp only [List.length_cons, List.map_cons, List.sum_cons]
    omega

end Steps
