import Mathlib.Logic.Relation
import Mathlib.Tactic.Common

/-!
# Loops

A loop is given by what one round of it does to the state: it goes on with another state or returns.
`run` bounds the number of rounds, so that a loop without end is `none`. A loop returns when a
variant goes down in each round, and what it returns comes from a state its invariant holds of.
-/

namespace Loop

variable {σ ρ : Type*}

/-- At most `fuel` rounds of a loop: what it returns, if it does. -/
def run (round : σ → σ ⊕ ρ) : ℕ → σ → Option ρ
  | 0, _ => none
  | fuel + 1, s =>
    match round s with
    | .inl s' => run round fuel s'
    | .inr r => some r

/-- The loop comes from one state to the other. -/
abbrev Reaches (round : σ → σ ⊕ ρ) : σ → σ → Prop :=
  Relation.ReflTransGen fun s s' => round s = .inl s'

variable {round : σ → σ ⊕ ρ} {s s' : σ} {r : ρ}

theorem run_of_goes (fuel : ℕ) (h : round s = .inl s') : run round (fuel + 1) s = run round fuel s' := by
  rw [run, h]

theorem run_of_returns (fuel : ℕ) (h : round s = .inr r) : run round (fuel + 1) s = some r := by
  rw [run, h]

/-- More fuel gives the same. -/
theorem run_mono {fuel fuel' : ℕ} (hle : fuel ≤ fuel') (h : run round fuel s = some r) :
    run round fuel' s = some r := by
  induction fuel generalizing fuel' s with
  | zero => cases h
  | succ fuel ih =>
    obtain ⟨fuel', rfl⟩ : ∃ n, fuel' = n + 1 := ⟨fuel' - 1, by omega⟩
    rw [run] at h ⊢
    cases hround : round s with
    | inl s' =>
      rw [hround] at h
      exact ih (by omega) h
    | inr r' =>
      rw [hround] at h
      exact h

/-- The variant rule: `within n s` says that at most `n` more rounds follow the state `s`. -/
theorem exists_run (within : ℕ → σ → Prop) {n : ℕ} (hstart : within n s)
    (hround : ∀ n t t', Reaches round s t → within n t → round t = .inl t' → ∃ m < n, within m t') :
    ∃ r, run round (n + 1) s = some r := by
  suffices hgo : ∀ fuel n t, n < fuel → Reaches round s t → within n t → ∃ r, run round fuel t = some r from
    hgo (n + 1) n s (by omega) .refl hstart
  intro fuel
  induction fuel with
  | zero => exact fun n t h => absurd h (by omega)
  | succ fuel ih =>
    intro n t hn ht hwithin
    cases hgoes : round t with
    | inr r => exact ⟨r, run_of_returns fuel hgoes⟩
    | inl t' =>
      obtain ⟨m, hm, hwithin'⟩ := hround n t t' ht hwithin hgoes
      rw [run_of_goes fuel hgoes]
      exact ih m t' (by omega) (ht.tail hgoes) hwithin'

/-- The invariant rule: what a loop returns, it returns from a state of the invariant. -/
theorem exists_last (inv : σ → Prop) {fuel : ℕ} (hround : ∀ t t', inv t → round t = .inl t' → inv t')
    (hstart : inv s) (h : run round fuel s = some r) : ∃ t, inv t ∧ round t = .inr r := by
  induction fuel generalizing s with
  | zero => cases h
  | succ fuel ih =>
    rw [run] at h
    cases hgoes : round s with
    | inl s' =>
      rw [hgoes] at h
      exact ih (hround s s' hstart hgoes) h
    | inr r' =>
      rw [hgoes] at h
      exact ⟨s, hstart, hgoes.trans (congrArg _ (Option.some.inj h))⟩

end Loop
