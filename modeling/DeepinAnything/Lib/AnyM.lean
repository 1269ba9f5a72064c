import Mathlib.Data.List.Basic
import Mathlib.Tactic.Common

/-!
# Tests that can fail

A list is asked element by element, up to the first that passes the test. A test gives `none` when it goes
wrong, and then so does the search; what stands behind the first element that passes is not asked.
-/

namespace ListTest

variable {α : Type*} {p : α → Option Bool} {l : List α}

theorem anyM_cons_of_false {x : α} (h : p x = some false) : (x :: l).anyM p = l.anyM p := by
  rw [List.anyM_cons, h]
  rfl

theorem anyM_append_of_false {pre : List α} (h : ∀ x ∈ pre, p x = some false) :
    (pre ++ l).anyM p = l.anyM p := by
  induction pre with
  | nil => rfl
  | cons x pre ih =>
    rw [List.cons_append, anyM_cons_of_false (h x List.mem_cons_self)]
    exact ih fun y hy => h y (List.mem_cons_of_mem _ hy)

/-- The search ends with the first element that does not fail the test plainly. -/
theorem anyM_eq_iff {r : Option Bool} (hr : r ≠ some false) :
    l.anyM p = r ↔ ∃ pre x post, l = pre ++ x :: post ∧ (∀ y ∈ pre, p y = some false) ∧ p x = r := by
  constructor
  · intro h
    induction l with
    | nil => exact absurd h.symm hr
    | cons x l ih =>
      by_cases hx : p x = some false
      · rw [anyM_cons_of_false hx] at h
        obtain ⟨pre, y, post, rfl, hpre, hy⟩ := ih h
        exact ⟨x :: pre, y, post, rfl, List.forall_mem_cons.mpr ⟨hx, hpre⟩, hy⟩
      · refine ⟨[], x, l, rfl, List.forall_mem_nil _, ?_⟩
        rw [List.anyM_cons] at h
        rcases hpx : p x with _ | _ | _
        · rw [hpx] at h
          exact h
        · exact absurd hpx hx
        · rw [hpx] at h
          exact h
  · rintro ⟨pre, x, post, rfl, hpre, rfl⟩
    rw [anyM_append_of_false hpre, List.anyM_cons]
    rcases hpx : p x with _ | _ | _
    · rfl
    · exact absurd hpx hr
    · rfl

theorem anyM_eq_false_iff : l.anyM p = some false ↔ ∀ x ∈ l, p x = some false := by
  constructor
  · intro h x hx
    induction l with
    | nil => cases hx
    | cons y l ih =>
      have hy : p y = some false := by
        rw [List.anyM_cons] at h
        rcases hpy : p y with _ | _ | _
        · rw [hpy] at h
          cases h
        · rfl
        · rw [hpy] at h
          cases h
      rw [anyM_cons_of_false hy] at h
      rcases List.mem_cons.mp hx with rfl | hx
      · exact hy
      · exact ih h hx
  · intro h
    have := anyM_append_of_false (l := []) h
    rwa [List.append_nil] at this

/-- The search goes wrong at the first element where the test does, unless one before it passes. -/
theorem anyM_eq_none_iff :
    l.anyM p = none ↔ ∃ pre x post, l = pre ++ x :: post ∧ (∀ y ∈ pre, p y ≠ some true) ∧ p x = none := by
  constructor
  · intro h
    obtain ⟨pre, x, post, rfl, hpre, hx⟩ := (anyM_eq_iff (by simp)).mp h
    exact ⟨pre, x, post, rfl, fun y hy => by simp [hpre y hy], hx⟩
  · rintro ⟨pre, x, post, rfl, hpre, hx⟩
    induction pre with
    | nil => rw [List.nil_append, List.anyM_cons, hx]; rfl
    | cons y pre ih =>
      rw [List.cons_append, List.anyM_cons]
      rcases hy : p y with _ | _ | _
      · rfl
      · exact ih fun z hz => hpre z (List.mem_cons_of_mem _ hz)
      · exact absurd hy (hpre y List.mem_cons_self)

/-- Where it does not go wrong, the search says whether an element passes. -/
theorem anyM_eq_some (h : l.anyM p ≠ none) : ∃ v, l.anyM p = some v ∧ (v = true ↔ ∃ x ∈ l, p x = some true) := by
  obtain ⟨v, hv⟩ := Option.ne_none_iff_exists'.mp h
  refine ⟨v, hv, ?_⟩
  cases v with
  | false =>
    refine iff_of_false Bool.false_ne_true ?_
    rintro ⟨x, hx, htrue⟩
    rw [anyM_eq_false_iff.mp hv x hx] at htrue
    cases htrue
  | true =>
    obtain ⟨pre, x, post, rfl, -, hx⟩ := (anyM_eq_iff (by simp)).mp hv
    exact iff_of_true rfl ⟨x, by simp, hx⟩

/-- Elements that fail the test plainly can be left out. -/
theorem anyM_filter {q : α → Bool} (h : ∀ x ∈ l, q x = false → p x = some false) :
    (l.filter q).anyM p = l.anyM p := by
  induction l with
  | nil => rfl
  | cons x l ih =>
    have ih := ih fun y hy => h y (List.mem_cons_of_mem _ hy)
    rcases hx : q x with _ | _
    · rw [List.filter_cons_of_neg (by simp [hx]), anyM_cons_of_false (h x List.mem_cons_self hx), ih]
    · rw [List.filter_cons_of_pos hx, List.anyM_cons, List.anyM_cons, ih]

end ListTest
