import Mathlib.Algebra.BigOperators.Intervals
import DeepinAnything.Lib.Loop

/-!
# Breadth-first search

A search with a queue over what `kids` gives for a node; it ends at the first node below the start that
is a goal. `level n` has the nodes that are `n` steps below the start. At every round the queue is what is
left of a level and the kids of what has been taken from it, so a goal is found at the least depth, and
an empty queue means that there is none.
-/

namespace Bfs

variable {α : Type*}

/-- The nodes `n` steps below the start. -/
def level (kids : α → List α) (s : α) : ℕ → List α
  | 0 => [s]
  | n + 1 => (level kids s n).flatMap kids

/-- One round of the search: the first goal among the kids of the node in front, or they are queued. -/
def round (kids : α → List α) (goal : α → Bool) : List α → List α ⊕ Option α
  | [] => .inr none
  | x :: queue =>
    match (kids x).find? goal with
    | some y => .inr (some y)
    | none => .inl (queue ++ kids x)

/-- The queue stands in level `d`: `done` has been taken from it, `rest` has not. -/
structure Frontier (kids : α → List α) (goal : α → Bool) (s : α) (d : ℕ) (done rest queue : List α) : Prop where
  level_eq : level kids s d = done ++ rest
  queue_eq : queue = rest ++ done.flatMap kids
  above : ∀ m < d, ∀ y ∈ level kids s (m + 1), goal y = false
  below : ∀ x ∈ done, ∀ y ∈ kids x, goal y = false

variable {kids : α → List α} {goal : α → Bool} {s : α} {d : ℕ} {done rest queue : List α}

theorem Frontier.start : Frontier kids goal s 0 [] [s] [s] := ⟨rfl, rfl, by simp, by simp⟩

/-- A queue that is not empty has the next node of its level in front. -/
theorem Frontier.front (h : Frontier kids goal s d done rest queue) (hne : queue ≠ []) :
    ∃ d' done' x rest', Frontier kids goal s d' done' (x :: rest') queue ∧
      (rest = x :: rest' ∧ d' = d ∧ done' = done ∨ rest = [] ∧ d' = d + 1 ∧ done' = []) := by
  cases rest with
  | cons x rest => exact ⟨d, done, x, rest, h, .inl ⟨rfl, rfl, rfl⟩⟩
  | nil =>
    -- the level is used up, and the queue is the next one
    obtain ⟨hlevel, rfl, habove, hbelow⟩ := h
    rw [List.append_nil] at hlevel
    rw [List.nil_append] at hne
    obtain ⟨x, rest, hrest⟩ := List.exists_cons_of_ne_nil hne
    refine ⟨d + 1, [], x, rest, ⟨?_, ?_, fun m hm y hy => ?_, by simp⟩, .inr ⟨rfl, rfl, rfl⟩⟩
    · rw [level, hlevel, hrest, List.nil_append]
    · rw [List.nil_append, hrest, List.flatMap_nil, List.append_nil]
    · rcases Nat.lt_succ_iff_lt_or_eq.mp hm with hm | rfl
      · exact habove m hm y hy
      · rw [level, hlevel] at hy
        obtain ⟨z, hz, hy⟩ := List.mem_flatMap.mp hy
        exact hbelow z hz y hy

/-- What one round does to the frontier. -/
theorem Frontier.round {x : α} {queue' : List α} (h : Frontier kids goal s d done (x :: rest) queue)
    (hround : Bfs.round kids goal queue = .inl queue') : Frontier kids goal s d (done ++ [x]) rest queue' := by
  obtain ⟨hlevel, rfl, habove, hbelow⟩ := h
  rw [List.cons_append, Bfs.round] at hround
  split at hround
  · cases hround
  · rename_i hfind
    obtain rfl := Sum.inl.inj hround
    refine ⟨by rw [hlevel, List.append_assoc, List.singleton_append], ?_, habove, fun z hz y hy => ?_⟩
    · rw [List.flatMap_append, List.flatMap_singleton, List.append_assoc]
    · rcases List.mem_append.mp hz with hz | hz
      · exact hbelow z hz y hy
      · obtain rfl := List.mem_singleton.mp hz
        exact Bool.eq_false_iff.mpr fun hgoal => absurd hgoal (List.find?_eq_none.mp hfind y hy)

/-- Every queue of a search has a frontier. -/
theorem exists_frontier {queue' : List α} (h : ∃ d done rest, Frontier kids goal s d done rest queue)
    (hround : round kids goal queue = .inl queue') : ∃ d done rest, Frontier kids goal s d done rest queue' := by
  obtain ⟨d, done, rest, h⟩ := h
  have hne : queue ≠ [] := by
    rintro rfl
    cases hround
  obtain ⟨d', done', x, rest', h', -⟩ := h.front hne
  exact ⟨d', done' ++ [x], rest', h'.round hround⟩

/-! ## What the search returns -/

/-- The search returns the first goal, at the least depth. -/
theorem goal_of_run {fuel : ℕ} {y : α} (h : Loop.run (round kids goal) fuel [s] = some (some y)) :
    ∃ d, y ∈ level kids s (d + 1) ∧ goal y ∧ ∀ m < d, ∀ z ∈ level kids s (m + 1), goal z = false := by
  obtain ⟨queue, ⟨d, done, rest, hfront⟩, hround⟩ := Loop.exists_last
    (fun queue => ∃ d done rest, Frontier kids goal s d done rest queue)
    (fun _ _ => exists_frontier) ⟨0, [], [s], .start⟩ h
  have hne : queue ≠ [] := by
    rintro rfl
    cases hround
  obtain ⟨d', done', x, rest', ⟨hlevel, rfl, habove, -⟩, -⟩ := hfront.front hne
  rw [List.cons_append, round] at hround
  split at hround
  · rename_i y' hfind
    obtain rfl : y' = y := Option.some.inj (Sum.inr.inj hround)
    refine ⟨d', ?_, List.find?_some hfind, habove⟩
    rw [level, hlevel]
    exact List.mem_flatMap.mpr ⟨x, by simp, List.mem_of_find?_eq_some hfind⟩
  · cases hround

theorem level_add_eq_nil {n : ℕ} (h : level kids s n = []) (m : ℕ) : level kids s (n + m) = [] := by
  induction m with
  | zero => exact h
  | succ m ih => rw [← Nat.add_assoc, level, ih, List.flatMap_nil]

/-- A search that comes back without a goal has seen that there is none. -/
theorem no_goal_of_run {fuel : ℕ} (h : Loop.run (round kids goal) fuel [s] = some none) (n : ℕ) {y : α}
    (hy : y ∈ level kids s (n + 1)) : goal y = false := by
  obtain ⟨queue, ⟨d, done, rest, hlevel, hqueue, habove, -⟩, hround⟩ := Loop.exists_last
    (fun queue => ∃ d done rest, Frontier kids goal s d done rest queue)
    (fun _ _ => exists_frontier) ⟨0, [], [s], .start⟩ h
  cases queue with
  | cons x queue =>
    rw [round] at hround
    split at hround <;> cases hround
  | nil =>
    obtain ⟨rfl, hkids⟩ := List.append_eq_nil_iff.mp hqueue.symm
    rw [List.append_nil] at hlevel
    by_cases hn : n < d
    · exact habove n hn y hy
    · -- no level follows the one that is used up
      obtain ⟨m, rfl⟩ := Nat.exists_eq_add_of_le (Nat.not_lt.mp hn)
      have hnil : level kids s (d + 1) = [] := by rw [level, hlevel, hkids]
      rw [Nat.add_right_comm, level_add_eq_nil hnil] at hy
      cases hy

theorem frontier_of_reaches (h : Loop.Reaches (round kids goal) [s] queue) :
    ∃ d done rest, Frontier kids goal s d done rest queue := by
  induction h with
  | refl => exact ⟨0, [], [s], .start⟩
  | tail _ hround ih => exact exists_frontier ih hround

/-- What is queued is below the start. -/
theorem mem_level_of_reaches (h : Loop.Reaches (round kids goal) [s] queue) {x : α} (hx : x ∈ queue) :
    ∃ n, x ∈ level kids s n := by
  obtain ⟨d, done, rest, hlevel, rfl, -, -⟩ := frontier_of_reaches h
  rcases List.mem_append.mp hx with hx | hx
  · exact ⟨d, by rw [hlevel]; exact List.mem_append_right _ hx⟩
  · obtain ⟨z, hz, hx⟩ := List.mem_flatMap.mp hx
    refine ⟨d + 1, List.mem_flatMap.mpr ⟨z, ?_, hx⟩⟩
    rw [hlevel]
    exact List.mem_append_left _ hz

/-! ## The end of the search -/

/-- With nothing left at some depth, the search ends. -/
theorem exists_run {N : ℕ} (hN : level kids s N = []) :
    ∃ fuel r, Loop.run (round kids goal) fuel [s] = some r := by
  -- the rounds to come: what is left of the level, and the levels behind it
  let ahead : ℕ → ℕ := fun d => ∑ m ∈ Finset.Ico (d + 1) N, (level kids s m).length
  let within : ℕ → List α → Prop := fun n queue =>
    ∃ d done rest, Frontier kids goal s d done rest queue ∧ n = rest.length + ahead d
  have hstart : within _ [s] := ⟨0, [], [s], .start, rfl⟩
  suffices hstep : ∀ n queue queue', Loop.Reaches (round kids goal) [s] queue → within n queue →
      round kids goal queue = .inl queue' → ∃ m < n, within m queue' from ⟨_, Loop.exists_run within hstart hstep⟩
  rintro n queue queue' - ⟨d, done, rest, hfront, rfl⟩ hround
  have hne : queue ≠ [] := by
    rintro rfl
    cases hround
  obtain ⟨d', done', x, rest', hfront', hcase⟩ := hfront.front hne
  refine ⟨_, ?_, d', done' ++ [x], rest', hfront'.round hround, rfl⟩
  rcases hcase with ⟨rfl, rfl, rfl⟩ | ⟨rfl, rfl, rfl⟩
  · simp
  · have hlevel := hfront'.level_eq
    have hlt : d + 1 < N := by
      by_contra hle
      obtain ⟨m, hm⟩ := Nat.exists_eq_add_of_le (Nat.not_lt.mp hle)
      rw [hm, level_add_eq_nil hN] at hlevel
      cases hlevel
    have hsum : ahead d = (level kids s (d + 1)).length + ahead (d + 1) := Finset.sum_eq_sum_Ico_succ_bot hlt _
    rw [hsum, hlevel]
    simp

end Bfs
