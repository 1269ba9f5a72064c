import Mathlib.Data.List.Nodup

/-!
# The order of the entries of a list

`Before l x y` says that `x` stands somewhere before `y` in `l`. In a list without duplicates this is
a strict linear order on the entries, and a sublist inherits it; a queue that is cut, split or joined
keeps the order of what remains.
-/

namespace ListOrder

variable {α : Type*} {l l' l₁ l₂ : List α} {x y : α}

/-- `x` stands before `y` in the list. -/
def Before (l : List α) (x y : α) : Prop := [x, y].Sublist l

instance [DecidableEq α] (l : List α) (x y : α) : Decidable (Before l x y) :=
  inferInstanceAs (Decidable (List.Sublist _ _))

theorem Before.mono (h : Before l x y) (hl : l.Sublist l') : Before l' x y := List.Sublist.trans h hl

theorem Before.left_mem (h : Before l x y) : x ∈ l := h.subset (by simp)

theorem Before.right_mem (h : Before l x y) : y ∈ l := h.subset (by simp)

/-- Two entries of a list that is put together from two stand in one of them, or one in each. -/
theorem before_append :
    Before (l₁ ++ l₂) x y ↔ Before l₁ x y ∨ (x ∈ l₁ ∧ y ∈ l₂) ∨ Before l₂ x y := by
  constructor
  · intro h
    obtain ⟨a, b, hab, ha, hb⟩ := List.sublist_append_iff.mp h
    match a, hab with
    | [], hab => exact .inr (.inr (by rw [List.nil_append] at hab; rwa [Before, hab]))
    | [_], hab =>
      obtain ⟨rfl, rfl⟩ := List.cons.inj hab
      exact .inr (.inl ⟨List.singleton_sublist.mp ha, List.singleton_sublist.mp hb⟩)
    | [_, _], hab =>
      refine .inl ?_
      simp only [List.cons_append, List.nil_append, List.cons.injEq] at hab
      obtain ⟨rfl, rfl, -⟩ := hab
      exact ha
    | _ :: _ :: _ :: _, hab => simp at hab
  · rintro (h | ⟨hx, hy⟩ | h)
    · exact h.mono (List.sublist_append_left _ _)
    · exact (List.singleton_sublist.mpr hx).append (List.singleton_sublist.mpr hy)
    · exact h.mono (List.sublist_append_right _ _)

theorem before_cons {a : α} : Before (a :: l) x y ↔ x = a ∧ y ∈ l ∨ Before l x y := by
  have hnot : ¬ Before [a] x y := fun h => by
    have := List.Sublist.length_le h
    simp at this
  rw [← List.singleton_append, before_append]
  simp [hnot]

/-- Different entries stand in one order or the other. -/
theorem before_or (hx : x ∈ l) (hy : y ∈ l) (hne : x ≠ y) : Before l x y ∨ Before l y x := by
  induction l with
  | nil => simp at hx
  | cons a l ih =>
    rw [before_cons, before_cons]
    rcases List.mem_cons.mp hx with rfl | hx
    · exact .inl (.inl ⟨rfl, (List.mem_cons.mp hy).resolve_left fun h => hne h.symm⟩)
    · rcases List.mem_cons.mp hy with hya | hy
      · exact .inr (.inl ⟨hya, hx⟩)
      · exact (ih hx hy).imp .inr .inr

/-- Without duplicates the order is strict. -/
theorem Before.asymm (hl : l.Nodup) (h : Before l x y) : ¬ Before l y x := by
  induction l with
  | nil => exact fun h => by simpa using h.left_mem
  | cons a l ih =>
    obtain ⟨ha, hl⟩ := List.nodup_cons.mp hl
    rw [before_cons] at h ⊢
    rintro (⟨rfl, hx⟩ | h')
    · rcases h with ⟨rfl, -⟩ | h
      · exact ha hx
      · exact ha h.right_mem
    · rcases h with ⟨rfl, -⟩ | h
      · exact ha h'.right_mem
      · exact ih hl h h'

theorem Before.ne (hl : l.Nodup) (h : Before l x y) : x ≠ y := by
  rintro rfl
  exact h.asymm hl h

/-- What remains of a list keeps its order. -/
theorem Before.restrict (hl : l.Nodup) (hsub : l'.Sublist l) (h : Before l x y) (hx : x ∈ l')
    (hy : y ∈ l') : Before l' x y :=
  (before_or hx hy (h.ne hl)).resolve_right fun h' => h.asymm hl (h'.mono hsub)

end ListOrder
