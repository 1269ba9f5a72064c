import Mathlib.Data.List.Perm.Subperm
import DeepinAnything.FsBuf.SliceReads

/-!
# What the slices find (`parallelsearch_files`)

Without a limit the reply lists what the workers have found, slice after slice. A worker stops before the
end of its slice, and the next slice starts with the name behind the one at that end: a name that stands at
the end of a slice is in neither of the two.
-/

namespace DeepinAnything

open ByteMem Paging

variable {b : FsBuf}

namespace FsBuf

/-- What a worker without a limit finds in a slice. -/
def sliceFound (b : FsBuf) (comparator : Bytes → Bool) (part : ℕ × ℕ) : List ℕ :=
  (b.visits part.2 (part.2 - part.1) part.1).filter fun off => b.strAt off ≠ [] ∧ comparator (b.strAt off)

/-! ## Walks of any length -/

end FsBuf

/-- A walk along a chain comes to the items before its end. -/
theorem Chain.visits_eq {items : List Item} {off stop endPos fuel : ℕ} (h : Chain b off items stop)
    (hend : endPos ≤ stop) (hfuel : endPos ≤ off + fuel) :
    b.visits endPos fuel off = (items.filter fun x => x.off < endPos).map Item.off := by
  induction items generalizing off fuel with
  | nil =>
    obtain rfl : off = stop := h
    cases fuel with
    | zero => rfl
    | succ fuel => exact if_neg (Nat.not_lt.mpr hend)
  | cons x xs ih =>
    have hx : x.off = off := h.1
    have hlt : off < b.nextName off := h.2.2.2.1
    by_cases hin : off < endPos
    · obtain ⟨fuel, rfl⟩ := Nat.exists_eq_add_of_le' (show 1 ≤ fuel by omega)
      rw [FsBuf.visits, if_pos hin, ih h.2.2.2.2 (by omega),
        List.filter_cons_of_pos (by rw [hx]; exact decide_eq_true hin), List.map_cons, hx]
    · have hbehind : ∀ y ∈ x :: xs, ¬ decide (y.off < endPos) = true := fun y hy => by
        have := (h.range hy).1
        rw [decide_eq_true_eq]
        omega
      rw [List.filter_eq_nil_iff.mpr hbehind, List.map_nil]
      cases fuel with
      | zero => rfl
      | succ fuel => exact if_neg hin

variable {root : Bytes} {t : Tree}

namespace Represents

variable (h : Represents b root t)
include h

/-- A worker whose slice starts at an entry finds the entries before the end of its slice that match. -/
theorem matchesIn_sliceFound {part : ℕ × ℕ} (hstart : Boundary b t part.1) (hend : part.2 ≤ b.tail)
    (comparator : Bytes → Bool) :
    MatchesIn b t comparator part.1 part.2 (b.sliceFound comparator part) := by
  obtain ⟨pre, rest, hitems, hpre, hrest⟩ := h.searchable.chain.split hstart
  have hmem : ∀ off, off ∈ b.sliceFound comparator part ↔
      ∃ x ∈ rest, x.off = off ∧ off < part.2 ∧ x.Matches comparator := fun off => by
    rw [FsBuf.sliceFound, hrest.visits_eq hend (by omega)]
    simp only [List.mem_filter, List.mem_map, decide_eq_true_eq]
    constructor
    · rintro ⟨⟨x, ⟨hx, hlt⟩, rfl⟩, hmatch⟩
      rw [hrest.strAt hx] at hmatch
      exact ⟨x, hx, rfl, hlt, decide_eq_true hmatch⟩
    · rintro ⟨x, hx, rfl, hlt, hmatch⟩
      rw [hrest.strAt hx]
      exact ⟨⟨x, ⟨hx, hlt⟩, rfl⟩, of_decide_eq_true hmatch⟩
  refine ⟨?_, fun off => ?_⟩
  · rw [FsBuf.sliceFound, hrest.visits_eq hend (by omega)]
    exact (List.pairwise_map.mpr (hrest.sorted.sublist List.filter_sublist)).sublist List.filter_sublist
  · rw [hmem, h.matchAt_iff, hitems]
    constructor
    · rintro ⟨x, hx, rfl, hlt, hmatch⟩
      exact ⟨⟨x, List.mem_append_right _ hx, rfl, hmatch⟩, (hrest.range hx).1, hlt⟩
    · rintro ⟨⟨x, hx, rfl, hmatch⟩, hfrom, hlt⟩
      rcases List.mem_append.mp hx with hx | hx
      · have := (hpre.range hx).2
        omega
      · exact ⟨x, hx, rfl, hlt, hmatch⟩

end Represents

end DeepinAnything
