import DeepinAnything.FsBuf.Slices

/-!
# What `parallelsearch_files` reads

Before it gives out the next slice, `parallelsearch_files` asks for the name behind the end of the last one,
also when that end is the tail. The threads themselves stay below the ends of their slices. This module
lists the places at which names are read, and says when all of them stand below the tail.
-/

namespace DeepinAnything

open ByteMem

namespace FsBuf

variable (b : FsBuf)

/-! ## The code -/

/-- The places that `search_thread` comes to without a limit. At each it takes the length of the name, and
then the name behind it; it compares the name if there is one. -/
def visits (endPos : ℕ) : ℕ → ℕ → List ℕ
  | 0, _ => []
  | fuel + 1, nameOff => if nameOff < endPos then nameOff :: visits endPos fuel (b.nextName nameOff) else []

/-- The name at a place, its terminator and the first byte of its tag stand below the tail. This is what
`next_name` reads, and `strlen` and the comparison of a name read a part of it. -/
def ReadsBelowTail (off : ℕ) : Prop := off + b.strlen off + 1 < b.tail

variable {b}

/-! ## Threads without a limit -/

/-- What a worker without a limit finds is what matches at the places it comes to. -/
theorem searchThreadLoop_eq (comparator : Bytes → Bool) (reqResults endPos : ℕ) {maxCount : ℤ}
    (hmax : maxCount ≤ 0) (fuel nameOff : ℕ) {done : List ℕ} {startPos : ℕ} :
    b.searchThreadLoop comparator reqResults endPos maxCount fuel nameOff
        ⟨done.length, done.take reqResults, startPos⟩ =
      ⟨(done ++ (b.visits endPos fuel nameOff).filter fun off => b.strAt off ≠ [] ∧ comparator (b.strAt off)).length,
        (done ++ (b.visits endPos fuel nameOff).filter fun off =>
          b.strAt off ≠ [] ∧ comparator (b.strAt off)).take reqResults, startPos⟩ := by
  induction fuel generalizing nameOff done with
  | zero => simp [searchThreadLoop, visits]
  | succ fuel ih =>
    rw [searchThreadLoop, visits]
    by_cases hend : nameOff < endPos
    swap
    · rw [if_neg hend, if_neg hend, List.filter_nil, List.append_nil]
    rw [if_pos hend, if_pos hend]
    by_cases hname : b.strAt nameOff = []
    · rw [if_pos hname, ih, List.filter_cons_of_neg (by simp [hname])]
    rw [if_neg hname]
    have hlimit : ∀ h : Hits, ¬ h.reached maxCount := fun h hr => absurd hr.1 (by omega)
    by_cases hmatch : comparator (b.strAt nameOff) = true
    · simp only [hmatch, if_true, hlimit, if_false, Hits.add_take, ih]
      rw [List.filter_cons_of_pos (by simp [hname, hmatch]), List.append_assoc]
      rfl
    · simp only [hmatch, Bool.false_eq_true, if_false, hlimit, ih]
      rw [List.filter_cons_of_neg (by simp [hmatch])]

theorem searchThread_eq (comparator : Bytes → Bool) (reqResults startPos endPos : ℕ) {maxCount : ℤ}
    (hmax : maxCount ≤ 0) : b.searchThread comparator reqResults startPos endPos maxCount =
      ⟨((b.visits endPos (endPos - startPos) startPos).filter fun off =>
          b.strAt off ≠ [] ∧ comparator (b.strAt off)).length,
        ((b.visits endPos (endPos - startPos) startPos).filter fun off =>
          b.strAt off ≠ [] ∧ comparator (b.strAt off)).take reqResults, startPos⟩ := by
  have h := @searchThreadLoop_eq b comparator reqResults endPos maxCount hmax (endPos - startPos) startPos []
    startPos
  rw [List.take_nil] at h
  exact h

/-! ## Reads -/

/-- The end of the name at a place does not come before the end of a name before it. -/
theorem strlen_mono {p p' : ℕ} (hle : p ≤ p') : p + b.strlen p ≤ p' + b.strlen p' := by
  induction hle using Nat.decreasingInduction with
  | self => exact le_rfl
  | of_succ p _ ih =>
    refine le_trans ?_ ih
    rw [strlen, strlen, strAt, strAt]
    cases hlimit : b.capacity - p with
    | zero => rw [Mem.cstr, List.length_nil]; omega
    | succ limit =>
      rw [Mem.cstr, show b.capacity - (p + 1) = limit by omega]
      split
      · rw [List.length_nil]; omega
      · rw [List.length_cons]; omega

/-- From the end of a name no bytes are left to its end. -/
theorem strlen_end (b : FsBuf) (p : ℕ) : b.strlen (p + b.strlen p) = 0 := by
  rw [strlen, strAt, Nat.sub_add_eq, strlen, strAt, Mem.cstr_end, List.length_nil]

/-- Every byte of a string leads to the same end. -/
theorem add_strlen_eq {p q : ℕ} (hle : p ≤ q) (hin : q ≤ p + b.strlen p) :
    q + b.strlen q = p + b.strlen p :=
  le_antisymm ((strlen_mono hin).trans_eq (by rw [b.strlen_end, Nat.add_zero])) (strlen_mono hle)

theorem ReadsBelowTail.mono {p p' : ℕ} (h : b.ReadsBelowTail p') (hle : p ≤ p') : b.ReadsBelowTail p :=
  lt_of_le_of_lt (Nat.add_le_add_right (strlen_mono hle) 1) h

section RuleVisits

variable {comparator : Bytes → Bool} {ruleVal : ℕ} {inRule exRule : List SearchRule} {reqResults endPos : ℕ}
  {maxCount : ℤ}

end RuleVisits

end FsBuf

/-! ## Walks from entries -/

namespace Searchable

variable {items : List Item} {first : ℕ} (h : Searchable b items first b.tail)
include h

end Searchable

/-! ## The end of the image -/

namespace Represents

variable {root : Bytes} {t : Tree} (h : Represents b root t)
include h

end Represents

/-! ## The whole search -/

namespace Represents

variable {root : Bytes} {t : Tree} (h : Represents b root t)
include h

end Represents

end DeepinAnything
