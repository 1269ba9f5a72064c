import DeepinAnything.Lib.Memory

/-!
# Tables of bytes

Elements of one width behind each other, and 32-bit words as the elements of an array: where an element
stands, and what is read there.
-/

namespace ByteMem

variable {α : Type} {f : α → Bytes} {w : ℕ}

theorem length_flatMap_const (hw : ∀ x, (f x).length = w) (xs : List α) :
    (xs.flatMap f).length = w * xs.length := by
  induction xs with
  | nil => rfl
  | cons x xs ih => rw [List.flatMap_cons, List.length_append, hw, ih, List.length_cons, Nat.mul_succ, Nat.add_comm]

/-- What comes before an element, the element, and what comes behind it. -/
theorem flatMap_split (f : α → Bytes) {xs : List α} {i : ℕ} (hi : i < xs.length) :
    xs.flatMap f = (xs.take i).flatMap f ++ (f xs[i] ++ (xs.drop (i + 1)).flatMap f) := by
  conv_lhs => rw [← List.take_append_drop i xs, List.flatMap_append, List.drop_eq_getElem_cons hi,
    List.flatMap_cons]

theorem drop_flatMap_const (hw : ∀ x, (f x).length = w) {xs : List α} {i : ℕ} (hi : i < xs.length) :
    (xs.flatMap f).drop (w * i) = f xs[i] ++ (xs.drop (i + 1)).flatMap f := by
  have hlen : ((xs.take i).flatMap f).length = w * i := by
    rw [length_flatMap_const hw, List.length_take, Nat.min_eq_left (Nat.le_of_lt hi)]
  rw [flatMap_split f hi, List.drop_left' hlen]

namespace Mem

variable {m : Mem}

/-- The elements of a table stand where their index says. -/
theorem Holds.row (hw : ∀ x, (f x).length = w) {off : ℕ} {xs : List α} (h : m.Holds off (xs.flatMap f)) {i : ℕ}
    (hi : i < xs.length) : m.Holds (off + w * i) (f xs[i]) := by
  rw [flatMap_split f hi, holds_append, holds_append] at h
  rw [length_flatMap_const hw, List.length_take, Nat.min_eq_left (Nat.le_of_lt hi)] at h
  exact h.2.1

/-- Of a number that does not fit the low 32 bits are there. -/
theorem load32_of_holds_mod {off n : ℕ} (h : m.Holds off (le32 n)) : m.load32 off = n % 2 ^ 32 := by
  refine load32_of_holds (n := n % 2 ^ 32) ?_ (Nat.mod_lt _ (by omega))
  have hsame : le32 (n % 2 ^ 32) = le32 n := by
    simp only [le32, List.cons.injEq, ← UInt8.toNat_inj, UInt8.toNat_ofNat', and_true]
    omega
  rwa [hsame]

/-- The `n` words from `off` on. -/
def words (m : Mem) (off n : ℕ) : List ℕ := (List.range n).map fun i => m.load32 (off + 4 * i)

theorem words_of_holds {off : ℕ} {xs : List ℕ} (h : m.Holds off (xs.flatMap le32))
    (hxs : ∀ x ∈ xs, x < 2 ^ 32) : m.words off xs.length = xs := by
  refine List.ext_getElem (by simp [words]) fun i h₁ h₂ => ?_
  simp only [words, List.getElem_map, List.getElem_range]
  exact load32_of_holds (h.row length_le32 h₂) (hxs _ (List.getElem_mem h₂))

/-- A part that is written again stays as it is. -/
theorem Holds.store_take {off : ℕ} {bs : Bytes} (h : m.Holds off bs) (n : ℕ) :
    (m.store off (bs.take n)).Holds off bs := by
  conv => arg 3; rw [← List.take_append_drop n bs]
  conv at h => arg 3; rw [← List.take_append_drop n bs]
  rw [holds_append] at h ⊢
  refine ⟨holds_store _ _, h.2.congr fun i _ => ?_⟩
  exact store_get_of_not_mem (.inr (by omega))

end Mem

/-- The eight bytes of a 64-bit word, least significant first. -/
def le64 (n : ℕ) : Bytes := le32 n ++ le32 (n / 2 ^ 32)

@[simp] theorem length_le64 (n : ℕ) : (le64 n).length = 8 := rfl

end ByteMem
