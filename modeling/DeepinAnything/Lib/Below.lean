import Mathlib.Data.List.Infix

/-!
# Strings that begin with each other, and paths below each other

A path lies below another one when it goes on from it at a separator. A test for a common beginning does not
look at the separator. In the order of strings a string stands before everything that goes on from it.
-/

namespace Below

variable {α : Type*}

/-! ## Below a path -/

section Contains

variable (sep : α)

/-- The path `p` is `a`, or lies below `a`: it begins with `a`, and there is a separator at the seam. -/
def Contains (a p : List α) : Prop :=
  a <+: p ∧ (p.length = a.length ∨ a.getLast? = some sep ∨ p[a.length]? = some sep)

instance [DecidableEq α] (a p : List α) : Decidable (Contains sep a p) := inferInstanceAs (Decidable (_ ∧ _))

variable {sep} {a b p m : List α}

theorem Contains.refl (a : List α) : Contains sep a a := ⟨List.prefix_rfl, .inl rfl⟩

theorem contains_append {rest : List α} :
    Contains sep a (a ++ rest) ↔ rest = [] ∨ a.getLast? = some sep ∨ rest.head? = some sep := by
  rw [Contains, List.getElem?_append_right (le_refl _), Nat.sub_self, ← List.head?_eq_getElem?]
  simp

/-- What stands between a path and what lies below it, lies below it. -/
theorem Contains.of_begins (h : Contains sep a p) (ham : a <+: m) (hmp : m <+: p) : Contains sep a m := by
  obtain ⟨rest, rfl⟩ := ham
  obtain ⟨rest', rfl⟩ := hmp
  rw [List.append_assoc, contains_append] at h
  rw [contains_append]
  cases rest with
  | nil => exact .inl rfl
  | cons c rest =>
    rcases h with h | h | h
    · simp at h
    · exact .inr (.inl h)
    · exact .inr (.inr (by simpa using h))

theorem Contains.trans (hab : Contains sep a b) (hbp : Contains sep b p) : Contains sep a p := by
  obtain ⟨rest, rfl⟩ := hab.1
  obtain ⟨rest', rfl⟩ := hbp.1
  rw [contains_append] at hab hbp
  rw [List.append_assoc, contains_append]
  cases rest with
  | nil =>
    rw [List.append_nil] at hbp
    rwa [List.nil_append]
  | cons c rest =>
    rcases hab with h | h | h
    · simp at h
    · exact .inr (.inl h)
    · exact .inr (.inr (by simpa using h))

/-- From a path over one below it to something between that one and what lies below it in turn. -/
theorem Contains.between (hab : Contains sep a b) (hbp : Contains sep b p) (hbm : b <+: m) (hmp : m <+: p) :
    Contains sep a m :=
  (hab.trans hbp).of_begins (hab.1.trans hbm) hmp

end Contains

/-! ## The names in a path -/

section Names

variable [DecidableEq α] {sep : α}

/-- The names in a path: what stands between separators, and is not empty. -/
def names (sep : α) (p : List α) : List (List α) := (p.splitOn sep).filter (· ≠ [])

@[simp] theorem names_nil : names sep [] = [] := by
  simp [names]

theorem names_append_cons (p q : List α) : names sep (p ++ sep :: q) = names sep p ++ names sep q := by
  rw [names, List.splitOn_append_cons_self, List.filter_append]
  rfl

@[simp] theorem names_cons (p : List α) : names sep (sep :: p) = names sep p := by
  have happend : names sep ([] ++ sep :: p) = _ := names_append_cons [] p
  simpa using happend

omit [DecidableEq α] in
private theorem flatten_filter_ne_nil [DecidableEq (List α)] (l : List (List α)) :
    (l.filter (· ≠ [])).flatten = l.flatten := by
  induction l with
  | nil => rfl
  | cons x l ih =>
    rcases eq_or_ne x [] with rfl | hx
    · rw [List.filter_cons_of_neg (by simp), ih, List.flatten_cons, List.nil_append]
    · rw [List.filter_cons_of_pos (by simpa using hx), List.flatten_cons, ih, List.flatten_cons]

theorem flatten_names (p : List α) : (names sep p).flatten = p.filter (· ≠ sep) := by
  rw [names, flatten_filter_ne_nil]
  induction p with
  | nil => simp
  | cons c p ih =>
    rw [List.splitOn_cons_eq_if_modifyHead]
    by_cases hc : c = sep
    · simpa [hc] using ih
    · obtain ⟨x, xs, hx⟩ := List.exists_cons_of_ne_nil (List.splitOn_ne_nil sep p)
      rw [hx] at ih
      simpa [hc, hx] using ih

/-- A path without names is made of separators. -/
theorem names_eq_nil_iff {p : List α} : names sep p = [] ↔ ∀ c ∈ p, c = sep := by
  constructor
  · intro hnil
    have hall : (names sep p).flatten = _ := flatten_names p
    rw [hnil, List.flatten_nil, eq_comm, List.filter_eq_nil_iff] at hall
    simpa using hall
  · intro hall
    induction p with
    | nil => exact names_nil
    | cons c p ih =>
      rw [hall c List.mem_cons_self, names_cons]
      exact ih fun d hd => hall d (List.mem_cons_of_mem _ hd)

/-- Behind a seam the names go on. -/
theorem names_of_contains {a rest : List α} (h : Contains sep a (a ++ rest)) :
    names sep (a ++ rest) = names sep a ++ names sep rest := by
  rcases contains_append.mp h with rfl | hlast | hhead
  · simp
  · obtain ⟨b, rfl⟩ := List.getLast?_eq_some_iff.mp hlast
    have hb : names sep (b ++ sep :: []) = _ := names_append_cons b []
    rw [List.append_assoc, List.singleton_append, names_append_cons, hb, names_nil, List.append_nil]
  · obtain ⟨r, rfl⟩ := List.head?_eq_some_iff.mp hhead
    rw [names_append_cons, names_cons]

/-- Where a path is cut before a seam, the names behind the seam stay. -/
theorem names_drop_of_contains {a rest : List α} {k : ℕ} (hk : k ≤ a.length) (h : Contains sep a (a ++ rest)) :
    names sep ((a ++ rest).drop k) = names sep (a.drop k) ++ names sep rest := by
  rw [List.drop_append_of_le_length hk]
  rcases eq_or_ne (a.drop k) [] with hnil | hne
  · rw [hnil, List.nil_append, names_nil, List.nil_append]
  · refine names_of_contains (contains_append.mpr ?_)
    rw [List.getLast?_drop, if_neg (by simpa using hne)]
    exact contains_append.mp h

end Names

/-! ## The order of strings -/

section Order

variable [Ord α]

theorem compare_append [Std.ReflOrd α] (a x y : List α) : compare (a ++ x) (a ++ y) = compare x y := by
  induction a with
  | nil => rfl
  | cons c a ih =>
    rw [List.cons_append, List.cons_append, List.compare_cons_cons, Std.ReflOrd.compare_self, ih]
    rfl

/-- A string that does not come behind another one, with which it has a common continuation, is its beginning. -/
theorem prefix_of_compare [Std.ReflOrd α] {a b p : List α} (ha : a <+: p) (hb : b <+: p)
    (h : (compare a b).isLE) : a <+: b := by
  rcases List.prefix_or_prefix_of_prefix ha hb with hab | ⟨rest, rfl⟩
  · exact hab
  · have hrest : (compare rest []).isLE := by
      rw [← compare_append b rest [], List.append_nil]
      exact h
    cases rest with
    | nil => simp
    | cons c rest => simp at hrest

end Order

end Below
