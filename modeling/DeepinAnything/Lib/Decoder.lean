import Mathlib.Data.List.Infix
import Mathlib.Data.List.TakeWhile
import Mathlib.Data.UInt
import Mathlib.Tactic.Common

/-!
# Finding ASCII text in decoded bytes

A decoder of bytes that leaves ASCII alone decodes what stands between two ASCII bytes on its own and
to characters that are not ASCII. An ASCII text is then found in the decoded string where its bytes are
found in the bytes.
-/

namespace AsciiDecoder

/-- An ASCII byte that is not a terminator. -/
def Ascii (c : UInt8) : Prop := 0 < c.toNat ∧ c.toNat < 128

instance (c : UInt8) : Decidable (Ascii c) := inferInstanceAs (Decidable (_ ∧ _))

/-- The character of an ASCII byte. -/
def char (c : UInt8) : Char := Char.ofNat c.toNat

/-- The decoder leaves ASCII alone: it starts anew at every ASCII byte, and the other bytes behind one
become characters that are not ASCII. -/
structure Transparent (dec : List UInt8 → List Char) : Prop where
  nil : dec [] = []
  split : ∀ s c t, Ascii c → dec (s ++ c :: t) = dec s ++ dec (c :: t)
  run : ∀ c t, Ascii c → (∀ x ∈ t, 128 ≤ x.toNat) →
    ∃ w, dec (c :: t) = char c :: w ∧ (w = [] ↔ t = []) ∧ ∀ x ∈ w, 128 ≤ x.toNat

theorem toNat_char (c : UInt8) : (char c).toNat = c.toNat := by
  have hvalid : c.toNat.isValidChar := .inl (by have := c.toNat_lt; omega)
  rw [char, Char.ofNat, dif_pos hvalid]
  rfl

theorem char_inj {c d : UInt8} (h : char c = char d) : c = d := by
  rw [← UInt8.toNat_inj, ← toNat_char c, ← toNat_char d, h]

/-! ## Lists -/

variable {α : Type*}

/-- A list is not found across what does not hold its first element. -/
theorem cons_infix_append_iff {x : α} {u w l : List α} (hx : x ∉ w) :
    x :: u <:+: w ++ l ↔ x :: u <:+: l := by
  induction w with
  | nil => rfl
  | cons y w ih =>
    rw [List.mem_cons, not_or] at hx
    rw [List.cons_append, List.infix_cons_iff, List.cons_prefix_cons, ih hx.2]
    tauto

/-- A list that does not hold `x` is no longer than what comes before `x`. -/
theorem prefix_append_cons_iff {x : α} {u n l : List α} (hx : x ∉ u) : u <+: n ++ x :: l ↔ u <+: n := by
  induction n generalizing u with
  | nil =>
    cases u with
    | nil => simp
    | cons y u =>
      rw [List.mem_cons, not_or] at hx
      simp only [List.nil_append, List.cons_prefix_cons, List.prefix_nil, reduceCtorEq, iff_false]
      exact fun h => hx.1 h.1.symm
  | cons y n ih =>
    cases u with
    | nil => simp
    | cons z u =>
      rw [List.mem_cons, not_or] at hx
      rw [List.cons_append, List.cons_prefix_cons, List.cons_prefix_cons, ih hx.2]

/-! ## Prefixes and infixes -/

namespace Transparent

variable {dec : List UInt8 → List Char} (h : Transparent dec)
include h

/-- The string from an ASCII byte on, up to the next ASCII byte and from there. -/
theorem eq_run {c : UInt8} {t : List UInt8} (hc : Ascii c) (hzero : (0 : UInt8) ∉ t) :
    ∃ s r w, t = s ++ r ∧ (∀ x ∈ s, 128 ≤ x.toNat) ∧ (r = [] ∨ ∃ d r', r = d :: r' ∧ Ascii d) ∧
      dec (c :: t) = char c :: (w ++ dec r) ∧ (w = [] ↔ s = []) ∧ ∀ x ∈ w, 128 ≤ x.toNat := by
  generalize hs : t.takeWhile (128 ≤ ·.toNat) = s
  generalize hr : t.dropWhile (128 ≤ ·.toNat) = r
  have hsr : t = s ++ r := by rw [← hs, ← hr, List.takeWhile_append_dropWhile]
  have hhigh : ∀ x ∈ s, 128 ≤ x.toNat := fun x hx => by
    rw [← hs] at hx
    simpa using List.mem_takeWhile_imp hx
  obtain ⟨w, hw, hnil, hw'⟩ := h.run c s hc hhigh
  cases r with
  | nil =>
    refine ⟨s, [], w, hsr, hhigh, .inl rfl, ?_, hnil, hw'⟩
    rw [hsr, List.append_nil, hw, h.nil, List.append_nil]
  | cons d r =>
    have hd : Ascii d := by
      have hlow : ¬ 128 ≤ d.toNat := by
        have := List.head_dropWhile_not (128 ≤ ·.toNat) (l := t) (by simp [hr])
        simpa [hr] using this
      have hne : d ≠ 0 := fun h0 => hzero (by simp [hsr, h0])
      have : d.toNat ≠ 0 := fun h0 => hne (UInt8.toNat_inj.mp h0)
      exact ⟨by omega, by omega⟩
    refine ⟨s, d :: r, w, hsr, hhigh, .inr ⟨d, r, rfl, hd⟩, ?_, hnil, hw'⟩
    rw [hsr, ← List.cons_append, h.split _ _ _ hd, hw, List.cons_append]

theorem prefix_iff {u : List UInt8} (hu : ∀ a ∈ u, Ascii a) {c : UInt8} {t : List UInt8} (hc : Ascii c)
    (hzero : (0 : UInt8) ∉ t) : u.map char <+: dec (c :: t) ↔ u <+: c :: t := by
  induction u generalizing c t with
  | nil => simp
  | cons a u ih =>
    have ha := hu a List.mem_cons_self
    obtain ⟨s, r, w, rfl, hhigh, hr, hdec, hnil, hw⟩ := h.eq_run hc hzero
    rw [hdec, List.map_cons, List.cons_prefix_cons, List.cons_prefix_cons]
    refine and_congr ⟨char_inj, fun heq => by rw [heq]⟩ ?_
    cases s with
    | cons x s =>
      -- what follows is not ASCII in either string
      obtain ⟨y, w, rfl⟩ := List.exists_cons_of_ne_nil fun h0 => absurd (hnil.mp h0) (List.cons_ne_nil x s)
      cases u with
      | nil => simp
      | cons a' u =>
        have ha' := hu a' (by simp)
        have hx := hhigh x List.mem_cons_self
        have hy := hw y List.mem_cons_self
        simp only [List.map_cons, List.cons_append, List.cons_prefix_cons]
        refine iff_of_false (fun heq => ?_) fun heq => ?_
        · rw [← heq.1, toNat_char] at hy
          exact absurd ha'.2 (by omega)
        · rw [← heq.1] at hx
          exact absurd ha'.2 (by omega)
    | nil =>
      rw [hnil.mpr rfl, List.nil_append, List.nil_append]
      rcases hr with rfl | ⟨d, r, rfl, hd⟩
      · rw [h.nil, List.prefix_nil, List.prefix_nil, List.map_eq_nil_iff]
      · exact ih (fun x hx => hu x (List.mem_cons_of_mem _ hx)) hd fun h0 => hzero (by
          simp only [List.nil_append, List.mem_cons]
          exact .inr h0)

/-- An ASCII text is found where its bytes are found. -/
theorem infix_iff {a : UInt8} {u : List UInt8} (hu : ∀ x ∈ a :: u, Ascii x) {c : UInt8} {t : List UInt8}
    (hc : Ascii c) (hzero : (0 : UInt8) ∉ t) :
    (a :: u).map char <:+: dec (c :: t) ↔ a :: u <:+: c :: t := by
  induction hn : t.length using Nat.strong_induction_on generalizing c t with
  | _ n ih =>
    have ha := hu a List.mem_cons_self
    have hbegins := h.prefix_iff hu hc hzero
    obtain ⟨s, r, w, rfl, hhigh, hr, hdec, -, hw⟩ := h.eq_run hc hzero
    have hs : a ∉ s := fun hmem => by
      have := hhigh a hmem
      exact absurd ha.2 (by omega)
    have hw' : char a ∉ w := fun hmem => by
      have := hw _ hmem
      rw [toNat_char] at this
      exact absurd ha.2 (by omega)
    rw [hdec, List.infix_cons_iff, ← hdec, hbegins, List.infix_cons_iff]
    refine or_congr_right ?_
    rw [List.map_cons, cons_infix_append_iff hw', cons_infix_append_iff hs, ← List.map_cons]
    rcases hr with rfl | ⟨d, r, rfl, hd⟩
    · simp [h.nil]
    · refine ih r.length ?_ hd (fun h0 => hzero ?_) rfl
      · rw [← hn, List.length_append, List.length_cons]
        omega
      · simp [h0]

end Transparent

end AsciiDecoder
