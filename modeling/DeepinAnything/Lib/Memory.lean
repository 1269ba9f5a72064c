import Mathlib.Algebra.Group.Int.Defs
import Mathlib.Algebra.Group.Nat.Defs
import Mathlib.Data.List.Basic
import Mathlib.Tactic.Common

/-!
# Byte memory

A flat byte-addressed memory with the operations of the C library that work on it: C strings,
`memcpy`, `memmove`, and little-endian 32-bit words. `Mem.Holds` says which bytes stand at an
offset; every layout of a data structure is stated with it, and every write comes with the
offsets it leaves alone.
-/

namespace ByteMem

/-- A string of bytes. -/
abbrev Bytes := List UInt8

/-- `isspace` of the C library, in the C locale. -/
def isspace (c : UInt8) : Bool := c = 32 || 9 ≤ c && c ≤ 13

/-- A memory gives every offset a byte. -/
@[ext] structure Mem where
  get : ℕ → UInt8

namespace Mem

variable {m m' : Mem}

/-! ## Bytes at an offset -/

/-- The bytes `bs` stand at offset `off`. -/
def Holds (m : Mem) : ℕ → Bytes → Prop
  | _, [] => True
  | off, b :: bs => m.get off = b ∧ m.Holds (off + 1) bs

instance decidableHolds : (off : ℕ) → (bs : Bytes) → Decidable (m.Holds off bs)
  | _, [] => inferInstanceAs (Decidable True)
  | off, b :: bs =>
    have := decidableHolds (off + 1) bs
    inferInstanceAs (Decidable (m.get off = b ∧ m.Holds (off + 1) bs))

@[simp] theorem holds_nil (off : ℕ) : m.Holds off [] := trivial

@[simp] theorem holds_cons (off : ℕ) (b : UInt8) (bs : Bytes) :
    m.Holds off (b :: bs) ↔ m.get off = b ∧ m.Holds (off + 1) bs := Iff.rfl

theorem holds_append (off : ℕ) (xs ys : Bytes) :
    m.Holds off (xs ++ ys) ↔ m.Holds off xs ∧ m.Holds (off + xs.length) ys := by
  induction xs generalizing off with
  | nil => simp
  | cons x xs ih =>
    have hlen : off + 1 + xs.length = off + (xs.length + 1) := by omega
    simp only [List.cons_append, holds_cons, ih, List.length_cons, hlen, and_assoc]

/-- `Holds` only looks at the bytes it speaks of, so it moves with them. -/
theorem Holds.congr {off off' : ℕ} {bs : Bytes} (h : m.Holds off bs)
    (hsame : ∀ i < bs.length, m'.get (off' + i) = m.get (off + i)) : m'.Holds off' bs := by
  induction bs generalizing off off' with
  | nil => trivial
  | cons b bs ih =>
    obtain ⟨hb, hbs⟩ := h
    refine ⟨?_, ih hbs fun i hi => ?_⟩
    · simpa [hb] using hsame 0 (by simp)
    · have := hsame (i + 1) (by simpa using hi)
      simpa only [Nat.add_assoc, Nat.add_comm 1 i] using this

theorem Holds.get {off : ℕ} {bs : Bytes} (h : m.Holds off bs) {i : ℕ} (hi : i < bs.length) :
    m.get (off + i) = bs[i] := by
  induction bs generalizing off i with
  | nil => simp at hi
  | cons b bs ih =>
    cases i with
    | zero => simpa using h.1
    | succ i =>
      have := ih h.2 (i := i) (by simpa using hi)
      simpa only [Nat.add_assoc, Nat.add_comm 1 i, List.getElem_cons_succ] using this

/-- Two byte strings of one length at one offset are the same. -/
theorem Holds.unique {off : ℕ} {xs ys : Bytes} (hx : m.Holds off xs) (hy : m.Holds off ys)
    (hlen : xs.length = ys.length) : xs = ys := by
  refine List.ext_getElem hlen fun i h₁ h₂ => ?_
  rw [← hx.get h₁, ← hy.get h₂]

/-! ## Loads and stores -/

/-- The `n` bytes from `off` on. -/
def load (m : Mem) (off : ℕ) : ℕ → Bytes
  | 0 => []
  | n + 1 => m.get off :: m.load (off + 1) n

@[simp] theorem length_load (off n : ℕ) : (m.load off n).length = n := by
  induction n generalizing off with
  | zero => rfl
  | succ n ih => simp [load, ih]

theorem holds_load (off n : ℕ) : m.Holds off (m.load off n) := by
  induction n generalizing off with
  | zero => trivial
  | succ n ih => exact ⟨rfl, ih (off + 1)⟩

theorem load_add (off a n : ℕ) : m.load off (a + n) = m.load off a ++ m.load (off + a) n := by
  induction a generalizing off with
  | zero => simp [load]
  | succ a ih => rw [Nat.succ_add, load, ih, load, List.cons_append, Nat.add_assoc, Nat.add_comm 1 a]

theorem Holds.load_eq {off : ℕ} {bs : Bytes} (h : m.Holds off bs) : m.load off bs.length = bs :=
  (holds_load off bs.length).unique h (length_load off bs.length)

theorem load_congr {off n : ℕ} (hsame : ∀ i, off ≤ i → i < off + n → m'.get i = m.get i) :
    m'.load off n = m.load off n := by
  induction n generalizing off with
  | zero => rfl
  | succ n ih =>
    rw [load, load, hsame off (Nat.le_refl off) (by omega), ih fun i hi hlt => hsame i (by omega) (by omega)]

/-- `memcpy` and `strcpy`: the bytes `bs` are written from `off` on. -/
def store (m : Mem) (off : ℕ) (bs : Bytes) : Mem :=
  ⟨fun i => if off ≤ i ∧ i < off + bs.length then bs.getD (i - off) 0 else m.get i⟩

theorem store_get_of_not_mem {off i : ℕ} {bs : Bytes} (h : i < off ∨ off + bs.length ≤ i) :
    (m.store off bs).get i = m.get i := by
  rw [store]
  exact if_neg (by omega)

theorem store_nil (off : ℕ) : m.store off [] = m := by
  ext i
  rw [store_get_of_not_mem (by simp only [List.length_nil]; omega)]

theorem store_get_of_mem {off i : ℕ} {bs : Bytes} (h : i < bs.length) :
    (m.store off bs).get (off + i) = bs[i] := by
  have hin : off ≤ off + i ∧ off + i < off + bs.length := by omega
  simp [store, hin, h]

theorem holds_store (off : ℕ) (bs : Bytes) : (m.store off bs).Holds off bs := by
  suffices h : ∀ (xs ys : Bytes), xs ++ ys = bs → (m.store off bs).Holds (off + xs.length) ys from
    h [] bs rfl
  intro xs ys
  induction ys generalizing xs with
  | nil => intro _; trivial
  | cons y ys ih =>
    intro h
    refine ⟨?_, by simpa [Nat.add_assoc] using ih (xs ++ [y]) (by simpa using h)⟩
    rw [store_get_of_mem (by simp [← h])]
    simp [← h]

/-- Two stores side by side are one. -/
theorem store_append (off : ℕ) (xs ys : Bytes) :
    (m.store off xs).store (off + xs.length) ys = m.store off (xs ++ ys) := by
  ext i
  by_cases hy : off + xs.length ≤ i ∧ i < off + xs.length + ys.length
  · obtain ⟨j, rfl⟩ : ∃ j, i = off + xs.length + j := ⟨i - (off + xs.length), by omega⟩
    have hj : j < ys.length := by omega
    rw [store_get_of_mem hj, Nat.add_assoc, store_get_of_mem (by simpa using hj)]
    simp
  · rw [store_get_of_not_mem (by omega)]
    by_cases hx : off ≤ i ∧ i < off + xs.length
    · obtain ⟨j, rfl⟩ : ∃ j, i = off + j := ⟨i - off, by omega⟩
      have hj : j < xs.length := by omega
      rw [store_get_of_mem hj, store_get_of_mem (by simp; omega)]
      simp [hj]
    · rw [store_get_of_not_mem (by omega), store_get_of_not_mem (by simp; omega)]

/-- `memmove`: the `n` bytes at `src` are written to `dst`. -/
def move (m : Mem) (dst src n : ℕ) : Mem :=
  ⟨fun i => if dst ≤ i ∧ i < dst + n then m.get (src + (i - dst)) else m.get i⟩

theorem move_get_of_not_mem {dst src n i : ℕ} (h : i < dst ∨ dst + n ≤ i) :
    (m.move dst src n).get i = m.get i := by
  rw [move]
  exact if_neg (by omega)

theorem move_get_of_mem {dst src n i : ℕ} (h : i < n) :
    (m.move dst src n).get (dst + i) = m.get (src + i) := by
  have hin : dst ≤ dst + i ∧ dst + i < dst + n := by omega
  simp [move, hin]

/-! ## C strings -/

/-- The C string at `off`, read up to its terminator and at most `limit` bytes far. -/
def cstr (m : Mem) : ℕ → ℕ → Bytes
  | 0, _ => []
  | limit + 1, off => if m.get off = 0 then [] else m.get off :: m.cstr limit (off + 1)

theorem cstr_of_holds {limit off : ℕ} {s : Bytes} (h : m.Holds off (s ++ [0])) (hs : (0 : UInt8) ∉ s)
    (hlimit : s.length < limit) : m.cstr limit off = s := by
  induction s generalizing limit off with
  | nil =>
    cases limit with
    | zero => rfl
    | succ limit => simpa [cstr] using h
  | cons c s ih =>
    obtain ⟨limit, rfl⟩ : ∃ l, limit = l + 1 := ⟨limit - 1, by simp at hlimit; omega⟩
    obtain ⟨hc, hrest⟩ := h
    have hne : c ≠ 0 := fun h0 => hs (by simp [h0])
    rw [cstr, hc, if_neg hne, ih hrest (fun hmem => hs (by simp [hmem])) (by simpa using hlimit)]

/-- A C string that ends before the limit has its terminator behind it. -/
theorem holds_cstr {limit off : ℕ} (h : (m.cstr limit off).length < limit) :
    m.Holds off (m.cstr limit off ++ [0]) := by
  induction limit generalizing off with
  | zero => simp at h
  | succ limit ih =>
    rw [cstr] at h ⊢
    split at h
    · rename_i hzero
      simp [hzero]
    · rename_i hne
      rw [if_neg hne]
      exact ⟨rfl, ih (by simpa using h)⟩

@[simp] theorem load_cstr (limit off : ℕ) : m.load off (m.cstr limit off).length = m.cstr limit off := by
  induction limit generalizing off with
  | zero => rfl
  | succ limit ih =>
    rw [cstr]
    split
    · rfl
    · rw [List.length_cons, load, ih]

/-- Behind a C string there is no more of it. -/
theorem cstr_end (limit off : ℕ) :
    m.cstr (limit - (m.cstr limit off).length) (off + (m.cstr limit off).length) = [] := by
  induction limit generalizing off with
  | zero => rfl
  | succ limit ih =>
    by_cases hzero : m.get off = 0
    · rw [cstr, if_pos hzero, List.length_nil, Nat.sub_zero, cstr]
      exact if_pos hzero
    · rw [cstr, if_neg hzero, List.length_cons, Nat.succ_sub_succ, ← Nat.add_assoc, Nat.add_right_comm]
      exact ih (off + 1)

theorem length_cstr_le_limit (m : Mem) (limit off : ℕ) : (m.cstr limit off).length ≤ limit := by
  induction limit generalizing off with
  | zero => exact Nat.le_refl _
  | succ limit ih =>
    rw [cstr]
    split
    · exact Nat.zero_le _
    · exact Nat.succ_le_succ (ih (off + 1))

/-- A C string has no terminator inside. -/
theorem zero_not_mem_cstr (limit off : ℕ) : (0 : UInt8) ∉ m.cstr limit off := by
  induction limit generalizing off with
  | zero => simp [cstr]
  | succ limit ih =>
    rw [cstr]
    split
    · simp
    · rename_i h
      simp [ih, Ne.symm h]

/-- A C string ends at the first terminator, or before. -/
theorem length_cstr_le {limit off i : ℕ} (hi : off ≤ i) (hzero : m.get i = 0) :
    off + (m.cstr limit off).length ≤ i := by
  induction limit generalizing off with
  | zero => exact hi
  | succ limit ih =>
    rw [cstr]
    split
    · exact hi
    · rename_i hne
      have hlt : off ≠ i := fun heq => hne (heq ▸ hzero)
      have hle : off + 1 + (m.cstr limit (off + 1)).length ≤ i := ih (by omega)
      rw [List.length_cons]
      omega

/-! ## Little-endian words -/

/-- The 32-bit word at `off`, least significant byte first. -/
def load32 (m : Mem) (off : ℕ) : ℕ :=
  (m.get off).toNat + 256 * ((m.get (off + 1)).toNat + 256 * ((m.get (off + 2)).toNat +
    256 * (m.get (off + 3)).toNat))

theorem load32_lt (m : Mem) (off : ℕ) : m.load32 off < 2 ^ 32 := by
  have h0 := (m.get off).toNat_lt
  have h1 := (m.get (off + 1)).toNat_lt
  have h2 := (m.get (off + 2)).toNat_lt
  have h3 := (m.get (off + 3)).toNat_lt
  rw [load32]
  omega

end Mem

/-- The four bytes of a 32-bit word, least significant first; higher bits are dropped. -/
def le32 (n : ℕ) : Bytes :=
  [UInt8.ofNat n, UInt8.ofNat (n / 256), UInt8.ofNat (n / 65536), UInt8.ofNat (n / 16777216)]

@[simp] theorem length_le32 (n : ℕ) : (le32 n).length = 4 := rfl

theorem Mem.load32_of_holds {m : Mem} {off n : ℕ} (h : m.Holds off (le32 n)) (hn : n < 2 ^ 32) :
    m.load32 off = n := by
  obtain ⟨h0, h1, h2, h3, -⟩ := h
  simp only [Nat.add_assoc, Nat.reduceAdd] at h1 h2 h3
  simp only [load32, h0, h1, h2, h3, UInt8.toNat_ofNat']
  omega

end ByteMem
