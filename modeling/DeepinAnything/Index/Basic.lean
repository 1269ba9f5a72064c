import DeepinAnything.FsBuf.Basic
import DeepinAnything.Lib.Utf8
import Mathlib.Data.List.GetD
import Mathlib.Data.List.Nodup

/-!
# The keyword index in memory (`index.c`, `index_allmem.c`, `index_utils.c`, `composite_str.c`)

An index maps keywords to the offsets of the entries whose name contains them. `add_index` takes a
name apart into its parts of up to `MAX_KW_LEN` characters; each part goes through a hash to a bucket,
which has its keywords in the order they came, each with its offsets in increasing order. The arrays
are extended by blocks. Their lengths are bit-fields of 28 bits, so an array that has grown to `2 ^ 28`
elements has the length 0 again. Memory is taken to be available.
-/

namespace DeepinAnything

open ByteMem

def nameMax : ℕ := 255

def maxKwLen : ℕ := 8

def idxKwBlk : ℕ := 4

def fsbufBlk : ℕ := 4

/-- What an array holds whose length, a bit-field of 28 bits, has just been counted up. -/
def counted28 {α : Type} (xs : List α) : List α := xs.take (xs.length % 2 ^ 28)

theorem counted28_of_lt {α : Type} {xs : List α} (h : xs.length < 2 ^ 28) : counted28 xs = xs := by
  rw [counted28, Nat.mod_eq_of_lt h, List.take_length]

theorem length_counted28_lt {α : Type} (xs : List α) : (counted28 xs).length < 2 ^ 28 := by
  rw [counted28, List.length_take]
  have := Nat.mod_lt xs.length (show 0 < 2 ^ 28 by omega)
  omega

/-! ## Strings of keywords -/

/-- `composite_str`: a string of up to six bytes stands in the word itself, a longer one behind a
pointer. -/
inductive CompositeStr where
  | shortStr (s : Bytes)
  | p (s : Bytes)
deriving DecidableEq, Repr

/-- `get_cs_string` -/
def getCsString : CompositeStr → Bytes
  | .shortStr s => s
  | .p s => s

/-- `set_cs_string` -/
def setCsString (s : Bytes) : CompositeStr := if s.length ≥ 7 then .p s else .shortStr s

@[simp] theorem getCsString_setCsString (s : Bytes) : getCsString (setCsString s) = s := by
  unfold setCsString
  split <;> rfl

/-! ## The index -/

/-- `index_keyword`. `fsbufOffsets` are the offsets in use, `empty` counts the free cells. -/
structure IndexKeyword where
  keyword : CompositeStr
  fsbufOffsets : List ℕ
  empty : ℕ
deriving DecidableEq, Repr

/-- `index_hash` -/
structure IndexHash where
  keywords : List IndexKeyword
  empty : ℕ

/-- `fs_allmem_index` -/
structure AllmemIndex where
  count : ℕ
  indice : ℕ → IndexHash

/-- The string of a keyword. -/
def IndexKeyword.str (inkw : IndexKeyword) : Bytes := getCsString inkw.keyword

/-- `hash`. The bytes are of type `char`, which has a sign. -/
def hash (name : Bytes) : UInt32 :=
  name.foldl (fun result c => result * 31 + c.toInt8.toInt32.toUInt32) 0

/-- The loop of `get_insert_pos`. -/
def getInsertPosLoop (value : ℕ) (sorted : List ℕ) (favorBig : Bool) : ℕ → ℕ → ℕ
  | 0, _ => if favorBig then sorted.length else sorted.length - 1
  | fuel + 1, i =>
    if sorted.getD i 0 = value then i
    else if sorted.getD i 0 < value ∧ value < sorted.getD (i + 1) 0 then
      if favorBig then i + 1 else i
    else getInsertPosLoop value sorted favorBig fuel (i + 1)

/-- `get_insert_pos` -/
def getInsertPos (value : ℕ) (sorted : List ℕ) (favorBig : Bool) : ℕ :=
  let size := sorted.length
  if size = 0 ∨ sorted.getD 0 0 ≥ value then 0
  else if sorted.getD (size - 1) 0 = value then size - 1
  else if sorted.getD (size - 1) 0 < value then if favorBig then size else size - 1
  else getInsertPosLoop value sorted favorBig (size - 1) 0

/-- `new_allmem_index` -/
def newAllmemIndex (count : ℕ) : AllmemIndex := { count := count, indice := fun _ => ⟨[], 0⟩ }

/-- `init_index_keyword` -/
def initIndexKeyword (indexUtf8 : Bytes) : IndexKeyword :=
  { keyword := setCsString indexUtf8, fsbufOffsets := [], empty := fsbufBlk }

/-- The first position of a keyword in its bucket, the number of keywords when there is none. -/
def IndexHash.inkwPos (ih : IndexHash) (query : Bytes) : ℕ := ih.keywords.findIdx (·.str = query)

namespace AllmemIndex

variable (ami : AllmemIndex)

/-- The bucket of a keyword. -/
def bucket (query : Bytes) : ℕ := (hash query).toNat % ami.count

/-- `get_index_keyword_allmem` -/
def getIndexKeywordAllmem (query : Bytes) : Option IndexKeyword :=
  let ih := ami.indice (ami.bucket query)
  ih.keywords[ih.inkwPos query]?

/-- The index with another bucket in one place. -/
def setBucket (i : ℕ) (ih : IndexHash) : AllmemIndex :=
  { ami with indice := fun j => if j = i then ih else ami.indice j }

/-- `get_index_keyword_for_append`: the index, and the position in its bucket of the keyword that the
returned pointer leads to. -/
def getIndexKeywordForAppend (query : Bytes) : AllmemIndex × ℕ :=
  let i := ami.bucket query
  let ih := ami.indice i
  match ami.getIndexKeywordAllmem query with
  | some _ => (ami, ih.inkwPos query)
  | none =>
    let empty := if ih.empty = 0 then idxKwBlk else ih.empty
    let keywords := counted28 (ih.keywords ++ [initIndexKeyword query])
    (ami.setBucket i { keywords := keywords, empty := empty - 1 }, ih.keywords.length)

end AllmemIndex

/-- What `add_index_allmem` does to the keyword it has got. -/
def IndexKeyword.addOffset (inkw : IndexKeyword) (fsbufOffset : ℕ) : IndexKeyword :=
  let pos := getInsertPos fsbufOffset inkw.fsbufOffsets true
  if inkw.fsbufOffsets.length > pos ∧ inkw.fsbufOffsets.getD pos 0 = fsbufOffset then inkw
  else
    let empty := if inkw.empty = 0 then fsbufBlk else inkw.empty
    { inkw with
      fsbufOffsets := counted28 (inkw.fsbufOffsets.insertIdx pos fsbufOffset)
      empty := empty - 1 }

/-- `add_index_allmem` -/
def AllmemIndex.addIndexAllmem (ami : AllmemIndex) (indexUtf8 : Bytes) (fsbufOffset : ℕ) :
    AllmemIndex :=
  let (ami, pos) := ami.getIndexKeywordForAppend indexUtf8
  let i := ami.bucket indexUtf8
  let ih := ami.indice i
  ami.setBucket i { ih with keywords := ih.keywords.modify pos (·.addOffset fsbufOffset) }

/-! ## Names -/

/-- `utf8_to_wchar_t`, with room for `output_bytes` bytes of wide characters. The conversion fails on
what is not UTF-8 and when the room is used up; it needs `4` bytes for a character. The `iconv` of glibc
also takes forms of up to six bytes for numbers above `0x10FFFF`, which are no characters: these are
refused here, and results about names or queries are about valid UTF-8. -/
def utf8ToWcharT (input : Bytes) (outputBytes : ℕ) : Option (List Char) :=
  (Utf8.decode input).filter fun output => 4 * output.length ≤ outputBytes

/-- `wchar_t_to_utf8` -/
def wcharTToUtf8 (input : List Char) (outputBytes : ℕ) : Option Bytes :=
  if (Utf8.encode input).length ≤ outputBytes then some (Utf8.encode input) else none

/-- The bounds `i` and `j` that the two loops of `add_index` go through. -/
def kwBounds (len : ℕ) : List (ℕ × ℕ) :=
  (List.range len).flatMap fun i =>
    (List.range' (i + 1) (min len (i + maxKwLen) - i)).map fun j => (i, j)

/-- `add_index` -/
def addIndex (fsi : AllmemIndex) (name : Bytes) (fsbufOffset : ℕ) : AllmemIndex :=
  match utf8ToWcharT name (4 * nameMax - 4) with
  | none => fsi
  | some converted =>
    (kwBounds converted.length).foldl
      (fun fsi (i, j) =>
        let index := (converted.drop i).take (j - i)
        match wcharTToUtf8 index (nameMax - 1) with
        | none => fsi
        | some indexUtf8 => fsi.addIndexAllmem indexUtf8 fsbufOffset)
      fsi

/-! ## Positions -/

/-- The values before a position are smaller than `value`, the others are not. -/
structure SplitsAt (value : ℕ) (sorted : List ℕ) (pos : ℕ) : Prop where
  le : pos ≤ sorted.length
  before : ∀ x ∈ sorted.take pos, x < value
  behind : ∀ x ∈ sorted.drop pos, value ≤ x

/-- The values around a position decide whether it is the place. -/
theorem SplitsAt.of_getD {value : ℕ} {sorted : List ℕ} (h : sorted.Pairwise (· < ·)) {pos : ℕ}
    (hle : pos ≤ sorted.length) (hbefore : pos = 0 ∨ sorted.getD (pos - 1) 0 < value)
    (hbehind : pos = sorted.length ∨ value ≤ sorted.getD pos 0) : SplitsAt value sorted pos := by
  have hlt := List.pairwise_iff_getElem.mp h
  refine ⟨hle, fun x hx => ?_, fun x hx => ?_⟩
  · obtain ⟨k, hk, rfl⟩ := List.mem_iff_getElem.mp hx
    rw [List.length_take] at hk
    rw [List.getElem_take]
    have hpos : sorted[pos - 1] < value := by
      have := hbefore.resolve_left (by omega)
      rwa [List.getD_eq_getElem _ _ (by omega)] at this
    rcases Nat.lt_or_ge k (pos - 1) with hk' | hk'
    · exact (hlt k (pos - 1) (by omega) (by omega) hk').trans hpos
    · have : k = pos - 1 := by omega
      subst this
      exact hpos
  · obtain ⟨k, hk, rfl⟩ := List.mem_iff_getElem.mp hx
    rw [List.length_drop] at hk
    rw [List.getElem_drop]
    have hpos : value ≤ sorted[pos] := by
      have := hbehind.resolve_left (by omega)
      rwa [List.getD_eq_getElem _ _ (by omega)] at this
    rcases Nat.eq_zero_or_pos k with rfl | hk'
    · exact hpos
    · exact hpos.trans (hlt pos (pos + k) (by omega) (by omega) (by omega)).le

theorem getInsertPosLoop_splitsAt {value : ℕ} {sorted : List ℕ} (h : sorted.Pairwise (· < ·))
    (hlast : value < sorted.getD (sorted.length - 1) 0) {fuel i : ℕ}
    (hfuel : i + fuel + 1 = sorted.length) (hi : sorted.getD i 0 ≤ value) :
    SplitsAt value sorted (getInsertPosLoop value sorted true fuel i) := by
  induction fuel generalizing i with
  | zero =>
    obtain rfl : i = sorted.length - 1 := by omega
    omega
  | succ fuel ih =>
    rw [getInsertPosLoop]
    by_cases heq : sorted.getD i 0 = value
    · rw [if_pos heq]
      refine .of_getD h (by omega) ?_ (.inr heq.ge)
      rcases Nat.eq_zero_or_pos i with rfl | hpos
      · exact .inl rfl
      · have := List.pairwise_iff_getElem.mp h (i - 1) i (by omega) (by omega) (by omega)
        rw [List.getD_eq_getElem _ _ (by omega)] at heq ⊢
        exact .inr (by omega)
    · rw [if_neg heq]
      by_cases hnext : value < sorted.getD (i + 1) 0
      · rw [if_pos ⟨by omega, hnext⟩, if_pos rfl]
        exact .of_getD h (by omega) (.inr (by rw [Nat.add_sub_cancel]; omega)) (.inr hnext.le)
      · rw [if_neg (fun h0 => hnext h0.2)]
        exact ih (by omega) (by omega)

/-- In an increasing array the position is the one where the value belongs. -/
theorem getInsertPos_splitsAt (value : ℕ) {sorted : List ℕ} (h : sorted.Pairwise (· < ·)) :
    SplitsAt value sorted (getInsertPos value sorted true) := by
  simp only [getInsertPos, if_true]
  by_cases hfirst : sorted.length = 0 ∨ sorted.getD 0 0 ≥ value
  · rw [if_pos hfirst]
    exact .of_getD h (by omega) (.inl rfl) (hfirst.imp Eq.symm id)
  rw [if_neg hfirst]
  push Not at hfirst
  have hlen : 0 < sorted.length := by omega
  by_cases hlast : sorted.getD (sorted.length - 1) 0 = value
  · rw [if_pos hlast]
    refine .of_getD h (by omega) ?_ (.inr hlast.ge)
    rcases Nat.lt_or_ge 1 sorted.length with hone | hone
    · have := List.pairwise_iff_getElem.mp h (sorted.length - 1 - 1) (sorted.length - 1) (by omega)
        (by omega) (by omega)
      rw [List.getD_eq_getElem _ _ (by omega)] at hlast ⊢
      exact .inr (by omega)
    · exact .inl (by omega)
  rw [if_neg hlast]
  by_cases hbig : sorted.getD (sorted.length - 1) 0 < value
  · rw [if_pos hbig]
    exact .of_getD h le_rfl (.inr hbig) (.inl rfl)
  · rw [if_neg hbig]
    exact getInsertPosLoop_splitsAt h (by omega) (by omega) (by omega)

theorem insertIdx_eq_take_drop {α : Type} {xs : List α} {pos : ℕ} (h : pos ≤ xs.length) (x : α) :
    xs.insertIdx pos x = xs.take pos ++ x :: xs.drop pos := by
  induction xs generalizing pos with
  | nil =>
    obtain rfl : pos = 0 := by simpa using h
    rfl
  | cons y xs ih =>
    cases pos with
    | zero => rfl
    | succ pos => simp [ih (by simpa using h)]

namespace SplitsAt

variable {value : ℕ} {sorted : List ℕ} {pos : ℕ} (h : SplitsAt value sorted pos)
include h

/-- A value of the array stands at the position. -/
theorem getD_of_mem (hmem : value ∈ sorted) (hs : sorted.Pairwise (· < ·)) :
    sorted.length > pos ∧ sorted.getD pos 0 = value := by
  rw [← List.take_append_drop pos sorted, List.mem_append] at hmem
  have hdrop := hmem.resolve_left fun h0 => (h.before _ h0).false
  have hlt : pos < sorted.length := by
    have := List.length_pos_of_mem hdrop
    rw [List.length_drop] at this
    omega
  refine ⟨hlt, ?_⟩
  rw [List.getD_eq_getElem _ _ hlt]
  rw [List.drop_eq_getElem_cons hlt, List.mem_cons] at hdrop
  rcases hdrop with hdrop | hdrop
  · exact hdrop.symm
  · -- behind the position the values are larger than the one there
    have hge := h.behind _ (by rw [List.drop_eq_getElem_cons hlt]; exact List.mem_cons_self)
    have hsub := hs.sublist (List.drop_sublist pos sorted)
    rw [List.drop_eq_getElem_cons hlt, List.pairwise_cons] at hsub
    have := hsub.1 _ hdrop
    omega

/-- A new value goes into its place. -/
theorem insertIdx_sorted (hs : sorted.Pairwise (· < ·)) (hmem : value ∉ sorted) :
    (sorted.insertIdx pos value).Pairwise (· < ·) := by
  rw [insertIdx_eq_take_drop h.le]
  refine List.pairwise_append.mpr ⟨hs.sublist (List.take_sublist _ _), ?_, fun x hx y hy => ?_⟩
  · refine List.pairwise_cons.mpr ⟨fun y hy => ?_, hs.sublist (List.drop_sublist _ _)⟩
    have := h.behind y hy
    have hne : y ≠ value := fun h0 => hmem (h0 ▸ List.mem_of_mem_drop hy)
    omega
  · have hx' := h.before x hx
    rcases List.mem_cons.mp hy with rfl | hy
    · exact hx'
    · exact hx'.trans_le (h.behind y hy)

end SplitsAt

end DeepinAnything
