import DeepinAnything.Lib.Memory
import Mathlib.Data.List.DropRight

/-!
# The pinyin of a name (`pinyin.c`)

`cat_pinyin` puts the pinyin of a name together: the first letters of its syllables and the whole syllables, with a
bar between them; what is not in the dictionary stands for itself. The name is first checked to be UTF-8, by lead
bytes that allow up to six bytes for a character, and then converted by a loop that tells the lead bytes apart in a
way of its own and writes into two buffers of fixed size.
-/

namespace DeepinAnything.Chinese

open ByteMem

/-! ## Strings in buffers -/

/-- What a string function can do wrong: leave its buffer, or go on without end. -/
inductive StrFault where
  | outOfBounds
  | endless
deriving DecidableEq, Repr

/-- `strncat` of `n` bytes of `src` to the string `dst`, which has `size` bytes with its terminator. -/
def strncat (size : ℕ) (dst src : Bytes) (n : ℕ) : Except StrFault Bytes :=
  if (dst ++ src.take n).length < size then .ok (dst ++ src.take n) else .error .outOfBounds

/-- `words += n`, and then a look at the byte there, which is a byte of the string or its terminator. -/
def advance (words : Bytes) (n : ℕ) : Except StrFault Bytes :=
  if n ≤ words.length then .ok (words.drop n) else .error .outOfBounds

/-- `' '` -/
def space : UInt8 := 32

/-- `'|'` -/
def bar : UInt8 := 124

/-- `right_trim`, which does not stop at the start of a string of blanks. -/
def rightTrim (str : Bytes) : Except StrFault Bytes :=
  if str = [] then .ok []
  else if str.all (· = space) then .error .outOfBounds
  else .ok (str.rdropWhile (· = space))

/-- `strncpy` of `n` bytes from an offset in a string. -/
def strncpyAt (src : Bytes) (off n : ℕ) : Except StrFault Bytes :=
  if off ≤ src.length then .ok (((src.drop off).take n).takeWhile (· ≠ 0)) else .error .outOfBounds

/-! ## The code -/

def pinyinUnicodeStart : ℕ := 0x4E00

def pinyinUnicodeEnd : ℕ := 0x9FA5

def maxPinyinLen : ℕ := 6

/-- The code point of a lead byte for three bytes and the two that follow. -/
def codePoint (w w₁ w₂ : UInt8) : ℕ :=
  (w &&& 0x0F).toNat <<< 12 ||| (w₁ &&& 0x3F).toNat <<< 6 ||| (w₂ &&& 0x3F).toNat

/-- The loop of `convert_all_pinyin`; every turn of it but the last goes on by a byte at least. -/
def convertAllPinyinLoop (basicDict : Bytes) (firstSize fullSize : ℕ) :
    ℕ → Bytes → Bytes → Bytes → Except StrFault (Bytes × Bytes)
  | 0, _, _, _ => .error .endless
  | _ + 1, [], first, full => .ok (first, full)
  | fuel + 1, w :: rest, first, full =>
    let both (n : ℕ) : Except StrFault (Bytes × Bytes) := do
      let first ← strncat firstSize first (w :: rest) n
      let full ← strncat fullSize full (w :: rest) n
      let words ← advance (w :: rest) n
      convertAllPinyinLoop basicDict firstSize fullSize fuel words first full
    if w >>> 7 = 0 then both 1
    else if w &&& 0xE0 = 0xC0 then both 2
    else if w &&& 0xF0 = 0xE0 then
      match rest with
      | w₁ :: w₂ :: words =>
        let tmp := codePoint w w₁ w₂
        if pinyinUnicodeStart ≤ tmp ∧ tmp ≤ pinyinUnicodeEnd then do
          let buf ← strncpyAt basicDict ((tmp - pinyinUnicodeStart) * maxPinyinLen) maxPinyinLen
          let buf ← rightTrim buf
          let first ← strncat firstSize first buf 1
          let full ← strncat fullSize full buf buf.length
          convertAllPinyinLoop basicDict firstSize fullSize fuel words first full
        else both 3
      | _ => both 3
    else if w &&& 0xF8 = 0xF0 then both 4
    else if w &&& 0xFC = 0xF8 then both 5
    else if w &&& 0xFE = 0xFC then both 6
    else do
      let first ← strncat firstSize first (w :: rest) 1
      let full ← strncat fullSize full (w :: rest) 1
      .ok (first, full)

/-- `convert_all_pinyin` of a string into two empty ones. -/
def convertAllPinyin (basicDict : Bytes) (firstSize fullSize : ℕ) (words : Bytes) :
    Except StrFault (Bytes × Bytes) :=
  convertAllPinyinLoop basicDict firstSize fullSize (words.length + 1) words [] []

/-- `nBytes--` behind a lead byte, if it is one. -/
def followers (chr : UInt8) : Option ℕ :=
  if chr ≥ 0x80 then
    if chr ≥ 0xFC ∧ chr ≤ 0xFD then some 5
    else if chr ≥ 0xF8 then some 4
    else if chr ≥ 0xF0 then some 3
    else if chr ≥ 0xE0 then some 2
    else if chr ≥ 0xC0 then some 1
    else none
  else some 0

/-- The loop of `is_text_utf8`. -/
def isTextUtf8Loop : Bytes → ℕ → Bool → Bool
  | [], nBytes, allAscii => if nBytes > 0 then false else !allAscii
  | chr :: str, nBytes, allAscii =>
    let allAscii := if chr &&& 0x80 ≠ 0 then false else allAscii
    if nBytes = 0 then
      match followers chr with
      | some nBytes => isTextUtf8Loop str nBytes allAscii
      | none => false
    else if chr &&& 0xC0 ≠ 0x80 then false
    else isTextUtf8Loop str (nBytes - 1) allAscii

def isTextUtf8 (str : Bytes) : Bool := isTextUtf8Loop str 0 true

/-- `first_len` -/
def firstLen : ℕ := 255

/-- `max_len` -/
def maxLen : ℕ := 1530

/-- `cat_pinyin`, which returns `NULL` for a name that is not accepted and when there is no memory. -/
def catPinyin (basicDict : Bytes) (calloc : ℕ → Bool) : Option Bytes → Except StrFault (Option Bytes)
  | none => .ok none
  | some name =>
    if !isTextUtf8 name then .ok none
    else if !calloc (firstLen + maxLen + 1) then .ok none
    else do
      let (first, full) ← convertAllPinyin basicDict firstLen maxLen name
      let cat ← strncat (firstLen + maxLen + 1) [] first first.length
      -- the bar takes the place of the terminator
      let cat ← strncat (firstLen + maxLen + 1) (cat ++ [bar]) full full.length
      .ok (some cat)

/-! ## Character by character -/

/-- The dictionary: six bytes for each code point, a syllable and blanks behind it. -/
structure PinyinDict where
  bytes : Bytes
  length_eq : bytes.length = (pinyinUnicodeEnd + 1 - pinyinUnicodeStart) * maxPinyinLen
  zero : (0 : UInt8) ∉ bytes
  not_blank : ∀ i < pinyinUnicodeEnd + 1 - pinyinUnicodeStart, bytes[i * maxPinyinLen]? ≠ some space

/-- The characters of a name, as long as their lead bytes say. -/
def charsLoop : ℕ → Bytes → List Bytes
  | 0, _ => []
  | _ + 1, [] => []
  | fuel + 1, w :: rest =>
    let n := (followers w).getD 0
    (w :: rest.take n) :: charsLoop fuel (rest.drop n)

def chars (name : Bytes) : List Bytes := charsLoop name.length name

/-- A character with a syllable in the dictionary. -/
def InDict : Bytes → Prop
  | [w, w₁, w₂] => w &&& 0xF0 = 0xE0 ∧ pinyinUnicodeStart ≤ codePoint w w₁ w₂ ∧
    codePoint w w₁ w₂ ≤ pinyinUnicodeEnd
  | _ => False

instance : DecidablePred InDict := fun c =>
  match c with
  | [_, _, _] => inferInstanceAs (Decidable (_ ∧ _ ∧ _))
  | [] | [_] | [_, _] | _ :: _ :: _ :: _ :: _ => inferInstanceAs (Decidable False)

namespace PinyinDict

variable (dict : PinyinDict)

/-- The six bytes of a code point. -/
def field (tmp : ℕ) : Bytes := (dict.bytes.drop ((tmp - pinyinUnicodeStart) * maxPinyinLen)).take maxPinyinLen

/-- The syllable of a character of three bytes. -/
def syllable : Bytes → Bytes
  | [w, w₁, w₂] => (dict.field (codePoint w w₁ w₂)).rdropWhile (· = space)
  | _ => []

/-- What a character adds to the first letters. -/
def firstOf (c : Bytes) : Bytes := if InDict c then (dict.syllable c).take 1 else c

/-- What a character adds to the syllables. -/
def fullOf (c : Bytes) : Bytes := if InDict c then dict.syllable c else c

/-- The pinyin of a name. -/
def pinyin (name : Bytes) : Bytes :=
  ((chars name).map dict.firstOf).flatten ++ bar :: ((chars name).map dict.fullOf).flatten

/-- `cat_pinyin` stays inside its buffers, and returns the pinyin of a name that is accepted. -/
def CatPinyinRight (calloc : ℕ → Bool) (name : Bytes) : Prop :=
  ∃ r, catPinyin dict.bytes calloc (some name) = .ok r ∧ (isTextUtf8 name = true → r = some (dict.pinyin name))

end PinyinDict

/-! ## Lead bytes -/

theorem forall_byte {p : UInt8 → Prop} (h : ∀ n < 256, p (UInt8.ofNat n)) (w : UInt8) : p w := by
  have := h w.toNat w.toNat_lt
  rwa [UInt8.ofNat_toNat] at this

/-- The two classifications of lead bytes agree but for the last two bytes, which the first one takes for the lead
of five. -/
theorem followers_eq (w : UInt8) : followers w =
    if w >>> 7 = 0 then some 0
    else if w &&& 0xE0 = 0xC0 then some 1
    else if w &&& 0xF0 = 0xE0 then some 2
    else if w &&& 0xF8 = 0xF0 then some 3
    else if w &&& 0xFC = 0xF8 then some 4
    else if w &&& 0xFE = 0xFC then some 5
    else if w ≥ 0xFE then some 4 else none := by
  revert w
  exact forall_byte (by decide +kernel)

/-- A byte behind the lead byte. -/
def IsFollower (x : UInt8) : Prop := x &&& 0xC0 = 0x80

theorem IsFollower.lt {x : UInt8} (h : IsFollower x) : x < 0xFE :=
  forall_byte (p := fun x => x &&& 0xC0 = 0x80 → x < 0xFE) (by decide +kernel) x h

/-- A lead byte and as many bytes as it asks for. -/
def IsChar (c : Bytes) : Prop :=
  ∃ w rest, c = w :: rest ∧ followers w = some rest.length ∧ ∀ x ∈ rest, IsFollower x

/-- A character whose lead byte the conversion knows. -/
def Known (c : Bytes) : Prop := ∀ b ∈ c, b < 0xFE

/-! ## What is accepted -/

/-- What `is_text_utf8` accepts within a character: the bytes that are missing, and then something accepted. -/
theorem isTextUtf8Loop_followers {str : Bytes} {n : ℕ} {allAscii : Bool}
    (h : isTextUtf8Loop str n allAscii = true) :
    n ≤ str.length ∧ (∀ x ∈ str.take n, IsFollower x) ∧ ∃ a, isTextUtf8Loop (str.drop n) 0 a = true := by
  induction n generalizing str allAscii with
  | zero => exact ⟨Nat.zero_le _, by simp, allAscii, h⟩
  | succ n ih =>
    cases str with
    | nil => simp [isTextUtf8Loop] at h
    | cons x str =>
      rw [isTextUtf8Loop] at h
      simp only [Nat.add_one_ne_zero, if_false, Nat.add_sub_cancel] at h
      by_cases hx : x &&& 0xC0 = 0x80
      · rw [if_neg (not_not.mpr hx)] at h
        obtain ⟨hle, hall, hrest⟩ := ih h
        refine ⟨Nat.succ_le_succ hle, ?_, hrest⟩
        rw [List.take_succ_cons]
        exact List.forall_mem_cons.mpr ⟨hx, hall⟩
      · rw [if_pos hx] at h
        cases h

theorem isChar_of_mem_charsLoop {fuel : ℕ} {words : Bytes} (hfuel : words.length ≤ fuel) {allAscii : Bool}
    (h : isTextUtf8Loop words 0 allAscii = true) : ∀ c ∈ charsLoop fuel words, IsChar c := by
  induction fuel generalizing words allAscii with
  | zero => simp [charsLoop]
  | succ fuel ih =>
    cases words with
    | nil => simp [charsLoop]
    | cons w rest =>
      rw [isTextUtf8Loop] at h
      simp only [if_true] at h
      cases hn : followers w with
      | none => simp [hn] at h
      | some n =>
        simp only [hn] at h
        obtain ⟨hle, hall, a, hrest⟩ := isTextUtf8Loop_followers h
        rw [charsLoop, hn]
        refine List.forall_mem_cons.mpr ⟨⟨w, _, rfl, ?_, hall⟩, ih ?_ hrest⟩
        · rw [List.length_take, Option.getD_some, min_eq_left hle, hn]
        · rw [List.length_drop]
          simp only [List.length_cons] at hfuel
          omega

/-- What is accepted is a sequence of characters. -/
theorem isChar_of_mem_chars {name : Bytes} (h : isTextUtf8 name = true) : ∀ c ∈ chars name, IsChar c :=
  isChar_of_mem_charsLoop le_rfl h

theorem flatten_charsLoop {fuel : ℕ} {words : Bytes} (hfuel : words.length ≤ fuel) :
    (charsLoop fuel words).flatten = words := by
  induction fuel generalizing words with
  | zero =>
    obtain rfl := List.length_eq_zero_iff.mp (Nat.le_zero.mp hfuel)
    rfl
  | succ fuel ih =>
    cases words with
    | nil => rfl
    | cons w rest =>
      rw [charsLoop]
      simp only [List.flatten_cons, List.cons_append]
      rw [ih (by rw [List.length_drop]; simp only [List.length_cons] at hfuel; omega), List.take_append_drop]

theorem flatten_chars (name : Bytes) : (chars name).flatten = name := flatten_charsLoop le_rfl

theorem IsChar.length_pos {c : Bytes} (h : IsChar c) : 0 < c.length := by
  obtain ⟨w, rest, rfl, -⟩ := h
  exact Nat.succ_pos _

/-- There are no more characters than bytes. -/
theorem length_le_flatten {cs : List Bytes} (h : ∀ c ∈ cs, IsChar c) : cs.length ≤ cs.flatten.length := by
  induction cs with
  | nil => simp
  | cons c cs ih =>
    have hc := (h c List.mem_cons_self).length_pos
    have hcs := ih fun x hx => h x (List.mem_cons_of_mem _ hx)
    rw [List.length_cons, List.flatten_cons, List.length_append]
    omega

/-! ## The dictionary -/

namespace PinyinDict

variable (dict : PinyinDict)

theorem field_spec {tmp : ℕ} (hstart : pinyinUnicodeStart ≤ tmp) (hend : tmp ≤ pinyinUnicodeEnd) :
    strncpyAt dict.bytes ((tmp - pinyinUnicodeStart) * maxPinyinLen) maxPinyinLen = .ok (dict.field tmp) ∧
      ∃ x rest, dict.field tmp = x :: rest ∧ x ≠ space := by
  have hlt : tmp - pinyinUnicodeStart < pinyinUnicodeEnd + 1 - pinyinUnicodeStart := by omega
  have hlen := dict.length_eq
  have hblank := dict.not_blank _ hlt
  rw [field]
  generalize tmp - pinyinUnicodeStart = i at hlt hblank ⊢
  generalize pinyinUnicodeEnd + 1 - pinyinUnicodeStart = n at hlt hlen
  have hoff : i * maxPinyinLen < dict.bytes.length := by
    rw [hlen]
    exact Nat.mul_lt_mul_of_pos_right hlt (by decide)
  constructor
  · rw [strncpyAt, if_pos hoff.le, List.takeWhile_eq_self_iff.mpr]
    intro x hx
    have hmem := List.mem_of_mem_drop (List.mem_of_mem_take hx)
    simpa using fun h0 : x = 0 => dict.zero (h0 ▸ hmem)
  · rw [List.drop_eq_getElem_cons hoff]
    refine ⟨_, _, List.take_succ_cons, fun h => hblank ?_⟩
    rw [List.getElem?_eq_getElem hoff, h]

theorem rightTrim_field {tmp : ℕ} (hstart : pinyinUnicodeStart ≤ tmp) (hend : tmp ≤ pinyinUnicodeEnd) :
    rightTrim (dict.field tmp) = .ok ((dict.field tmp).rdropWhile (· = space)) := by
  obtain ⟨-, x, rest, heq, hx⟩ := dict.field_spec hstart hend
  rw [rightTrim, heq, if_neg (by simp), if_neg (by simp [hx])]

theorem length_syllable_le (c : Bytes) : (dict.syllable c).length ≤ 6 := by
  unfold syllable
  split
  · refine (List.rdropWhile_prefix _ _).length_le.trans ?_
    exact List.length_take_le _ _
  · simp

end PinyinDict

theorem InDict.length_eq {c : Bytes} (h : InDict c) : c.length = 3 := by
  unfold InDict at h
  split at h
  · rfl
  · exact h.elim

/-! ## The conversion -/

/-- A whole string put behind another one. -/
def put (size : ℕ) (dst s : Bytes) : Except StrFault Bytes :=
  if (dst ++ s).length < size then .ok (dst ++ s) else .error .outOfBounds

theorem strncat_append (size : ℕ) (dst c rest : Bytes) : strncat size dst (c ++ rest) c.length = put size dst c := by
  rw [strncat, put, List.take_left]

theorem strncat_self (size : ℕ) (dst s : Bytes) : strncat size dst s s.length = put size dst s := by
  simpa using strncat_append size dst s []

theorem strncat_one (size : ℕ) (dst s : Bytes) : strncat size dst s 1 = put size dst (s.take 1) := rfl

theorem ok_bind {α β : Type} (a : α) (f : α → Except StrFault β) : (Except.ok a >>= f) = f a := rfl

section Convert

variable (dict : PinyinDict) {firstSize fullSize : ℕ}

/-- A turn of the loop at a whole character with a lead byte that it knows. -/
theorem convertAllPinyinLoop_step {c : Bytes} (hc : IsChar c) (hknown : Known c) (fuel : ℕ) (rest first full : Bytes) :
    convertAllPinyinLoop dict.bytes firstSize fullSize (fuel + 1) (c ++ rest) first full = (do
      let first ← put firstSize first (dict.firstOf c)
      let full ← put fullSize full (dict.fullOf c)
      convertAllPinyinLoop dict.bytes firstSize fullSize fuel rest first full) := by
  obtain ⟨w, conts, rfl, hn, -⟩ := hc
  have hw : ¬ w ≥ 0xFE := UInt8.not_le.mpr (hknown w List.mem_cons_self)
  have hboth : ∀ n, n = (w :: conts).length → ¬ InDict (w :: conts) → (do
      let first ← strncat firstSize first (w :: (conts ++ rest)) n
      let full ← strncat fullSize full (w :: (conts ++ rest)) n
      let words ← advance (w :: (conts ++ rest)) n
      convertAllPinyinLoop dict.bytes firstSize fullSize fuel words first full) = (do
      let first ← put firstSize first (dict.firstOf (w :: conts))
      let full ← put fullSize full (dict.fullOf (w :: conts))
      convertAllPinyinLoop dict.bytes firstSize fullSize fuel rest first full) := by
    rintro n rfl hnot
    have hadvance : advance (w :: (conts ++ rest)) (w :: conts).length = .ok rest := by
      rw [advance, if_pos (by simp), ← List.cons_append, List.drop_left]
    rw [PinyinDict.firstOf, if_neg hnot, PinyinDict.fullOf, if_neg hnot, hadvance, ← List.cons_append]
    simp only [strncat_append]
    rfl
  have hshort : conts.length ≠ 2 → ¬ InDict (w :: conts) := by
    intro hlen hdict
    exact hlen (by simpa using hdict.length_eq)
  rw [followers_eq] at hn
  rw [List.cons_append, convertAllPinyinLoop.eq_def]
  simp only
  by_cases h1 : w >>> 7 = 0
  · rw [if_pos h1, Option.some.injEq] at hn
    rw [if_pos h1]
    exact hboth 1 (by simp [← hn]) (hshort (by omega))
  rw [if_neg h1] at hn ⊢
  by_cases h2 : w &&& 0xE0 = 0xC0
  · rw [if_pos h2, Option.some.injEq] at hn
    rw [if_pos h2]
    exact hboth 2 (by simp [← hn]) (hshort (by omega))
  rw [if_neg h2] at hn ⊢
  by_cases h3 : w &&& 0xF0 = 0xE0
  · rw [if_pos h3, Option.some.injEq] at hn
    obtain ⟨w₁, w₂, rfl⟩ := List.length_eq_two.mp hn.symm
    rw [if_pos h3]
    simp only [List.cons_append, List.nil_append]
    by_cases hdict : pinyinUnicodeStart ≤ codePoint w w₁ w₂ ∧ codePoint w w₁ w₂ ≤ pinyinUnicodeEnd
    · have hin : InDict [w, w₁, w₂] := ⟨h3, hdict⟩
      rw [if_pos hdict, (dict.field_spec hdict.1 hdict.2).1, ok_bind, dict.rightTrim_field hdict.1 hdict.2, ok_bind,
        PinyinDict.firstOf, if_pos hin, PinyinDict.fullOf, if_pos hin, PinyinDict.syllable]
      simp only [strncat_one, strncat_self]
    · rw [if_neg hdict]
      exact hboth 3 rfl fun hin => hdict hin.2
  rw [if_neg h3] at hn ⊢
  by_cases h4 : w &&& 0xF8 = 0xF0
  · rw [if_pos h4, Option.some.injEq] at hn
    rw [if_pos h4]
    exact hboth 4 (by simp [← hn]) (hshort (by omega))
  rw [if_neg h4] at hn ⊢
  by_cases h5 : w &&& 0xFC = 0xF8
  · rw [if_pos h5, Option.some.injEq] at hn
    rw [if_pos h5]
    exact hboth 5 (by simp [← hn]) (hshort (by omega))
  rw [if_neg h5] at hn ⊢
  by_cases h6 : w &&& 0xFE = 0xFC
  · rw [if_pos h6, Option.some.injEq] at hn
    rw [if_pos h6]
    exact hboth 6 (by simp [← hn]) (hshort (by omega))
  · rw [if_neg h6, if_neg hw] at hn
    cases hn

/-- A turn of the loop at a lead byte that it does not know is the last one. -/
theorem convertAllPinyinLoop_unknown {w : UInt8} (hw : w ≥ 0xFE) (fuel : ℕ) (rest first full : Bytes) :
    convertAllPinyinLoop dict.bytes firstSize fullSize (fuel + 1) (w :: rest) first full = (do
      let first ← put firstSize first [w]
      let full ← put fullSize full [w]
      .ok (first, full)) := by
  have hlead : ¬ w >>> 7 = 0 ∧ ¬ w &&& 0xE0 = 0xC0 ∧ ¬ w &&& 0xF0 = 0xE0 ∧ ¬ w &&& 0xF8 = 0xF0 ∧
      ¬ w &&& 0xFC = 0xF8 ∧ ¬ w &&& 0xFE = 0xFC :=
    forall_byte (p := fun w => w ≥ 0xFE → ¬ w >>> 7 = 0 ∧ ¬ w &&& 0xE0 = 0xC0 ∧ ¬ w &&& 0xF0 = 0xE0 ∧
      ¬ w &&& 0xF8 = 0xF0 ∧ ¬ w &&& 0xFC = 0xF8 ∧ ¬ w &&& 0xFE = 0xFC) (by decide +kernel) w hw
  obtain ⟨h1, h2, h3, h4, h5, h6⟩ := hlead
  rw [convertAllPinyinLoop.eq_def]
  simp only [if_neg h1, if_neg h2, if_neg h3, if_neg h4, if_neg h5, if_neg h6]
  rfl

/-- The loop on known characters adds the pinyin of each, as long as the buffers have room. -/
theorem convertAllPinyinLoop_known {cs : List Bytes} (hc : ∀ c ∈ cs, IsChar c) (hknown : ∀ c ∈ cs, Known c)
    {fuel : ℕ} (hfuel : cs.length < fuel) {first full : Bytes} (hfirst : first.length < firstSize)
    (hfull : full.length < fullSize) :
    convertAllPinyinLoop dict.bytes firstSize fullSize fuel cs.flatten first full =
      if (first ++ (cs.map dict.firstOf).flatten).length < firstSize ∧
          (full ++ (cs.map dict.fullOf).flatten).length < fullSize then
        .ok (first ++ (cs.map dict.firstOf).flatten, full ++ (cs.map dict.fullOf).flatten)
      else .error .outOfBounds := by
  obtain ⟨fuel, rfl⟩ : ∃ k, fuel = k + 1 := ⟨fuel - 1, by omega⟩
  induction cs generalizing fuel first full with
  | nil => simp [convertAllPinyinLoop, hfirst, hfull]
  | cons c cs ih =>
    obtain ⟨fuel, rfl⟩ : ∃ k, fuel = k + 1 := ⟨fuel - 1, by simp only [List.length_cons] at hfuel; omega⟩
    simp only [List.length_cons] at hfuel
    rw [List.flatten_cons, convertAllPinyinLoop_step dict (hc c List.mem_cons_self) (hknown c List.mem_cons_self)]
    simp only [List.map_cons, List.flatten_cons, ← List.append_assoc]
    have hlen : ∀ xs ys : Bytes, xs.length ≤ (xs ++ ys).length := fun xs ys => by simp
    rw [put]
    by_cases hroom : (first ++ dict.firstOf c).length < firstSize
    · rw [if_pos hroom, ok_bind, put]
      by_cases hroom' : (full ++ dict.fullOf c).length < fullSize
      · rw [if_pos hroom', ok_bind]
        exact ih (fun x hx => hc x (List.mem_cons_of_mem _ hx)) (fun x hx => hknown x (List.mem_cons_of_mem _ hx))
          hroom hroom' fuel (by omega)
      · have hfails : ¬ ((first ++ dict.firstOf c ++ (cs.map dict.firstOf).flatten).length < firstSize ∧
            (full ++ dict.fullOf c ++ (cs.map dict.fullOf).flatten).length < fullSize) :=
          fun h => hroom' ((hlen _ _).trans_lt h.2)
        rw [if_neg hroom', if_neg hfails]
        rfl
    · have hfails : ¬ ((first ++ dict.firstOf c ++ (cs.map dict.firstOf).flatten).length < firstSize ∧
          (full ++ dict.fullOf c ++ (cs.map dict.fullOf).flatten).length < fullSize) :=
        fun h => hroom ((hlen _ _).trans_lt h.1)
      rw [if_neg hroom, if_neg hfails]
      rfl

/-- On a character that it does not know the loop stops, and leaves less than the pinyin. -/
theorem length_of_convertAllPinyinLoop {cs : List Bytes} (hc : ∀ c ∈ cs, IsChar c) (hunknown : ∃ c ∈ cs, ¬ Known c)
    {fuel : ℕ} (hfuel : cs.length < fuel) {first full f g : Bytes}
    (h : convertAllPinyinLoop dict.bytes firstSize fullSize fuel cs.flatten first full = .ok (f, g)) :
    f.length + g.length <
      (first ++ (cs.map dict.firstOf).flatten).length + (full ++ (cs.map dict.fullOf).flatten).length := by
  obtain ⟨fuel, rfl⟩ : ∃ k, fuel = k + 1 := ⟨fuel - 1, by omega⟩
  induction cs generalizing fuel first full with
  | nil => simp at hunknown
  | cons c cs ih =>
    obtain ⟨fuel, rfl⟩ : ∃ k, fuel = k + 1 := ⟨fuel - 1, by simp only [List.length_cons] at hfuel; omega⟩
    simp only [List.length_cons] at hfuel
    have hchar := hc c List.mem_cons_self
    rw [List.flatten_cons] at h
    simp only [List.map_cons, List.flatten_cons]
    by_cases hknown : Known c
    · rw [convertAllPinyinLoop_step dict hchar hknown, put] at h
      split at h
      · rw [ok_bind, put] at h
        split at h
        · rw [ok_bind] at h
          obtain ⟨x, hx, hxknown⟩ := hunknown
          have hrest : x ∈ cs := (List.mem_cons.mp hx).resolve_left fun hsame => hxknown (hsame ▸ hknown)
          have := ih (fun y hy => hc y (List.mem_cons_of_mem _ hy)) ⟨x, hrest, hxknown⟩ fuel (by omega) h
          simpa only [List.append_assoc] using this
        · cases h
      · cases h
    · obtain ⟨w, rest, rfl, hn, hfollow⟩ := hchar
      have hw : w ≥ 0xFE := by
        by_contra hlt
        refine hknown fun b hb => ?_
        rcases List.mem_cons.mp hb with rfl | hb
        · exact UInt8.not_le.mp hlt
        · exact (hfollow b hb).lt
      have hlen : rest.length = 4 := by
        have hfour : followers w = some 4 :=
          forall_byte (p := fun w => w ≥ 0xFE → followers w = some 4) (by decide +kernel) w hw
        exact (Option.some.inj (hfour.symm.trans hn)).symm
      have hnot : ¬ InDict (w :: rest) := fun hin => by
        have := hin.length_eq
        simp only [List.length_cons] at this
        omega
      rw [List.cons_append, convertAllPinyinLoop_unknown dict hw, put] at h
      split at h
      · rw [ok_bind, put] at h
        split at h
        · rw [ok_bind, Except.ok.injEq, Prod.mk.injEq] at h
          obtain ⟨rfl, rfl⟩ := h
          rw [PinyinDict.firstOf, if_neg hnot, PinyinDict.fullOf, if_neg hnot]
          simp only [List.length_append, List.length_cons, List.length_nil]
          omega
        · cases h
      · cases h

end Convert

/-! ## Lengths -/

namespace PinyinDict

variable (dict : PinyinDict)

theorem length_firstOf (c : Bytes) : (dict.firstOf c).length ≤ c.length ∧
    ((dict.firstOf c).length = c.length ↔ ¬ InDict c) := by
  rw [firstOf]
  by_cases hin : InDict c
  · have hlen := hin.length_eq
    have hone : ((dict.syllable c).take 1).length ≤ 1 := List.length_take_le _ _
    rw [if_pos hin]
    exact ⟨by omega, by simp only [hin, not_true_eq_false, iff_false]; omega⟩
  · rw [if_neg hin]
    exact ⟨le_rfl, by simp [hin]⟩

theorem length_fullOf_le (c : Bytes) : (dict.fullOf c).length ≤ 2 * c.length := by
  rw [fullOf]
  split
  · rename_i hin
    have hlen := hin.length_eq
    have := dict.length_syllable_le c
    omega
  · omega

/-- The first letters are as many as the bytes of the name, unless there is a syllable. -/
theorem length_first (cs : List Bytes) : ((cs.map dict.firstOf).flatten).length ≤ cs.flatten.length ∧
    (((cs.map dict.firstOf).flatten).length = cs.flatten.length ↔ ∀ c ∈ cs, ¬ InDict c) := by
  induction cs with
  | nil => simp
  | cons c cs ih =>
    obtain ⟨hle, heq⟩ := dict.length_firstOf c
    obtain ⟨hle', heq'⟩ := ih
    simp only [List.map_cons, List.flatten_cons, List.length_append, List.forall_mem_cons]
    rw [← heq, ← heq']
    omega

theorem length_full_le (cs : List Bytes) : ((cs.map dict.fullOf).flatten).length ≤ 2 * cs.flatten.length := by
  induction cs with
  | nil => simp
  | cons c cs ih =>
    have := dict.length_fullOf_le c
    simp only [List.map_cons, List.flatten_cons, List.length_append]
    omega

/-! ## `cat_pinyin` -/

/-- What `cat_pinyin` does with what has been converted. -/
theorem catPinyin_eq {calloc : ℕ → Bool} {name : Bytes} (haccept : isTextUtf8 name = true)
    (halloc : calloc (firstLen + maxLen + 1) = true) : catPinyin dict.bytes calloc (some name) = (do
      let (first, full) ← convertAllPinyin dict.bytes firstLen maxLen name
      let cat ← put (firstLen + maxLen + 1) [] first
      let cat ← put (firstLen + maxLen + 1) (cat ++ [bar]) full
      .ok (some cat)) := by
  rw [catPinyin]
  simp only [haccept, halloc, Bool.not_true, Bool.false_eq_true, if_false, strncat_self]

theorem known_iff (name : Bytes) : (∀ c ∈ chars name, Known c) ↔ ∀ b ∈ name, b < 0xFE := by
  constructor
  · intro h b hb
    rw [← flatten_chars name, List.mem_flatten] at hb
    obtain ⟨c, hc, hbc⟩ := hb
    exact h c hc b hbc
  · intro h c hc b hb
    refine h b ?_
    rw [← flatten_chars name]
    exact List.mem_flatten.mpr ⟨c, hc, hb⟩

theorem length_chars_lt {name : Bytes} (haccept : isTextUtf8 name = true) : (chars name).length < name.length + 1 := by
  have := length_le_flatten (isChar_of_mem_chars haccept)
  rw [flatten_chars] at this
  omega

/-- A name of known characters is converted if there is room for its first letters. -/
theorem catPinyin_known {calloc : ℕ → Bool} {name : Bytes} (hlen : name.length ≤ 255)
    (haccept : isTextUtf8 name = true) (halloc : calloc (firstLen + maxLen + 1) = true)
    (hknown : ∀ b ∈ name, b < 0xFE) : catPinyin dict.bytes calloc (some name) =
      if name.length < 255 ∨ ∃ c ∈ chars name, InDict c then .ok (some (dict.pinyin name))
      else .error .outOfBounds := by
  obtain ⟨hfirst, hfirst_eq⟩ := dict.length_first (chars name)
  have hfull := dict.length_full_le (chars name)
  rw [flatten_chars] at hfirst hfirst_eq hfull
  have hfirstLen : firstLen = 255 := rfl
  have hmaxLen : maxLen = 1530 := rfl
  have hconvert := @convertAllPinyinLoop_known dict firstLen maxLen _ (isChar_of_mem_chars haccept)
    ((known_iff name).mpr hknown) _ (length_chars_lt haccept) [] [] (by decide) (by decide)
  rw [flatten_chars] at hconvert
  simp only [List.nil_append] at hconvert
  rw [dict.catPinyin_eq haccept halloc, convertAllPinyin, hconvert]
  have hroom : (((chars name).map dict.firstOf).flatten.length < firstLen ∧
      ((chars name).map dict.fullOf).flatten.length < maxLen) ↔
        (name.length < 255 ∨ ∃ c ∈ chars name, InDict c) := by
    constructor
    · rintro ⟨hlt, -⟩
      by_contra hnot
      push Not at hnot
      have := hfirst_eq.mpr hnot.2
      omega
    · intro hcond
      refine ⟨?_, by omega⟩
      rcases hcond with hlt | ⟨c, hc, hin⟩
      · omega
      · have hne := mt hfirst_eq.mp fun hall => hall c hc hin
        omega
  by_cases hcond : name.length < 255 ∨ ∃ c ∈ chars name, InDict c
  · have hlt := (hroom.mpr hcond).1
    rw [if_pos hcond, if_pos (hroom.mpr hcond), ok_bind]
    simp only [put, List.nil_append]
    rw [if_pos (by omega), ok_bind, if_pos (by simp only [List.length_append, List.length_singleton]; omega), ok_bind,
      pinyin, List.append_assoc]
    rfl
  · rw [if_neg hcond, if_neg (mt hroom.mp hcond)]
    rfl

/-- A name with an unknown character is not converted to its end. -/
theorem catPinyin_unknown {calloc : ℕ → Bool} {name : Bytes} (haccept : isTextUtf8 name = true)
    (halloc : calloc (firstLen + maxLen + 1) = true) (hunknown : ¬ ∀ b ∈ name, b < 0xFE) :
    catPinyin dict.bytes calloc (some name) ≠ .ok (some (dict.pinyin name)) := by
  have hchar : ∃ c ∈ chars name, ¬ Known c := by
    by_contra hnot
    push Not at hnot
    exact hunknown ((known_iff name).mp hnot)
  have hstop := fun f g => @length_of_convertAllPinyinLoop dict firstLen maxLen _ (isChar_of_mem_chars haccept) hchar
    _ (length_chars_lt haccept) [] [] f g
  rw [flatten_chars] at hstop
  rw [dict.catPinyin_eq haccept halloc, convertAllPinyin]
  cases hconvert : convertAllPinyinLoop dict.bytes firstLen maxLen (name.length + 1) name [] [] with
  | error e => exact fun h => by cases h
  | ok p =>
    obtain ⟨f, g⟩ := p
    have hlt := hstop f g hconvert
    rw [ok_bind]
    simp only [put, List.nil_append] at hlt ⊢
    split
    · rw [ok_bind]
      split
      · rw [ok_bind]
        intro h
        have hlen := congrArg List.length (Option.some.inj (Except.ok.inj h))
        simp only [pinyin, List.length_append, List.length_cons, List.length_nil] at hlen
        omega
      · exact fun h => by cases h
    · exact fun h => by cases h

/-- For a name of `NAME_MAX` bytes at most `cat_pinyin` is right exactly when the name is not accepted, or there is
memory for the result, the name has no byte `0xFE` or `0xFF`, and it has room for its terminator in `NAME_MAX` bytes
or a character of the dictionary. -/
theorem catPinyinRight_iff (calloc : ℕ → Bool) {name : Bytes} (hlen : name.length ≤ 255) :
    dict.CatPinyinRight calloc name ↔ (isTextUtf8 name = true → calloc (firstLen + maxLen + 1) = true ∧
      (∀ b ∈ name, b < 0xFE) ∧ (name.length < 255 ∨ ∃ c ∈ chars name, InDict c)) := by
  by_cases haccept : isTextUtf8 name = true
  · simp only [CatPinyinRight, haccept, forall_const]
    by_cases halloc : calloc (firstLen + maxLen + 1) = true
    · by_cases hknown : ∀ b ∈ name, b < 0xFE
      · rw [dict.catPinyin_known hlen haccept halloc hknown]
        by_cases hcond : name.length < 255 ∨ ∃ c ∈ chars name, InDict c
        · simpa [hcond, halloc] using hknown
        · simp [hcond]
      · refine iff_of_false ?_ fun h => hknown h.2.1
        rintro ⟨r, heq, rfl⟩
        exact dict.catPinyin_unknown haccept halloc hknown heq
    · refine iff_of_false ?_ fun h => halloc h.1
      rintro ⟨r, heq, rfl⟩
      rw [catPinyin] at heq
      simp [haccept, halloc] at heq
  · refine iff_of_true ⟨none, ?_, fun h => absurd h haccept⟩ fun h => absurd h haccept
    rw [catPinyin]
    simp [haccept]

/-! ## Names -/

theorem getElem?_flatten_replicate {n i w : ℕ} {x : Bytes} (hx : x.length = w) (hw : 0 < w) (hi : i < n) :
    (List.replicate n x).flatten[i * w]? = x[0]? := by
  induction n generalizing i with
  | zero => omega
  | succ n ih =>
    rw [List.replicate_succ, List.flatten_cons]
    cases i with
    | zero => rw [Nat.zero_mul, List.getElem?_append_left (by omega)]
    | succ i =>
      rw [List.getElem?_append_right (by rw [hx, Nat.succ_mul]; omega), hx, Nat.succ_mul, Nat.add_sub_cancel]
      exact ih (by omega)

/-- `zhong`, and a blank. -/
def zhong : Bytes := [122, 104, 111, 110, 103, 32]

/-- A dictionary that has the syllable of U+4E2D for every character. -/
def zhongDict : PinyinDict where
  bytes := (List.replicate (pinyinUnicodeEnd + 1 - pinyinUnicodeStart) zhong).flatten
  length_eq := by
    rw [List.length_flatten, List.map_replicate, List.sum_replicate_nat]
    rfl
  zero h := by
    obtain ⟨x, hx, hzero⟩ := List.mem_flatten.mp h
    rw [List.eq_of_mem_replicate hx] at hzero
    exact absurd hzero (by decide)
  not_blank i hi := by
    rw [getElem?_flatten_replicate (show zhong.length = maxPinyinLen from rfl) (by decide) hi]
    decide

/-- The letter `a` and U+4E2D. -/
theorem catPinyinRight_iff_sample : zhongDict.CatPinyinRight (fun _ => true) [97, 0xE4, 0xB8, 0xAD] :=
  (zhongDict.catPinyinRight_iff (fun _ => true) (by decide)).mpr fun _ =>
    ⟨rfl, by decide +kernel, .inl (by decide)⟩

/-- 253 letters and one character of two bytes have no room for the terminator in `pinyin_first`; and `0xFE` with
four bytes behind it is taken for a character but ends the conversion. -/
theorem not_catPinyinRight :
    ¬ zhongDict.CatPinyinRight (fun _ => true) (List.replicate 253 97 ++ [0xC3, 0xA9]) ∧
    ¬ zhongDict.CatPinyinRight (fun _ => true) [97, 0xFE, 0x80, 0x80, 0x80, 0x80, 98] := by
  constructor
  · have hcond : ¬ ((List.replicate 253 (97 : UInt8) ++ [0xC3, 0xA9]).length < 255 ∨
        ∃ c ∈ chars (List.replicate 253 97 ++ [0xC3, 0xA9]), InDict c) := by decide +kernel
    rintro ⟨r, heq, -⟩
    rw [zhongDict.catPinyin_known (by decide +kernel) (by decide +kernel) rfl (by decide +kernel),
      if_neg hcond] at heq
    cases heq
  · have haccept : isTextUtf8 [97, 0xFE, 0x80, 0x80, 0x80, 0x80, 98] = true := by decide
    rintro ⟨r, heq, hr⟩
    rw [hr haccept] at heq
    exact zhongDict.catPinyin_unknown haccept rfl (by decide +kernel) heq

end PinyinDict

end DeepinAnything.Chinese
