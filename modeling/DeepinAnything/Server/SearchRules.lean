import DeepinAnything.FsBuf.RuleResults
import DeepinAnything.Lib.Decoder
import DeepinAnything.Server.Search

/-!
# The rules of a search

What `_setRulesByDefault` and `_parseRules` make of the rules of a search that wants a number of results
and excludes names by their beginning. The number is text in a rule; it is read once by Qt and once by
`atoi`.
-/

namespace DeepinAnything.Server

open ByteMem AsciiDecoder

/-! ## Text -/

/-- A text of ASCII characters that a C string can hold. -/
def AsciiText (text : QString) : Prop := ∀ c ∈ text, 0 < c.toNat ∧ c.toNat < 128

namespace AsciiText

variable {text : QString} (h : AsciiText text)
include h

theorem toNat_ofNat {c : Char} (hc : c ∈ text) : (UInt8.ofNat c.toNat).toNat = c.toNat := by
  have := (h c hc).2
  rw [UInt8.toNat_ofNat']
  omega

theorem toLatin1_eq : toLatin1 text = text.map fun c => UInt8.ofNat c.toNat := by
  have hmap : (text.map fun c => if c.toNat < 256 then UInt8.ofNat c.toNat else 63) =
      text.map fun c => UInt8.ofNat c.toNat := List.map_congr_left fun c hc => by
    rw [if_pos (by have := (h c hc).2; omega)]
  rw [toLatin1, hmap]
  refine List.takeWhile_eq_self_iff.mpr fun x hx => ?_
  obtain ⟨c, hc, rfl⟩ := List.mem_map.mp hx
  have hpos := (h c hc).1
  rw [← h.toNat_ofNat hc] at hpos
  simp only [ne_eq, decide_eq_true_eq]
  intro h0
  rw [h0] at hpos
  exact absurd hpos (lt_irrefl _)

theorem map_char : (toLatin1 text).map char = text := by
  rw [h.toLatin1_eq, List.map_map]
  refine (List.map_congr_left fun c hc => ?_).trans (List.map_id text)
  rw [Function.comp_apply, char, h.toNat_ofNat hc, Char.ofNat_toNat, id]

theorem ascii {x : UInt8} (hx : x ∈ toLatin1 text) : Ascii x := by
  rw [h.toLatin1_eq] at hx
  obtain ⟨c, hc, rfl⟩ := List.mem_map.mp hx
  rw [Ascii, h.toNat_ofNat hc]
  exact h c hc

theorem length_toLatin1 : (toLatin1 text).length = text.length := by
  rw [h.toLatin1_eq, List.length_map]

end AsciiText

/-! ## Numbers -/

theorem toNat_of_isDigit {c : Char} (h : c.isDigit) : 48 ≤ c.toNat ∧ c.toNat ≤ 57 := by
  simp only [Char.isDigit, Bool.and_eq_true, decide_eq_true_eq, UInt32.le_iff_toNat_le] at h
  exact h

theorem isDigit_of_mem_toDigits {n : ℕ} {c : Char} (h : c ∈ Nat.toDigits 10 n) : c.isDigit :=
  Nat.isDigit_of_mem_toDigits (by decide) (by decide) h

theorem digitsValue_toDigits (n : ℕ) : digitsValue 10 (Nat.toDigits 10 n) = some n := by
  rw [digitsValue, if_neg Nat.toDigits_ne_nil]
  have hfold : ∀ l : QString, (∀ c ∈ l, c.isDigit) → ∀ m, l.foldlM (fun n c =>
      ((digitValue c).filter (· < 10)).map (10 * n + ·)) m = some (Nat.ofDigitChars 10 l m) := by
    intro l
    induction l with
    | nil => intro _ m; rfl
    | cons c l ih =>
      intro hl m
      have hc := toNat_of_isDigit (hl c List.mem_cons_self)
      have hvalue : digitValue c = some (c.toNat - 48) := by
        rw [digitValue, if_pos]
        simp only [Char.le_def, UInt32.le_iff_toNat_le]
        exact hc
      have hlt : c.toNat - 48 < 10 := by omega
      rw [List.foldlM_cons, hvalue, Nat.ofDigitChars_cons]
      simp only [Option.filter_some, hlt, decide_true, if_true, Option.map_some]
      exact ih (fun d hd => hl d (List.mem_cons_of_mem _ hd)) _
  rw [hfold _ fun c hc => isDigit_of_mem_toDigits hc]
  exact congrArg some Nat.ofDigitChars_ten_toDigits

/-- A number above 0 does not start with a 0. -/
theorem head_toDigits {n : ℕ} (h : 0 < n) {l : QString} : Nat.toDigits 10 n ≠ '0' :: l := by
  induction n using Nat.base_induction 10 (by decide) generalizing l with
  | single m hm =>
    rw [Nat.toDigits_of_lt_base hm]
    intro heq
    rw [List.cons.injEq, Nat.digitChar_eq_zero] at heq
    omega
  | digit m k hk hm ih =>
    rw [← Nat.toDigits_append_toDigits (by decide) hm hk]
    obtain ⟨c, cs, hcs⟩ := List.exists_cons_of_ne_nil (Nat.toDigits_ne_nil (b := 10) (n := m))
    rw [hcs, List.cons_append]
    intro heq
    rw [List.cons.injEq] at heq
    exact ih hm (hcs.trans (by rw [heq.1]))

theorem dropWhile_eq_self {α : Type*} {p : α → Bool} {l : List α} (h : ∀ x ∈ l, p x = false) :
    l.dropWhile p = l := by
  cases l with
  | nil => rfl
  | cons x l => rw [List.dropWhile_cons_of_neg (by simp [h x List.mem_cons_self])]

/-- The characters of a number in a rule. -/
theorem mem_decimal {n : ℤ} {c : Char} (h : c ∈ decimal n) : c = '-' ∨ c.isDigit := by
  rw [decimal] at h
  split at h
  · exact (List.mem_cons.mp h).imp_right isDigit_of_mem_toDigits
  · exact .inr (isDigit_of_mem_toDigits h)

theorem asciiText_decimal (n : ℤ) : AsciiText (decimal n) := fun c hc => by
  rcases mem_decimal hc with rfl | hd
  · decide
  · have := toNat_of_isDigit hd
    omega

theorem isSpace_eq_false {c : Char} (h : 32 < c.toNat ∧ c.toNat < 128) : isSpace c = false := by
  simp only [isSpace, List.mem_cons, List.not_mem_nil, or_false, decide_eq_false_iff_not]
  omega

theorem not_isSpace_of_mem_decimal {n : ℤ} {c : Char} (h : c ∈ decimal n) : isSpace c = false := by
  rcases mem_decimal h with rfl | hd
  · rfl
  · have := toNat_of_isDigit hd
    exact isSpace_eq_false (by omega)

theorem length_decimal_lt {n : ℤ} (h : n.natAbs ≤ 2 ^ 32) : (decimal n).length < targetSize := by
  have hlen : (Nat.toDigits 10 n.natAbs).length ≤ 10 :=
    (Nat.length_toDigits_le_iff (by decide) (by decide)).mpr (lt_of_le_of_lt h (by decide))
  rw [decimal, targetSize]
  split
  · rw [List.length_cons]
    omega
  · omega

/-- `atoi` reads the digits of a number. -/
theorem foldl_toLatin1 {digits : QString} (h : ∀ c ∈ digits, c.isDigit) :
    (∀ x ∈ toLatin1 digits, 48 ≤ x.toNat ∧ x.toNat ≤ 57) ∧ ∀ m : ℕ, (toLatin1 digits).foldl
      (fun (n : ℕ) x => 10 * n + (x.toNat - 48)) m = Nat.ofDigitChars 10 digits m := by
  have htext : AsciiText digits := fun c hc => by
    have := toNat_of_isDigit (h c hc)
    omega
  rw [htext.toLatin1_eq]
  refine ⟨fun x hx => ?_, fun m => ?_⟩
  · obtain ⟨c, hc, rfl⟩ := List.mem_map.mp hx
    rw [htext.toNat_ofNat hc]
    exact toNat_of_isDigit (h c hc)
  · rw [List.foldl_map, Nat.ofDigitChars_eq_foldl]
    refine List.foldl_ext _ _ _ fun n c hc => ?_
    rw [htext.toNat_ofNat hc]
    rfl

theorem strtol_decimal {n : ℤ} (h : -2 ^ 63 ≤ n ∧ n < 2 ^ 63) : strtol (toLatin1 (decimal n)) = n := by
  have hdigits : ∀ c ∈ Nat.toDigits 10 n.natAbs, c.isDigit := fun c hc => isDigit_of_mem_toDigits hc
  obtain ⟨hbytes, hfold⟩ := foldl_toLatin1 hdigits
  have hvalue : ((toLatin1 (Nat.toDigits 10 n.natAbs)).takeWhile fun c => 48 ≤ c ∧ c ≤ 57).foldl
      (fun (n : ℕ) c => 10 * n + (c.toNat - 48)) 0 = n.natAbs := by
    rw [List.takeWhile_eq_self_iff.mpr fun x hx => by
      simpa [UInt8.le_iff_toNat_le] using hbytes x hx, hfold, Nat.ofDigitChars_ten_toDigits]
  have hspace : ∀ c : UInt8, 48 ≤ c.toNat → isspace c = false := by
    intro c hc
    rw [Bool.eq_false_iff]
    intro hspace
    simp only [isspace, Bool.or_eq_true, Bool.and_eq_true, decide_eq_true_eq, UInt8.le_iff_toNat_le,
      ← UInt8.toNat_inj, UInt8.reduceToNat] at hspace
    omega
  by_cases hneg : n < 0
  · have hdec : toLatin1 (decimal n) = 45 :: toLatin1 (Nat.toDigits 10 n.natAbs) := by
      rw [decimal, if_pos hneg]
      rfl
    have hdrop : (toLatin1 (decimal n)).dropWhile isspace = 45 :: toLatin1 (Nat.toDigits 10 n.natAbs) := by
      rw [hdec, List.dropWhile_cons_of_neg (by decide)]
    rw [strtol, hdrop]
    simp only [hvalue]
    omega
  · have hdec : toLatin1 (decimal n) = toLatin1 (Nat.toDigits 10 n.natAbs) := by
      rw [decimal, if_neg hneg]
    rw [strtol, hdec, dropWhile_eq_self fun c hc => hspace c (hbytes c hc).1]
    simp only
    split
    · rename_i s heq
      have := hbytes 45 (by rw [heq]; exact List.mem_cons_self)
      exact absurd this.1 (by decide)
    · rename_i s heq
      have := hbytes 43 (by rw [heq]; exact List.mem_cons_self)
      exact absurd this.1 (by decide)
    · rw [hvalue]
      omega

/-- A number that an `int` holds comes back from its text. -/
theorem atoi_decimal {n : ℤ} (h : -2 ^ 31 ≤ n ∧ n < 2 ^ 31) : atoi (toLatin1 (decimal n)) = n := by
  rw [atoi, strtol_decimal (by omega)]
  exact Int.bmod_eq_of_le (by omega) (by omega)

/-- Qt reads a negative number as 0. -/
theorem toUInt_decimal {n : ℤ} (h : n < 2 ^ 32) : toUInt (decimal n) = n.toNat := by
  have hspace : trimmed (decimal n) = decimal n := by
    rw [trimmed, dropWhile_eq_self fun c hc => not_isSpace_of_mem_decimal hc,
      dropWhile_eq_self fun c hc => not_isSpace_of_mem_decimal (List.mem_reverse.mp hc), List.reverse_reverse]
  have hplus : (decimal n).head? ≠ some '+' := fun hhead => by
    have hmem := mem_decimal (List.mem_of_mem_head? hhead)
    revert hmem
    decide
  rw [toUInt]
  simp only [hspace, hplus, if_false]
  rcases lt_trichotomy n 0 with hneg | rfl | hpos
  · have hdec : decimal n = '-' :: Nat.toDigits 10 n.natAbs := if_pos hneg
    rw [hdec, Int.toNat_of_nonpos hneg.le]
    rfl
  · rfl
  · have hdec : decimal n = Nat.toDigits 10 n.toNat := by
      rw [decimal, if_neg (by omega)]
      congr 1
      omega
    have hzero := @head_toDigits n.toNat (by omega)
    have hvalue := digitsValue_toDigits n.toNat
    have hunsigned : unsignedValue (Nat.toDigits 10 n.toNat) = some n.toNat := by
      rw [← hvalue]
      exact unsignedValue.eq_4 _ (fun _ => hzero) (fun _ => hzero) fun _ => hzero
    rw [hdec, hunsigned, Option.filter_some, if_pos (by simp; omega), Option.getD_some]

/-! ## The rules of a page -/

/-- The rules of a caller that wants pages of `maxCount` results, without names that start with a target. -/
def pageRules (maxCount : ℤ) (targets : List QString) : List Rule :=
  ⟨ruleSearchMaxCount, decimal maxCount⟩ :: targets.map (Rule.mk ruleExcludeSubS)

/-- The targets are ASCII texts without a slash that have room in a rule. -/
def TargetsOk (targets : List QString) : Prop :=
  ∀ target ∈ targets, AsciiText target ∧ '/' ∉ target ∧ target.length < targetSize

/-- The rules that `parallelsearch` searches with. -/
def enteredRules (maxCount : ℤ) (targets : List QString) (startOffset endOffset : ℕ) : List Rule :=
  ⟨ruleSearchRegx, ['0']⟩ :: ⟨ruleSearchIcase, ['0']⟩ :: ⟨ruleSearchStartoff, decimal startOffset⟩ ::
    ⟨ruleSearchEndoff, decimal endOffset⟩ :: pageRules maxCount targets

/-- The exclude rules of the index. -/
def excludeRules (targets : List QString) : List SearchRule :=
  targets.map fun target => ⟨ruleExcludeSubS, toLatin1 target⟩

/-- The rules of the index that the search comes to. -/
def parsedRules (maxCount : ℤ) (targets : List QString) (startOffset endOffset : ℕ) : List SearchRule :=
  ⟨ruleSearchRegx, [48]⟩ :: ⟨ruleSearchIcase, [48]⟩ ::
    ⟨ruleSearchStartoff, toLatin1 (decimal startOffset)⟩ ::
    ⟨ruleSearchEndoff, toLatin1 (decimal endOffset)⟩ ::
    ⟨ruleSearchMaxCount, toLatin1 (decimal maxCount)⟩ :: excludeRules targets

variable {maxCount : ℤ} {targets : List QString} {startOffset endOffset : ℕ}

theorem getRuleArgs_targets {flag : ℕ} (hflag : flag < ruleExcludeSubS) :
    (targets.map (Rule.mk ruleExcludeSubS)).find? (·.flag = flag) = none := by
  refine List.find?_eq_none.mpr fun rule hrule => ?_
  obtain ⟨target, -, rfl⟩ := List.mem_map.mp hrule
  simpa using hflag.ne'

theorem setRulesByDefault_pageRules :
    setRulesByDefault (pageRules maxCount targets) startOffset endOffset =
      enteredRules maxCount targets startOffset endOffset := by
  have hnone : ∀ flag, flag < ruleExcludeSubS → flag ≠ ruleSearchMaxCount →
      getRuleArgs (pageRules maxCount targets) flag = none := fun flag hlt hne => by
    rw [getRuleArgs, if_neg (by omega), pageRules, List.find?_cons_of_neg (by simpa using hne.symm),
      getRuleArgs_targets hlt, Option.map_none]
  have hmax : getRuleArgs (pageRules maxCount targets) ruleSearchMaxCount = some (toUInt (decimal maxCount)) := rfl
  rw [setRulesByDefault]
  simp only [hnone ruleSearchRegx (by decide) (by decide), hnone ruleSearchIcase (by decide) (by decide),
    hnone ruleSearchStartoff (by decide) (by decide), hnone ruleSearchEndoff (by decide) (by decide), hmax]
  rfl

/-- The settings that `_enterSearch` reads from the rules. -/
theorem getRuleArgs_enteredRules (hmax : maxCount < 2 ^ 32) (hstart : startOffset < 2 ^ 32)
    (hend : endOffset < 2 ^ 32) :
    getRuleArgs (enteredRules maxCount targets startOffset endOffset) ruleSearchMaxCount =
        some maxCount.toNat ∧
      getRuleArgs (enteredRules maxCount targets startOffset endOffset) ruleSearchStartoff =
        some startOffset ∧
      getRuleArgs (enteredRules maxCount targets startOffset endOffset) ruleSearchEndoff = some endOffset := by
  have hnat : ∀ n : ℕ, n < 2 ^ 32 → toUInt (decimal n) = n := fun n hn => by
    rw [toUInt_decimal (by exact_mod_cast hn), Int.toNat_natCast]
  refine ⟨?_, ?_, ?_⟩
  · rw [← toUInt_decimal hmax]
    rfl
  · conv_rhs => rw [← hnat startOffset hstart]
    rfl
  · conv_rhs => rw [← hnat endOffset hend]
    rfl

theorem getRuleStrings_enteredRules :
    getRuleStrings (enteredRules maxCount targets startOffset endOffset) ruleExcludeSubS = targets := by
  have hfilter : (targets.map (Rule.mk ruleExcludeSubS)).filter (·.flag = ruleExcludeSubS) =
      targets.map (Rule.mk ruleExcludeSubS) := by
    refine List.filter_eq_self.mpr fun rule hrule => ?_
    obtain ⟨target, -, rfl⟩ := List.mem_map.mp hrule
    exact decide_eq_true rfl
  have hall : (enteredRules maxCount targets startOffset endOffset).filter (·.flag = ruleExcludeSubS) =
      (targets.map (Rule.mk ruleExcludeSubS)).filter (·.flag = ruleExcludeSubS) := rfl
  rw [getRuleStrings, if_neg (by decide), hall, hfilter, List.map_map]
  exact List.map_id targets

/-- `_parseRules` copies texts that have room. -/
theorem mapM_parseRule {rules : List Rule} (h : ∀ rule ∈ rules, (toLatin1 rule.text).length < targetSize) :
    rules.mapM parseRule = .ok (rules.map fun rule => ⟨rule.flag % 256, toLatin1 rule.text⟩) :=
  Paging.mapM_eq_pure fun rule hrule => if_pos (h rule hrule)

theorem parseRules_enteredRules (htargets : TargetsOk targets) (hmax : maxCount.natAbs ≤ 2 ^ 32)
    (hstart : startOffset ≤ 2 ^ 32) (hend : endOffset ≤ 2 ^ 32) :
    parseRules (enteredRules maxCount targets startOffset endOffset) =
      .ok (parsedRules maxCount targets startOffset endOffset) := by
  have hdecimal : ∀ n : ℤ, n.natAbs ≤ 2 ^ 32 → (toLatin1 (decimal n)).length < targetSize := fun n hn => by
    rw [(asciiText_decimal n).length_toLatin1]
    exact length_decimal_lt hn
  rw [parseRules, mapM_parseRule]
  · simp only [enteredRules, pageRules, parsedRules, excludeRules, List.map_cons, List.map_map]
    rfl
  · intro rule hrule
    simp only [enteredRules, pageRules, List.mem_cons, List.mem_map] at hrule
    rcases hrule with rfl | rfl | rfl | rfl | rfl | ⟨target, htarget, rfl⟩
    · decide
    · decide
    · exact hdecimal startOffset hstart
    · exact hdecimal endOffset hend
    · exact hdecimal _ hmax
    · obtain ⟨htext, -, hlen⟩ := htargets target htarget
      rw [htext.length_toLatin1]
      exact hlen

/-! ### What the index makes of them -/

theorem ruleType_of_mem_excludeRules {rule : SearchRule} (h : rule ∈ excludeRules targets) :
    ruleType rule.flag = excludeRule := by
  obtain ⟨target, -, rfl⟩ := List.mem_map.mp h
  rfl

theorem defined_parsedRules : Defined (parsedRules maxCount targets startOffset endOffset) := by
  intro rule hrule
  simp only [parsedRules, List.mem_cons] at hrule
  rcases hrule with rfl | rfl | rfl | rfl | rfl | hrule
  · exact (by decide : ruleType ruleSearchRegx ≠ 0)
  · exact (by decide : ruleType ruleSearchIcase ≠ 0)
  · exact (by decide : ruleType ruleSearchStartoff ≠ 0)
  · exact (by decide : ruleType ruleSearchEndoff ≠ 0)
  · exact (by decide : ruleType ruleSearchMaxCount ≠ 0)
  · rw [ruleType_of_mem_excludeRules hrule]
    decide

theorem rulesOf_parsedRules :
    rulesOf (parsedRules maxCount targets startOffset endOffset) excludeRule = excludeRules targets ∧
      rulesOf (parsedRules maxCount targets startOffset endOffset) includeRule = [] := by
  have hskip : ∀ type, type ≠ searchRule →
      rulesOf (parsedRules maxCount targets startOffset endOffset) type = rulesOf (excludeRules targets) type := by
    intro type htype
    have hdrop : ∀ flag (target : Bytes) (rules : List SearchRule), ruleType flag = searchRule →
        rulesOf (⟨flag, target⟩ :: rules) type = rulesOf rules type := fun flag target rules hflag => by
      rw [rulesOf, List.filter_cons_of_neg (by simpa [hflag] using htype.symm), rulesOf]
    rw [parsedRules, hdrop _ _ _ rfl, hdrop _ _ _ rfl, hdrop _ _ _ rfl, hdrop _ _ _ rfl, hdrop _ _ _ rfl]
  refine ⟨?_, ?_⟩
  · rw [hskip _ (by decide)]
    exact List.filter_eq_self.mpr fun rule hrule => decide_eq_true (ruleType_of_mem_excludeRules hrule)
  · rw [hskip _ (by decide)]
    refine List.filter_eq_nil_iff.mpr fun rule hrule => ?_
    rw [ruleType_of_mem_excludeRules hrule]
    decide

theorem atoi_parsedRules (h : -2 ^ 31 ≤ maxCount ∧ maxCount < 2 ^ 31) :
    atoi (getRuleValue (parsedRules maxCount targets startOffset endOffset) ruleSearchMaxCount) = maxCount :=
  atoi_decimal h

/-- Without a rule about it, a name matches that holds the keyword. -/
theorem comparator_parsedRules (m : Matcher) (query name : Bytes) :
    m.comparator (parsedRules maxCount targets startOffset endOffset) query name = decide (query <:+: name) := by
  have hpinyin : getRuleValue (parsedRules maxCount targets startOffset endOffset) ruleSearchPinyin = [48] := by
    have hfind : (excludeRules targets).find? (·.flag = ruleSearchPinyin) = none := by
      refine List.find?_eq_none.mpr fun rule hrule => ?_
      obtain ⟨target, -, rfl⟩ := List.mem_map.mp hrule
      exact (by decide : ¬ decide (ruleExcludeSubS = ruleSearchPinyin) = true)
    show ((((parsedRules maxCount targets startOffset endOffset).find? (·.flag = ruleSearchPinyin)).map
      SearchRule.target).getD [48]) = [48]
    simp only [parsedRules, List.find?_cons, hfind]
    rfl
  have hzero : atoi [48] = 0 := by decide
  have hregx : getRuleValue (parsedRules maxCount targets startOffset endOffset) ruleSearchRegx = [48] := rfl
  have hicase : getRuleValue (parsedRules maxCount targets startOffset endOffset) ruleSearchIcase = [48] := rfl
  simp only [Matcher.comparator, hpinyin, hregx, hicase, hzero]
  simp [Matcher.withPinyin, Matcher.doMatchStr]

end DeepinAnything.Server
