import Mathlib.Data.List.Find
import DeepinAnything.Server.SearchRules

/-!
# The rule strings of a search (`lftmanager.cpp`, `fs_buf.c`)

A rule comes as a string `0xHH<text>`. `_getRuleArgs` looks for it among the strings; `_parseRules` makes a list for the
index of them, of which `get_rules` takes out the rules of a class, `check_name` asks them, and `get_rule_value` looks
for one. A string that is no rule is a rule of flag 0 in that list, and what reads the list looks at the flag of the
first rule to find out whether there are any.
-/

namespace DeepinAnything.Server

open ByteMem

/-! ## Text -/

/-- A code unit as a character, if it is one. -/
def unitChar (u : UInt16) : Char := Char.ofNat u.toNat

/-- `QString::toInt` with base 0. -/
def toInt (text : QString) : Option ℤ :=
  match trimmed text with
  | '-' :: text => ((unsignedValue text).filter (· ≤ 2 ^ 31)).map fun n : ℕ => -(n : ℤ)
  | '+' :: text => ((unsignedValue text).filter (· < 2 ^ 31)).map fun n : ℕ => (n : ℤ)
  | text => ((unsignedValue text).filter (· < 2 ^ 31)).map fun n : ℕ => (n : ℤ)

namespace Utf16

def toInt (text : Utf16) : Option ℤ := Server.toInt (text.map unitChar)

def toUInt (text : Utf16) : ℕ := Server.toUInt (text.map unitChar)

/-- `QString::toLatin1`, up to a terminator. -/
def toLatin1 (text : Utf16) : Bytes :=
  (text.map fun u => if u.toNat < 256 then u.toUInt8 else 63).takeWhile (· ≠ 0)

end Utf16

/-! ## The code -/

namespace RuleStrings

/-- The test at the start of the loops over the rule strings. -/
def isRule (rule : Utf16) : Bool := 4 ≤ rule.length ∧ [48, 120] <+: rule

/-- `_getRuleArgs` -/
def getRuleArgs (rules : List Utf16) (searchFlag : ℕ) : Option ℕ :=
  if searchFlag ≥ ruleExcludeSubS then none
  else
    (rules.find? fun rule => isRule rule ∧ Utf16.toInt (rule.take 4) = some (searchFlag : ℤ)).map
      fun rule => Utf16.toUInt (rule.drop 4)

/-- `flag` of `_parseRules`; what is not a number is 0. -/
def ruleFlag (rule : Utf16) : ℕ := (((Utf16.toInt (rule.take 4)).getD 0) % 256).toNat

/-- A turn of the loop of `_parseRules` for what begins as a rule. -/
def parseRule (rule : Utf16) : Except Fault SearchRule :=
  let content := Utf16.toLatin1 (rule.drop 4)
  if content.length < targetSize then .ok ⟨ruleFlag rule, content⟩ else .error .outOfBounds

/-- `_parseRules`, with no rules for a list that is not used. -/
def parseRules (rules : List Utf16) : Except Fault (List SearchRule) := do
  let parsed ← (rules.filter isRule).mapM parseRule
  return if (parsed.head?.map SearchRule.flag).getD ruleNone = ruleNone then [] else parsed

end RuleStrings

/-! ## The reading of a list -/

/-- The rule that a string stands for: `0x`, two hexadecimal digits of a defined flag, and the text. -/
def readRule (toLocal8Bit : Utf16 → Bytes) (rule : Utf16) : Option SearchRule :=
  match rule with
  | 48 :: 120 :: h :: l :: text =>
    match digitValue (unitChar h), digitValue (unitChar l) with
    | some h, some l => if ruleType (16 * h + l) = 0 then none else some ⟨16 * h + l, toLocal8Bit text⟩
    | _, _ => none
  | _ => none

/-- The name is the text of the rule, or begins or ends with it. -/
def RuleMatches (rule : SearchRule) (name : Bytes) : Prop :=
  rule.flag = ruleExcludePath ∧ name = rule.target ∨
    (rule.flag = ruleExcludeSubS ∨ rule.flag = ruleIncludeSubS) ∧ rule.target <+: name ∨
    AsksEnd rule ∧ rule.target <:+ name

/-- The list `list` that the index gets for the rule strings means what they mean, for the name at an offset: its rules
are those of the strings; so are their classes and their values; asking a class looks at nothing in front of the buffer,
and it has the name exactly if a rule of the class matches it; and a number is the same for `_getRuleArgs` and for the
index. -/
structure ListRight (toLocal8Bit : Utf16 → Bytes) (rules : List Utf16) (b : FsBuf) (nameOff : ℕ)
    (list : List SearchRule) : Prop where
  contributes : list.filter (ruleType ·.flag ≠ 0) = rules.filterMap (readRule toLocal8Bit)
  types : ∀ type, (getRules list type).1 =
    (rules.filterMap (readRule toLocal8Bit)).foldl (fun reRule rule => reRule ||| ruleType rule.flag) 0
  value : ∀ flag, ruleType flag = searchRule → getRuleValue list flag =
    (((rules.filterMap (readRule toLocal8Bit)).find? (·.flag = flag)).map SearchRule.target).getD [48]
  accepts : ∀ type ∈ [excludeRule, includeRule], ∃ v, b.checkName nameOff (getRules list type).2 = some v ∧
    (v = true ↔ ∃ r ∈ rulesOf (rules.filterMap (readRule toLocal8Bit)) type, RuleMatches r (b.strAt nameOff))
  numbers : ∀ flag, ruleType flag = searchRule → ∀ n, RuleStrings.getRuleArgs rules flag = some n →
    atoi (getRuleValue list flag) = n

/-- `_parseRules` writes no target past its end, and its list is right. -/
def RulesRight (toLocal8Bit : Utf16 → Bytes) (rules : List Utf16) (b : FsBuf) (nameOff : ℕ) : Prop :=
  ∃ list, RuleStrings.parseRules rules = .ok list ∧ ListRight toLocal8Bit rules b nameOff list

/-! ## When a list is right -/

/-- Behind `0x` there is one hexadecimal digit and a space; Qt reads the digit. -/
def LooseFlag (rule : Utf16) (n : ℕ) : Prop :=
  ∃ h l text, rule = 48 :: 120 :: h :: l :: text ∧ digitValue (unitChar h) = some n ∧ isSpace (unitChar l) = true

/-- The first string that Qt reads a flag from. -/
def firstOf (rules : List Utf16) (flag : ℕ) : Option Utf16 :=
  rules.find? fun rule => RuleStrings.isRule rule ∧ Utf16.toInt (rule.take 4) = some (flag : ℤ)

/-- The flags of the list that `_parseRules` makes. -/
def listFlags (rules : List Utf16) : List ℕ := (rules.filter RuleStrings.isRule).map RuleStrings.ruleFlag

/-- The first flag that `get_rules` puts into a class is 0: it is that of a string which is no rule. -/
def Blocked (rules : List Utf16) (type : ℕ) : Prop :=
  (listFlags rules).find? (fun flag => ruleType flag = type ∨ ruleType flag = 0) = some ruleNone

instance (rules : List Utf16) (type : ℕ) : Decidable (Blocked rules type) := inferInstanceAs (Decidable (_ = _))

/-- A rule for the end of names is longer than the name and is met by it and the bytes in front of it. -/
def MetInFront (b : FsBuf) (nameOff : ℕ) (rule : SearchRule) : Prop :=
  AsksEnd rule ∧ (b.strAt nameOff).length < rule.target.length ∧
    rule.target.length ≤ nameOff + (b.strAt nameOff).length ∧
    b.head.load (nameOff + (b.strAt nameOff).length - rule.target.length) rule.target.length = rule.target

/-- A rule for the end of names is longer than all that stands in front of the end of the name. -/
def TooLong (b : FsBuf) (nameOff : ℕ) (rule : SearchRule) : Prop :=
  AsksEnd rule ∧ nameOff + (b.strAt nameOff).length < rule.target.length

/-- The texts of the rules are the same in Latin-1 and in the local encoding; no string gives a defined flag with a
space; a class that is blocked has no rule that matches the name; in another one, before a rule that is longer than all
that stands in front of the end of the name there is one that is met, and if a rule is met by the bytes in front of the
name, then there is one that matches it; and the text of the first rule of a number is the same number to Qt and to
`atoi`. -/
structure ListFits (toLocal8Bit : Utf16 → Bytes) (rules : List Utf16) (b : FsBuf) (nameOff : ℕ) : Prop where
  encoded : ∀ rule ∈ rules, ∀ r, readRule toLocal8Bit rule = some r →
    Utf16.toLatin1 (rule.drop 4) = toLocal8Bit (rule.drop 4)
  strict : ∀ rule ∈ rules, ∀ n, LooseFlag rule n → ruleType n = 0
  unblocked : ∀ type ∈ [excludeRule, includeRule], Blocked rules type →
    ∀ r ∈ rulesOf (rules.filterMap (readRule toLocal8Bit)) type, ¬ RuleMatches r (b.strAt nameOff)
  asked_inside : ∀ type ∈ [excludeRule, includeRule], ¬ Blocked rules type →
    ∀ pre r post, rulesOf (rules.filterMap (readRule toLocal8Bit)) type = pre ++ r :: post → TooLong b nameOff r →
      ∃ r' ∈ pre, RuleMatches r' (b.strAt nameOff) ∨ MetInFront b nameOff r'
  inside : ∀ type ∈ [excludeRule, includeRule], ¬ Blocked rules type →
    ∀ r ∈ rulesOf (rules.filterMap (readRule toLocal8Bit)) type, MetInFront b nameOff r →
      ∃ r' ∈ rulesOf (rules.filterMap (readRule toLocal8Bit)) type, RuleMatches r' (b.strAt nameOff)
  numbers : ∀ flag, ruleType flag = searchRule → ∀ rule, firstOf rules flag = some rule →
    atoi (Utf16.toLatin1 (rule.drop 4)) = Utf16.toUInt (rule.drop 4)

/-- Every text has room; and the first string is no rule, no other is one, and no number is read from one, or the
first string is a rule, and the list fits. -/
def RulesFit (toLocal8Bit : Utf16 → Bytes) (rules : List Utf16) (b : FsBuf) (nameOff : ℕ) : Prop :=
  (∀ rule ∈ rules, RuleStrings.isRule rule → (Utf16.toLatin1 (rule.drop 4)).length < targetSize) ∧
    ((listFlags rules).head? = some ruleNone ∧ rules.filterMap (readRule toLocal8Bit) = [] ∧
        (∀ flag, ruleType flag = searchRule → ∀ rule, firstOf rules flag = some rule →
          Utf16.toUInt (rule.drop 4) = 0) ∨
      (listFlags rules).head? ≠ some ruleNone ∧ ListFits toLocal8Bit rules b nameOff)

/-! ## One string -/

theorem digitValue_bounds {c : Char} {n : ℕ} (h : digitValue c = some n) :
    n < 16 ∧ 48 ≤ c.toNat ∧ c.toNat ≤ 102 := by
  simp only [digitValue, Char.le_def, UInt32.le_iff_toNat_le] at h
  have hval : c.val.toNat = c.toNat := rfl
  simp only [hval, Char.reduceVal, UInt32.reduceToNat] at h
  split_ifs at h with h₁ h₂ h₃
  all_goals
    obtain rfl := Option.some.inj h
    omega

theorem filter_digitValue (c : Char) : (digitValue c).filter (· < 16) = digitValue c := by
  cases hc : digitValue c with
  | none => rfl
  | some n => rw [Option.filter_some, if_pos (decide_eq_true (digitValue_bounds hc).1)]

theorem digitsValue_two (h l : Char) : digitsValue 16 [h, l] =
    (digitValue h).bind fun a => (digitValue l).map fun c => 16 * a + c := by
  rw [digitsValue, if_neg (by simp)]
  simp only [List.foldlM_cons, List.foldlM_nil, filter_digitValue]
  cases digitValue h with
  | none => rfl
  | some a => cases digitValue l <;> simp

theorem digitsValue_one (h : Char) : digitsValue 16 [h] = digitValue h := by
  rw [digitsValue, if_neg (by simp)]
  simp only [List.foldlM_cons, List.foldlM_nil, filter_digitValue]
  cases digitValue h <;> simp

theorem isSpace_of_digitValue {c : Char} {n : ℕ} (h : digitValue c = some n) : isSpace c = false :=
  isSpace_eq_false ⟨by have := digitValue_bounds h; omega, by have := digitValue_bounds h; omega⟩

theorem digitValue_of_isSpace {c : Char} (h : isSpace c = true) : digitValue c = none := by
  rw [Option.eq_none_iff_forall_ne_some]
  intro n hn
  rw [isSpace_of_digitValue hn] at h
  exact absurd h (by decide)

/-- What stands behind `0x`, without white space. -/
theorem trimmed_hex (h l : Char) : trimmed ['0', 'x', h, l] =
    if isSpace l = true then if isSpace h = true then ['0', 'x'] else ['0', 'x', h] else ['0', 'x', h, l] := by
  have hzero : isSpace '0' = false := by decide
  have hx : isSpace 'x' = false := by decide
  rw [trimmed, List.dropWhile_cons_of_neg (by simp [hzero])]
  show (List.dropWhile isSpace [l, h, 'x', '0']).reverse = _
  rw [List.dropWhile_cons]
  split
  · rw [List.dropWhile_cons]
    split
    · rw [List.dropWhile_cons_of_neg (by simp [hx])]
      rfl
    · rfl
  · rfl

theorem toInt_of_trimmed {text digits : QString} (h : trimmed text = '0' :: 'x' :: digits) :
    toInt text = ((digitsValue 16 digits).filter (· < 2 ^ 31)).map fun n : ℕ => (n : ℤ) := by
  rw [toInt, h]
  rfl

/-- The flag that Qt reads behind `0x`. -/
theorem toInt_hex (h l : UInt16) (text : Utf16) : Utf16.toInt ((48 :: 120 :: h :: l :: text).take 4) =
    match digitValue (unitChar h), digitValue (unitChar l) with
    | some a, some c => some ((16 * a + c : ℕ) : ℤ)
    | some a, none => if isSpace (unitChar l) = true then some (a : ℤ) else none
    | none, _ => none := by
  have htrimmed := trimmed_hex (unitChar h) (unitChar l)
  show toInt ['0', 'x', unitChar h, unitChar l] = _
  by_cases hl : isSpace (unitChar l) = true
  · have hnone := digitValue_of_isSpace hl
    rw [if_pos hl] at htrimmed
    cases hh : digitValue (unitChar h) with
    | none =>
      split_ifs at htrimmed with hspace
      · rw [toInt_of_trimmed htrimmed]
        rfl
      · rw [toInt_of_trimmed htrimmed, digitsValue_one, hh]
        rfl
    | some a =>
      rw [if_neg (by simp [isSpace_of_digitValue hh])] at htrimmed
      have ha := (digitValue_bounds hh).1
      rw [toInt_of_trimmed htrimmed, digitsValue_one, hh, hnone, Option.filter_some,
        if_pos (by rw [decide_eq_true_eq]; omega)]
      simp [hl]
  · rw [if_neg hl] at htrimmed
    rw [toInt_of_trimmed htrimmed, digitsValue_two]
    cases hh : digitValue (unitChar h) with
    | none => rfl
    | some a =>
      cases hc : digitValue (unitChar l) with
      | none => simp [hl]
      | some c =>
        have ha := (digitValue_bounds hh).1
        have hc := (digitValue_bounds hc).1
        rw [Option.bind_some, Option.map_some, Option.filter_some, if_pos (by rw [decide_eq_true_eq]; omega)]
        rfl

/-! ## Lists -/

section Lists

variable {α β ε : Type*} {l : List α}

theorem exists_ok_of_mapM {f : α → Except ε β} {ys : List β} (h : l.mapM f = .ok ys) {x : α} (hx : x ∈ l) :
    ∃ y, f x = .ok y := by
  induction l generalizing ys with
  | nil => simp at hx
  | cons a l ih =>
    rw [List.mapM_cons] at h
    cases ha : f a with
    | error e =>
      rw [ha] at h
      cases h
    | ok y =>
      rcases List.mem_cons.mp hx with rfl | hx
      · exact ⟨y, ha⟩
      · cases hl : l.mapM f with
        | error e =>
          rw [ha, hl] at h
          cases h
        | ok ys => exact ih hl hx

theorem length_filterMap_le {f g : α → Option β} (h : ∀ x ∈ l, (g x).isSome → (f x).isSome) :
    (l.filterMap g).length ≤ (l.filterMap f).length := by
  rw [List.length_filterMap_eq_countP, List.length_filterMap_eq_countP]
  exact List.countP_mono_left h

/-- When `g` only gives where `f` does, both give the same list only if they agree everywhere. -/
theorem filterMap_eq_iff {f g : α → Option β} (h : ∀ x ∈ l, (g x).isSome → (f x).isSome) :
    l.filterMap f = l.filterMap g ↔ ∀ x ∈ l, f x = g x := by
  refine ⟨fun heq => ?_, List.filterMap_congr⟩
  induction l with
  | nil => exact fun x hx => absurd hx List.not_mem_nil
  | cons a l ih =>
    have hl : ∀ x ∈ l, (g x).isSome → (f x).isSome := fun x hx => h x (List.mem_cons_of_mem _ hx)
    have ha := h a List.mem_cons_self
    rw [List.filterMap_cons, List.filterMap_cons] at heq
    cases hg : g a with
    | none =>
      cases hf : f a with
      | none =>
        rw [hf, hg] at heq
        exact List.forall_mem_cons.mpr ⟨hf.trans hg.symm, ih hl heq⟩
      | some y =>
        rw [hf, hg] at heq
        have heq : y :: l.filterMap f = l.filterMap g := heq
        have hlength := length_filterMap_le hl
        rw [← heq, List.length_cons] at hlength
        omega
    | some z =>
      obtain ⟨y, hf⟩ := Option.isSome_iff_exists.mp (ha (by rw [hg]; rfl))
      rw [hf, hg, List.cons.injEq] at heq
      exact List.forall_mem_cons.mpr ⟨by rw [hf, hg, heq.1], ih hl heq.2⟩

end Lists

namespace RuleStrings

variable {toLocal8Bit : Utf16 → Bytes} {rules : List Utf16} {rule : Utf16} {flag : ℕ} {r : SearchRule}

theorem isRule_iff : isRule rule = true ↔ ∃ h l text, rule = 48 :: 120 :: h :: l :: text := by
  rw [isRule, decide_eq_true_eq]
  constructor
  · rintro ⟨hlen, rest, rfl⟩
    match rest, hlen with
    | h :: l :: text, _ => exact ⟨h, l, text, rfl⟩
  · rintro ⟨h, l, text, rfl⟩
    exact ⟨by simp, h :: l :: text, rfl⟩

/-- What Qt reads for a flag is the flag in the list. -/
theorem toInt_eq_iff (hrule : isRule rule = true) (hflag : flag ≠ 0) :
    Utf16.toInt (rule.take 4) = some (flag : ℤ) ↔ ruleFlag rule = flag := by
  obtain ⟨h, l, text, rfl⟩ := isRule_iff.mp hrule
  rw [ruleFlag, toInt_hex]
  cases hh : digitValue (unitChar h) with
  | none => simp [hflag.symm]
  | some a =>
    have ha := (digitValue_bounds hh).1
    cases hl : digitValue (unitChar l) with
    | none =>
      by_cases hspace : isSpace (unitChar l) = true
      · simp only [hspace, if_true, Option.getD_some, Option.some.injEq]
        omega
      · simp [hspace, hflag.symm]
    | some c =>
      have hc := (digitValue_bounds hl).1
      simp only [Option.getD_some, Option.some.injEq]
      omega

/-- A flag above 0 is two hexadecimal digits, or one and a space. -/
theorem readRule_or_loose (hrule : isRule rule = true) (hflag : ruleFlag rule = flag) (hne : flag ≠ 0) :
    readRule toLocal8Bit rule = (if ruleType flag = 0 then none else some ⟨flag, toLocal8Bit (rule.drop 4)⟩) ∧
        (∀ n, ¬ LooseFlag rule n) ∨
      readRule toLocal8Bit rule = none ∧ LooseFlag rule flag := by
  obtain ⟨h, l, text, rfl⟩ := isRule_iff.mp hrule
  rw [ruleFlag, toInt_hex] at hflag
  cases hh : digitValue (unitChar h) with
  | none =>
    rw [hh] at hflag
    exact absurd hflag.symm hne
  | some a =>
    have ha := (digitValue_bounds hh).1
    rw [hh] at hflag
    cases hl : digitValue (unitChar l) with
    | none =>
      rw [hl] at hflag
      right
      by_cases hspace : isSpace (unitChar l) = true
      · simp only [hspace, if_true, Option.getD_some] at hflag
        obtain rfl : a = flag := by omega
        exact ⟨by simp [readRule, hh, hl], h, l, text, rfl, hh, hspace⟩
      · simp only [hspace, Bool.false_eq_true, if_false, Option.getD_none] at hflag
        exact absurd hflag.symm hne
    | some c =>
      rw [hl] at hflag
      have hc := (digitValue_bounds hl).1
      simp only [Option.getD_some] at hflag
      obtain rfl : 16 * a + c = flag := by omega
      left
      refine ⟨by simp [readRule, hh, hl], ?_⟩
      rintro n ⟨h', l', text', heq, -, hspace⟩
      injection heq with _ heq
      injection heq with _ heq
      injection heq with _ heq
      injection heq with heq _
      rw [← heq, isSpace_of_digitValue hl] at hspace
      exact absurd hspace (by decide)

/-- With one digit and a space a string gives a flag, and is no rule. -/
theorem loose_spec {n : ℕ} (hloose : LooseFlag rule n) :
    isRule rule = true ∧ ruleFlag rule = n ∧ ∀ toLocal8Bit, readRule toLocal8Bit rule = none := by
  obtain ⟨h, l, text, rfl, hh, hspace⟩ := hloose
  have hn := (digitValue_bounds hh).1
  have hl := digitValue_of_isSpace hspace
  refine ⟨isRule_iff.mpr ⟨h, l, text, rfl⟩, ?_, fun toLocal8Bit => by simp [readRule, hh, hl]⟩
  rw [ruleFlag, toInt_hex, hh, hl]
  simp only [hspace, if_true, Option.getD_some]
  omega

/-- A string that is read is a rule, with the flag that is in the list. -/
theorem isRule_of_readRule (h : readRule toLocal8Bit rule = some r) :
    isRule rule = true ∧ ruleType r.flag ≠ 0 ∧ ruleFlag rule = r.flag ∧ r.target = toLocal8Bit (rule.drop 4) := by
  unfold readRule at h
  split at h
  · rename_i u v text
    split at h
    · rename_i a c ha hc
      split_ifs at h with htype
      obtain rfl := Option.some.inj h
      have ha' := (digitValue_bounds ha).1
      have hc' := (digitValue_bounds hc).1
      refine ⟨isRule_iff.mpr ⟨u, v, text, rfl⟩, htype, ?_, rfl⟩
      rw [ruleFlag, toInt_hex, ha, hc]
      simp only [Option.getD_some]
      omega
    · simp at h
  · simp at h

/-! ## The list for the index -/

/-- What `_parseRules` makes of a string. -/
def entry (rule : Utf16) : SearchRule := ⟨ruleFlag rule, Utf16.toLatin1 (rule.drop 4)⟩

def entries (rules : List Utf16) : List SearchRule := (rules.filter isRule).map entry

theorem listFlags_eq (rules : List Utf16) : listFlags rules = (entries rules).map SearchRule.flag := by
  rw [listFlags, entries, List.map_map]
  rfl

theorem parseRule_eq_ok : parseRule rule = .ok r ↔
    (Utf16.toLatin1 (rule.drop 4)).length < targetSize ∧ entry rule = r := by
  rw [parseRule]
  split
  · rename_i hroom
    rw [Except.ok.injEq]
    exact ⟨fun heq => ⟨hroom, heq⟩, fun h => h.2⟩
  · rename_i hroom
    exact iff_of_false (by simp) fun h => hroom h.1

theorem parseRules_ok (hroom : ∀ rule ∈ rules, isRule rule → (Utf16.toLatin1 (rule.drop 4)).length < targetSize) :
    parseRules rules = .ok (if (listFlags rules).head? = some ruleNone then [] else entries rules) := by
  have hmap : (rules.filter isRule).mapM parseRule = .ok (entries rules) :=
    Paging.mapM_eq_pure fun rule hrule => parseRule_eq_ok.mpr
      ⟨hroom rule (List.mem_of_mem_filter hrule) (List.mem_filter.mp hrule).2, rfl⟩
  rw [parseRules, hmap, listFlags_eq, List.head?_map]
  show Except.ok _ = _
  cases hentries : entries rules with
  | nil => rfl
  | cons first rest => by_cases hfirst : first.flag = ruleNone <;> simp [hfirst]

theorem room_of_parseRules {list : List SearchRule} (h : parseRules rules = .ok list) :
    ∀ rule ∈ rules, isRule rule → (Utf16.toLatin1 (rule.drop 4)).length < targetSize := by
  intro rule hrule his
  cases hmap : (rules.filter isRule).mapM parseRule with
  | error f =>
    rw [parseRules, hmap] at h
    cases h
  | ok parsed =>
    obtain ⟨r, hr⟩ := exists_ok_of_mapM hmap (List.mem_filter.mpr ⟨hrule, his⟩)
    exact (parseRule_eq_ok.mp hr).1

/-- What a string gives to the rules that are defined. -/
theorem filter_entries (rules : List Utf16) : (entries rules).filter (ruleType ·.flag ≠ 0) =
    rules.filterMap fun rule => if isRule rule ∧ ruleType (ruleFlag rule) ≠ 0 then some (entry rule) else none := by
  induction rules with
  | nil => rfl
  | cons rule rules ih =>
    rw [entries] at ih ⊢
    by_cases his : isRule rule = true
    · by_cases htype : ruleType (ruleFlag rule) = 0
      · simpa [his, htype, entry] using ih
      · simpa [his, htype, entry] using ih
    · simpa [his] using ih

theorem contributes_iff : (entries rules).filter (ruleType ·.flag ≠ 0) = rules.filterMap (readRule toLocal8Bit) ↔
    (∀ rule ∈ rules, ∀ r, readRule toLocal8Bit rule = some r →
      Utf16.toLatin1 (rule.drop 4) = toLocal8Bit (rule.drop 4)) ∧
    ∀ rule ∈ rules, ∀ n, LooseFlag rule n → ruleType n = 0 := by
  have hread : ∀ rule r, readRule toLocal8Bit rule = some r → (if isRule rule ∧ ruleType (ruleFlag rule) ≠ 0 then
      some (entry rule) else none) = some (entry rule) := by
    intro rule r hr
    obtain ⟨his, htype, hflag, -⟩ := isRule_of_readRule hr
    rw [if_pos ⟨his, hflag ▸ htype⟩]
  rw [filter_entries, filterMap_eq_iff fun rule _ hsome => by
    obtain ⟨r, hr⟩ := Option.isSome_iff_exists.mp hsome
    rw [hread rule r hr]
    rfl]
  constructor
  · intro heq
    refine ⟨fun rule hrule r hr => ?_, fun rule hrule n hloose => ?_⟩
    · have hsame := heq rule hrule
      rw [hread rule r hr, hr, Option.some.injEq] at hsame
      rw [← (isRule_of_readRule hr).2.2.2, ← hsame]
      rfl
    · by_contra htype
      obtain ⟨his, hflag, hnone⟩ := loose_spec hloose
      have hsame := heq rule hrule
      rw [if_pos ⟨his, by rwa [hflag]⟩, hnone toLocal8Bit] at hsame
      cases hsame
  · rintro ⟨hencoded, hstrict⟩ rule hrule
    cases hr : readRule toLocal8Bit rule with
    | some r =>
      obtain ⟨-, -, hflag, htarget⟩ := isRule_of_readRule hr
      rw [hread rule r hr, entry, hflag, hencoded rule hrule r hr, ← htarget]
    | none =>
      rw [if_neg]
      rintro ⟨his, htype⟩
      have hne : ruleFlag rule ≠ 0 := fun h0 => htype (by rw [h0]; rfl)
      rcases @readRule_or_loose toLocal8Bit _ _ his rfl hne with ⟨hread, -⟩ | ⟨-, hloose⟩
      · rw [hr, if_neg htype] at hread
        cases hread
      · exact htype (hstrict rule hrule _ hloose)

/-! ## What the index reads -/

/-- Rules with an undefined flag have no class. -/
theorem foldl_ruleType (list : List SearchRule) (reRule : ℕ) :
    list.foldl (fun reRule rule => reRule ||| ruleType rule.flag) reRule =
      (list.filter (ruleType ·.flag ≠ 0)).foldl (fun reRule rule => reRule ||| ruleType rule.flag) reRule := by
  induction list generalizing reRule with
  | nil => rfl
  | cons rule list ih =>
    rw [List.foldl_cons, ih]
    by_cases htype : ruleType rule.flag = 0
    · rw [List.filter_cons_of_neg (by simpa using htype), htype, Nat.or_zero]
    · rw [List.filter_cons_of_pos (by simpa using htype), List.foldl_cons]

theorem getRuleValue_eq (hfirst : (listFlags rules).head? ≠ some ruleNone) :
    getRuleValue (entries rules) flag =
      (((entries rules).find? (·.flag = flag)).map SearchRule.target).getD [48] := by
  rw [listFlags_eq, List.head?_map] at hfirst
  cases hentries : entries rules with
  | nil => rfl
  | cons first rest =>
    rw [hentries] at hfirst
    exact if_neg fun h0 => hfirst (congrArg some h0)

/-- `get_rule_value` on the list: the text of the first string of the flag. -/
theorem getRuleValue_entries (hfirst : (listFlags rules).head? ≠ some ruleNone) (hflag : flag ≠ 0) :
    getRuleValue (entries rules) flag =
      ((firstOf rules flag).map fun rule => Utf16.toLatin1 (rule.drop 4)).getD [48] := by
  have hfind : ((entries rules).find? (·.flag = flag)).map SearchRule.target =
      (firstOf rules flag).map fun rule => Utf16.toLatin1 (rule.drop 4) := by
    rw [entries, List.find?_map, List.find?_filter, Option.map_map, firstOf]
    congr 1
    refine List.find?_congr fun rule _ => ?_
    rw [decide_eq_decide, Function.comp_apply, decide_eq_true_eq]
    exact and_congr_right fun his => (toInt_eq_iff his hflag).symm
  rw [← hfind, getRuleValue_eq hfirst]

theorem getRuleArgs_eq (hflag : ruleType flag = searchRule) :
    getRuleArgs rules flag = (firstOf rules flag).map fun rule => Utf16.toUInt (rule.drop 4) := by
  rw [getRuleArgs, if_neg]
  · rfl
  · rw [ruleType] at hflag
    split_ifs at hflag with hsearch
    · simp only [ruleSearchRegx, ruleSearchMaxCount, ruleSearchIcase, ruleSearchStartoff, ruleSearchEndoff,
        ruleSearchPinyin] at hsearch
      rw [ruleExcludeSubS]
      omega
    all_goals exact absurd hflag (by decide)

/-- What `check_name` asks of one rule: whether it matches the name, or it asks for the end of a name and is met
further in front. -/
theorem checkRule_iff (b : FsBuf) (nameOff : ℕ) (r : SearchRule) : b.checkRule nameOff r = some true ↔
    RuleMatches r (b.strAt nameOff) ∨ MetInFront b nameOff r := by
  have hstop : b.strlen nameOff = (b.strAt nameOff).length := rfl
  have hends : b.strendwith nameOff r.target = some true ↔
      r.target.length ≤ nameOff + (b.strAt nameOff).length ∧
        b.head.load (nameOff + (b.strAt nameOff).length - r.target.length) r.target.length = r.target := by
    simp only [FsBuf.strendwith, hstop]
    split <;> simp <;> omega
  have hend : r.target.length ≤ (b.strAt nameOff).length →
      (b.head.load (nameOff + (b.strAt nameOff).length - r.target.length) r.target.length = r.target ↔
        r.target <:+ b.strAt nameOff) := by
    intro hle
    have hname : b.strAt nameOff = b.head.load nameOff ((b.strAt nameOff).length - r.target.length) ++
        b.head.load (nameOff + ((b.strAt nameOff).length - r.target.length)) r.target.length := by
      rw [← Mem.load_add, Nat.sub_add_cancel hle]
      exact (Mem.load_cstr _ _).symm
    rw [Nat.add_sub_assoc hle]
    constructor
    · intro hload
      rw [hname, hload]
      exact List.suffix_append _ _
    · intro hsuffix
      rw [hname] at hsuffix
      have hsame := List.suffix_of_suffix_length_le hsuffix (List.suffix_append _ _) (by rw [Mem.length_load])
      exact (hsame.eq_of_length (by rw [Mem.length_load])).symm
  rw [FsBuf.checkRule]
  split_ifs with hpath hstart hasks
  · have hnotstart : ¬ (ruleExcludePath = ruleExcludeSubS ∨ ruleExcludePath = ruleIncludeSubS) := by decide
    have hnotend : ¬ AsksEnd r := by
      rw [AsksEnd, hpath]
      decide
    simp [RuleMatches, MetInFront, hpath, hnotstart, hnotend]
  · have hnotend : ¬ AsksEnd r := by
      rw [AsksEnd]
      rcases hstart with hflag | hflag
      · rw [hflag]
        decide
      · rw [hflag]
        decide
    simp [RuleMatches, MetInFront, hpath, hstart, hnotend]
  · rw [hends]
    by_cases hle : r.target.length ≤ (b.strAt nameOff).length
    · have hroom : r.target.length ≤ nameOff + (b.strAt nameOff).length := by omega
      simp [RuleMatches, MetInFront, AsksEnd, hpath, hstart, hasks, hend hle, hroom, Nat.not_lt.mpr hle]
    · have hsuffix : ¬ r.target <:+ b.strAt nameOff := fun h => hle h.length_le
      simp [RuleMatches, MetInFront, AsksEnd, hpath, hstart, hasks, hsuffix, Nat.lt_of_not_le hle]
  · simp [RuleMatches, MetInFront, AsksEnd, hpath, hstart, hasks]

/-- `check_name` on the rules of a class: it asks them, unless the class is blocked. -/
theorem checkName_entries (b : FsBuf) (nameOff : ℕ) {type : ℕ} :
    b.checkName nameOff (getRules (entries rules) type).2 =
      if Blocked rules type then some false
      else (rulesOf (entries rules) type).anyM (b.checkRule nameOff) := by
  have hblocked : Blocked rules type ↔
      ((getRules (entries rules) type).2.head?.map SearchRule.flag) = some ruleNone := by
    rw [Blocked, listFlags_eq, List.find?_map, getRules, List.head?_filter]
    rfl
  by_cases hnone : Blocked rules type
  · rw [if_pos hnone]
    exact FsBuf.checkName_of_none (hblocked.mp hnone)
  · rw [if_neg hnone]
    exact FsBuf.checkName_getRules fun h => hnone (hblocked.mpr h)

theorem accepts_iff (b : FsBuf) (nameOff : ℕ) {type : ℕ} (htype : type ≠ 0)
    (hcontributes : (entries rules).filter (ruleType ·.flag ≠ 0) = rules.filterMap (readRule toLocal8Bit)) :
    (∃ v, b.checkName nameOff (getRules (entries rules) type).2 = some v ∧
      (v = true ↔ ∃ r ∈ rulesOf (rules.filterMap (readRule toLocal8Bit)) type, RuleMatches r (b.strAt nameOff))) ↔
    (Blocked rules type →
      ∀ r ∈ rulesOf (rules.filterMap (readRule toLocal8Bit)) type, ¬ RuleMatches r (b.strAt nameOff)) ∧
    (¬ Blocked rules type →
      ∀ pre r post, rulesOf (rules.filterMap (readRule toLocal8Bit)) type = pre ++ r :: post → TooLong b nameOff r →
        ∃ r' ∈ pre, RuleMatches r' (b.strAt nameOff) ∨ MetInFront b nameOff r') ∧
    (¬ Blocked rules type →
      ∀ r ∈ rulesOf (rules.filterMap (readRule toLocal8Bit)) type, MetInFront b nameOff r →
        ∃ r' ∈ rulesOf (rules.filterMap (readRule toLocal8Bit)) type, RuleMatches r' (b.strAt nameOff)) := by
  have hclass : rulesOf (entries rules) type = rulesOf (rules.filterMap (readRule toLocal8Bit)) type := by
    rw [← hcontributes, rulesOf, rulesOf, List.filter_filter]
    refine List.filter_congr fun rule _ => ?_
    by_cases heq : ruleType rule.flag = type
    · simp [heq, htype]
    · simp [heq]
  have hfails : ∀ r, b.checkRule nameOff r = none ↔ TooLong b nameOff r := fun r => FsBuf.checkRule_eq_none_iff
  rw [checkName_entries, hclass]
  generalize rulesOf (rules.filterMap (readRule toLocal8Bit)) type = list
  by_cases hblocked : Blocked rules type
  · rw [if_pos hblocked]
    simp [hblocked]
  rw [if_neg hblocked]
  simp only [hblocked, false_imp_iff, not_false_eq_true, true_and, true_imp_iff]
  constructor
  · rintro ⟨v, hv, hmatch⟩
    refine ⟨fun pre r post heq hlong => ?_, fun r hr hmet => ?_⟩
    · by_contra hnone
      have hnot : list.anyM (b.checkRule nameOff) = none := ListTest.anyM_eq_none_iff.mpr
        ⟨pre, r, post, heq, fun y hy hfits => hnone ⟨y, hy, (checkRule_iff b nameOff y).mp hfits⟩, (hfails r).mpr hlong⟩
      rw [hv] at hnot
      cases hnot
    · obtain ⟨v', hv', hfits⟩ := ListTest.anyM_eq_some (p := b.checkRule nameOff) (l := list) (by simp [hv])
      obtain rfl : v = v' := Option.some.inj (hv.symm.trans hv')
      exact hmatch.mp (hfits.mpr ⟨r, hr, (checkRule_iff b nameOff r).mpr (.inr hmet)⟩)
  · rintro ⟨hasked, hinside⟩
    have hok : list.anyM (b.checkRule nameOff) ≠ none := fun hnone => by
      obtain ⟨pre, r, post, heq, hpre, hr⟩ := ListTest.anyM_eq_none_iff.mp hnone
      obtain ⟨r', hr', hfits⟩ := hasked pre r post heq ((hfails r).mp hr)
      exact hpre r' hr' ((checkRule_iff b nameOff r').mpr hfits)
    obtain ⟨v, hv, hfits⟩ := ListTest.anyM_eq_some hok
    refine ⟨v, hv, hfits.trans ?_⟩
    constructor
    · rintro ⟨r, hr, hcheck⟩
      rcases (checkRule_iff b nameOff r).mp hcheck with hmatch | hmet
      · exact ⟨r, hr, hmatch⟩
      · exact hinside r hr hmet
    · rintro ⟨r, hr, hmatch⟩
      exact ⟨r, hr, (checkRule_iff b nameOff r).mpr (.inl hmatch)⟩

theorem searchRule_ne_zero : ruleType flag = searchRule → flag ≠ 0 := by
  rintro h rfl
  exact absurd h (by decide)

/-- With a rule in front, the list is right exactly if it fits. -/
theorem listRight_iff {b : FsBuf} {nameOff : ℕ} (hfirst : (listFlags rules).head? ≠ some ruleNone) :
    ListRight toLocal8Bit rules b nameOff (entries rules) ↔ ListFits toLocal8Bit rules b nameOff := by
  have hnumbers : ∀ flag, ruleType flag = searchRule →
      ((∀ n, getRuleArgs rules flag = some n → atoi (getRuleValue (entries rules) flag) = n) ↔
        ∀ rule, firstOf rules flag = some rule →
          atoi (Utf16.toLatin1 (rule.drop 4)) = Utf16.toUInt (rule.drop 4)) := by
    intro flag hflag
    rw [getRuleArgs_eq hflag, getRuleValue_entries hfirst (searchRule_ne_zero hflag)]
    cases firstOf rules flag with
    | none => simp
    | some rule => simp
  constructor
  · rintro ⟨hcontributes, -, -, haccepts, hread⟩
    obtain ⟨hencoded, hstrict⟩ := contributes_iff.mp hcontributes
    have hclass : ∀ type ∈ [excludeRule, includeRule], _ := fun type htype =>
      (accepts_iff b nameOff (by rintro rfl; revert htype; decide) hcontributes).mp (haccepts type htype)
    exact ⟨hencoded, hstrict, fun type htype => (hclass type htype).1, fun type htype => (hclass type htype).2.1,
      fun type htype => (hclass type htype).2.2, fun flag hflag => (hnumbers flag hflag).mp (hread flag hflag)⟩
  · rintro ⟨hencoded, hstrict, hunblocked, hasked, hinside, hread⟩
    have hcontributes := contributes_iff.mpr ⟨hencoded, hstrict⟩
    refine ⟨hcontributes, fun type => ?_, fun flag hflag => ?_, fun type htype => ?_,
      fun flag hflag => (hnumbers flag hflag).mpr (hread flag hflag)⟩
    · rw [getRules, foldl_ruleType, hcontributes]
    · rw [getRuleValue_eq hfirst, ← hcontributes, List.find?_filter]
      refine congrArg (fun r => (Option.map SearchRule.target r).getD [48]) (List.find?_congr fun r _ => ?_)
      rw [decide_eq_decide, decide_eq_true_eq, decide_eq_true_eq]
      refine (and_iff_right_of_imp fun hr => ?_).symm
      rw [hr, hflag]
      decide
    · exact (accepts_iff b nameOff (by rintro rfl; revert htype; decide) hcontributes).mpr
        ⟨hunblocked type htype, hasked type htype, hinside type htype⟩

/-- The empty list is right for strings without a rule and without a number. -/
theorem listRight_nil {b : FsBuf} {nameOff : ℕ} : ListRight toLocal8Bit rules b nameOff [] ↔
    rules.filterMap (readRule toLocal8Bit) = [] ∧ ∀ flag, ruleType flag = searchRule →
      ∀ rule, firstOf rules flag = some rule → Utf16.toUInt (rule.drop 4) = 0 := by
  have hzero : atoi [48] = 0 := by decide
  constructor
  · rintro ⟨hcontributes, -, -, -, hread⟩
    refine ⟨hcontributes.symm, fun flag hflag rule hrule => ?_⟩
    have hnumber := hread flag hflag (Utf16.toUInt (rule.drop 4)) (by rw [getRuleArgs_eq hflag, hrule]; rfl)
    exact_mod_cast (hzero.symm.trans hnumber).symm
  · rintro ⟨hnone, hread⟩
    refine ⟨hnone.symm, fun type => by rw [hnone]; rfl, fun flag _ => by rw [hnone]; rfl, fun type _ => ?_,
      fun flag hflag n hn => ?_⟩
    · rw [hnone]
      exact ⟨false, rfl, iff_of_false Bool.false_ne_true fun ⟨r, hr, _⟩ => List.not_mem_nil hr⟩
    · rw [getRuleArgs_eq hflag, Option.map_eq_some_iff] at hn
      obtain ⟨rule, hrule, rfl⟩ := hn
      rw [hread flag hflag rule hrule]
      exact hzero

end RuleStrings

open RuleStrings in
/-- A list of rule strings means what it says, for the name at an offset, exactly if it fits. -/
theorem rulesRight_iff (toLocal8Bit : Utf16 → Bytes) (rules : List Utf16) (b : FsBuf) (nameOff : ℕ) :
    RulesRight toLocal8Bit rules b nameOff ↔ RulesFit toLocal8Bit rules b nameOff := by
  constructor
  · rintro ⟨list, hparse, hright⟩
    have hroom := room_of_parseRules hparse
    rw [parseRules_ok hroom, Except.ok.injEq] at hparse
    refine ⟨hroom, ?_⟩
    split_ifs at hparse with hfirst
    · subst hparse
      exact .inl ⟨hfirst, listRight_nil.mp hright⟩
    · subst hparse
      exact .inr ⟨hfirst, (listRight_iff hfirst).mp hright⟩
  · rintro ⟨hroom, ⟨hfirst, hnone⟩ | ⟨hfirst, hfits⟩⟩
    · exact ⟨[], by rw [parseRules_ok hroom, if_pos hfirst], listRight_nil.mpr hnone⟩
    · exact ⟨entries rules, by rw [parseRules_ok hroom, if_neg hfirst], (listRight_iff hfirst).mpr hfits⟩

/-- The rule strings `0x025`, `0xzz` and `0x40a` of a caller, behind those that are set by default. -/
def sampleStrings : List Utf16 :=
  ["0x010", "0x030", "0x040", "0x050", "0x025", "0xzz", "0x40a"].map Utf16.ofString

/-- A buffer with the name `ab`. -/
def sampleNameBuf : FsBuf :=
  ⟨⟨fun i => if i = 16 then 97 else if i = 17 then 98 else 0⟩, 32, 32, 16⟩

/-- The name `ab` begins with `a`, and the list for the index has the rule that leaves such names out. But the first
flag of its class is that of the string `0xzz`, and so the class has no name. -/
theorem not_rulesRight : ∃ list, RuleStrings.parseRules sampleStrings = .ok list ∧
    ⟨ruleExcludeSubS, [97]⟩ ∈ list ∧ sampleNameBuf.strAt 16 = [97, 98] ∧
    sampleNameBuf.checkName 16 (getRules list excludeRule).2 = some false ∧
    ¬ RulesRight (fun text => text.map UInt16.toUInt8) sampleStrings sampleNameBuf 16 := by
  refine ⟨_, rfl, by decide, by decide, by decide, ?_⟩
  rw [rulesRight_iff]
  rintro ⟨-, ⟨hfirst, -⟩ | ⟨-, hfits⟩⟩
  · exact absurd hfirst (by decide)
  · have hblocked : Blocked sampleStrings excludeRule := by decide
    refine hfits.unblocked excludeRule (by decide) hblocked ⟨ruleExcludeSubS, [97]⟩ (by decide) ?_
    exact .inr (.inl ⟨.inl rfl, [98], by decide⟩)

/-! ## The strings of decoded rules -/

/-- The string of a rule, as `_setRulesByDefault` and `search` write it. -/
def Rule.string (rule : Rule) : Utf16 :=
  48 :: 120 :: UInt16.ofNat (Nat.digitChar (rule.flag / 16)).toNat ::
    UInt16.ofNat (Nat.digitChar (rule.flag % 16)).toNat :: rule.text.map fun c => UInt16.ofNat c.toNat

/-- A rule whose string has its flag in two digits, and one code unit for each character of the text. -/
def Rule.Plain (rule : Rule) : Prop := rule.flag < 256 ∧ ∀ c ∈ rule.text, c.toNat < 2 ^ 16

theorem Rule.isRule_string (rule : Rule) : RuleStrings.isRule rule.string = true :=
  RuleStrings.isRule_iff.mpr ⟨_, _, _, rfl⟩

namespace Rule.Plain

variable {rule : Rule} {rules : List Rule}

theorem map_unitChar (h : rule.Plain) : (rule.string.drop 4).map unitChar = rule.text := by
  show (rule.text.map fun c => UInt16.ofNat c.toNat).map unitChar = rule.text
  rw [List.map_map]
  refine (List.map_congr_left fun c hc => ?_).trans (List.map_id _)
  rw [Function.comp_apply, unitChar, UInt16.toNat_ofNat_of_lt' (h.2 c hc), Char.ofNat_toNat, id]

theorem toLatin1_eq (h : rule.Plain) : Utf16.toLatin1 (rule.string.drop 4) = toLatin1 rule.text := by
  show Utf16.toLatin1 (rule.text.map fun c => UInt16.ofNat c.toNat) = toLatin1 rule.text
  rw [Utf16.toLatin1, toLatin1, List.map_map]
  congr 1
  refine List.map_congr_left fun c hc => ?_
  rw [Function.comp_apply, UInt16.toNat_ofNat_of_lt' (h.2 c hc)]
  congr 1
  rw [← UInt8.toNat_inj, UInt16.toNat_toUInt8, UInt16.toNat_ofNat_of_lt' (h.2 c hc), UInt8.toNat_ofNat']

theorem toInt_eq (h : rule.Plain) : Utf16.toInt (rule.string.take 4) = some (rule.flag : ℤ) := by
  have hdigit : ∀ n < 16, digitValue (unitChar (UInt16.ofNat (Nat.digitChar n).toNat)) = some n := by decide
  have hflag := h.1
  rw [string, toInt_hex, hdigit _ (by omega), hdigit _ (by omega)]
  simp only [Option.some.injEq]
  omega

theorem ruleFlag_eq (h : rule.Plain) : RuleStrings.ruleFlag rule.string = rule.flag := by
  have hflag := h.1
  rw [RuleStrings.ruleFlag, h.toInt_eq, Option.getD_some]
  omega

theorem parseRule_eq (h : rule.Plain) : RuleStrings.parseRule rule.string = parseRule rule := by
  rw [RuleStrings.parseRule, parseRule, h.toLatin1_eq, h.ruleFlag_eq, Nat.mod_eq_of_lt h.1]

/-- `_parseRules` on the strings of decoded rules is what it is on the rules. -/
theorem parseRules_eq (h : ∀ rule ∈ rules, rule.Plain) :
    RuleStrings.parseRules (rules.map Rule.string) = parseRules rules := by
  have hfilter : (rules.map Rule.string).filter RuleStrings.isRule = rules.map Rule.string :=
    List.filter_eq_self.mpr fun s hs => by
      obtain ⟨rule, -, rfl⟩ := List.mem_map.mp hs
      exact rule.isRule_string
  have hmap : (rules.map Rule.string).mapM RuleStrings.parseRule = rules.mapM parseRule := by
    clear hfilter
    induction rules with
    | nil => rfl
    | cons rule rules ih =>
      rw [List.map_cons, List.mapM_cons, List.mapM_cons, (h rule List.mem_cons_self).parseRule_eq,
        ih fun r hr => h r (List.mem_cons_of_mem _ hr)]
  rw [RuleStrings.parseRules, hfilter, hmap, parseRules]

/-- And so is `_getRuleArgs`. -/
theorem getRuleArgs_eq (h : ∀ rule ∈ rules, rule.Plain) (searchFlag : ℕ) :
    RuleStrings.getRuleArgs (rules.map Rule.string) searchFlag = getRuleArgs rules searchFlag := by
  rw [RuleStrings.getRuleArgs, getRuleArgs]
  split
  · rfl
  · have hfind : rules.find? ((fun rule : Utf16 => decide (RuleStrings.isRule rule = true ∧
        Utf16.toInt (rule.take 4) = some (searchFlag : ℤ))) ∘ Rule.string) = rules.find? (·.flag = searchFlag) := by
      refine List.find?_congr fun rule hrule => ?_
      rw [Function.comp_apply, decide_eq_decide, and_iff_right rule.isRule_string, (h rule hrule).toInt_eq,
        Option.some.injEq, Nat.cast_inj]
    rw [List.find?_map, hfind, Option.map_map]
    cases hrule : rules.find? (·.flag = searchFlag) with
    | none => rfl
    | some rule =>
      have hplain := h rule (List.mem_of_find?_eq_some hrule)
      rw [Option.map_some, Option.map_some, Function.comp_apply, Utf16.toUInt, hplain.map_unitChar]

end Rule.Plain

/-- The rules of a page come to the index as strings as they do when they are decoded. -/
theorem parseRules_strings {maxCount : ℤ} {targets : List QString} {startOffset endOffset : ℕ}
    (htargets : TargetsOk targets) (hmax : maxCount.natAbs ≤ 2 ^ 32) (hstart : startOffset ≤ 2 ^ 32)
    (hend : endOffset ≤ 2 ^ 32) :
    RuleStrings.parseRules ((enteredRules maxCount targets startOffset endOffset).map Rule.string) =
      .ok (parsedRules maxCount targets startOffset endOffset) := by
  have hascii : ∀ flag < 256, ∀ text, AsciiText text → (Rule.mk flag text).Plain := fun flag hflag text htext =>
    ⟨hflag, fun c hc => by have := (htext c hc).2; omega⟩
  have hdecimal : ∀ flag < 256, ∀ n, (Rule.mk flag (decimal n)).Plain := fun flag hflag n =>
    hascii flag hflag _ (asciiText_decimal n)
  rw [Rule.Plain.parseRules_eq, parseRules_enteredRules htargets hmax hstart hend]
  intro rule hrule
  simp only [enteredRules, pageRules, List.mem_cons, List.mem_map] at hrule
  rcases hrule with rfl | rfl | rfl | rfl | rfl | ⟨target, htarget, rfl⟩
  · exact hdecimal ruleSearchRegx (by decide) 0
  · exact hdecimal ruleSearchIcase (by decide) 0
  · exact hdecimal ruleSearchStartoff (by decide) startOffset
  · exact hdecimal ruleSearchEndoff (by decide) endOffset
  · exact hdecimal ruleSearchMaxCount (by decide) maxCount
  · exact hascii ruleExcludeSubS (by decide) _ (htargets target htarget).1

end DeepinAnything.Server
