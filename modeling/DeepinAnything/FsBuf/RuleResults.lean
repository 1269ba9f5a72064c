import DeepinAnything.FsBuf.SearchFiles
import DeepinAnything.Lib.AnyM

/-!
# The results of a search with rules

What `rulesearch_thread` reports over the range of a directory, in terms of the tree: the entries that
match, that no exclude rule names and none of whose directories below the searched one an exclude rule
names, and, if there are include rules, that one of them names. A rule for the ends of names that is longer
than all that stands in front of the end of a name makes `check_name` look in front of the buffer.
-/

namespace DeepinAnything

open ByteMem OrderedForest OrderedForest.Forest ListTest

/-! ## Rules by their type -/

/-- The rules of one type. -/
def rulesOf (rules : List SearchRule) (type : ℕ) : List SearchRule :=
  rules.filter fun rule => ruleType rule.flag = type

/-- All flags are ones that `get_rules` knows. -/
def Defined (rules : List SearchRule) : Prop := ∀ rule ∈ rules, ruleType rule.flag ≠ 0

theorem Defined.getRules_snd {rules : List SearchRule} (h : Defined rules) (type : ℕ) :
    (getRules rules type).2 = rulesOf rules type :=
  List.filter_congr fun rule hrule => by simp [h rule hrule]

theorem ruleType_cases (flag : ℕ) :
    ruleType flag = 0 ∨ ruleType flag = searchRule ∨ ruleType flag = excludeRule ∨
      ruleType flag = includeRule := by
  unfold ruleType
  split_ifs <;> simp

theorem foldl_ruleType_and (rules : List SearchRule) (acc m : ℕ) :
    rules.foldl (fun reRule rule => reRule ||| ruleType rule.flag) acc &&& m ≠ 0 ↔
      acc &&& m ≠ 0 ∨ ∃ rule ∈ rules, ruleType rule.flag &&& m ≠ 0 := by
  induction rules generalizing acc with
  | nil => simp
  | cons rule rules ih =>
    have hor : (acc ||| ruleType rule.flag) &&& m = 0 ↔ acc &&& m = 0 ∧ ruleType rule.flag &&& m = 0 := by
      rw [Nat.and_or_distrib_right, Nat.or_eq_zero_iff]
    rw [List.foldl_cons, ih, ne_eq, hor]
    simp only [List.mem_cons, exists_eq_or_imp]
    tauto

theorem foldl_ruleType_lt (rules : List SearchRule) {acc : ℕ} (h : acc < 8) :
    rules.foldl (fun reRule rule => reRule ||| ruleType rule.flag) acc < 8 := by
  induction rules generalizing acc with
  | nil => exact h
  | cons rule rules ih =>
    refine ih (Nat.or_lt_two_pow (n := 3) h ?_)
    rcases ruleType_cases rule.flag with h0 | h0 | h0 | h0 <;> rw [h0] <;> decide

/-- What the types in a list say about its rules. -/
theorem getRules_fst (rules : List SearchRule) (type : ℕ) :
    ((getRules rules type).1 &&& excludeRule ≠ 0 ↔ rulesOf rules excludeRule ≠ []) ∧
    ((getRules rules type).1 &&& includeRule ≠ 0 ↔ rulesOf rules includeRule ≠ []) ∧
    ((getRules rules type).1 ≤ searchRule ↔
      rulesOf rules excludeRule = [] ∧ rulesOf rules includeRule = []) := by
  have hmem : ∀ m, m = excludeRule ∨ m = includeRule →
      ((getRules rules type).1 &&& m ≠ 0 ↔ rulesOf rules m ≠ []) := fun m hm => by
    have hone : ∀ rule : SearchRule, ruleType rule.flag &&& m ≠ 0 ↔ ruleType rule.flag = m := fun rule => by
      rcases hm with rfl | rfl <;>
        rcases ruleType_cases rule.flag with h0 | h0 | h0 | h0 <;> rw [h0] <;> decide
    rw [getRules, foldl_ruleType_and, rulesOf, ne_eq (List.filter _ _), List.filter_eq_nil_iff]
    simp [hone]
  refine ⟨hmem _ (.inl rfl), hmem _ (.inr rfl), ?_⟩
  have hlt : (getRules rules type).1 < 8 := foldl_ruleType_lt rules (by decide)
  have hsmall : ∀ v < 8, v ≤ searchRule ↔ v &&& excludeRule = 0 ∧ v &&& includeRule = 0 := by decide
  rw [hsmall _ hlt]
  exact and_congr (not_iff_not.mp (hmem _ (.inl rfl))) (not_iff_not.mp (hmem _ (.inr rfl)))

/-! ## Asking the rules -/

/-- A rule asks for the end of a name. -/
def AsksEnd (rule : SearchRule) : Prop := rule.flag = ruleExcludeSubD ∨ rule.flag = ruleIncludeSubD

instance (rule : SearchRule) : Decidable (AsksEnd rule) := inferInstanceAs (Decidable (_ ∨ _))

namespace FsBuf

variable (b : FsBuf)

/-- `check_name` looks in front of the buffer: it comes to a rule for the ends of names that is longer than
what stands there in front of the end of the name, and no rule before it fits. -/
def LooksInFront (nameOff : ℕ) (rules : List SearchRule) : Prop :=
  rules.head?.map SearchRule.flag ≠ some ruleNone ∧
    ∃ pre rule post, rules = pre ++ rule :: post ∧ (∀ r ∈ pre, b.checkRule nameOff r = some false) ∧
      AsksEnd rule ∧ nameOff + b.strlen nameOff < rule.target.length

/-- Whether `check_name` takes the name for excluded. -/
def excluded (rules : List SearchRule) (nameOff : ℕ) : Option Bool :=
  b.checkName nameOff (getRules rules excludeRule).2

/-- Whether `check_name` takes the name for included; without include rules every name is. -/
def included (rules : List SearchRule) (nameOff : ℕ) : Option Bool :=
  if rulesOf rules includeRule = [] then some true else b.checkName nameOff (getRules rules includeRule).2

variable {b} {nameOff : ℕ} {rules : List SearchRule}

theorem strendwith_eq_none_iff {target : Bytes} :
    b.strendwith nameOff target = none ↔ nameOff + b.strlen nameOff < target.length := by
  simp only [strendwith]
  split <;> simp_all

theorem checkRule_eq_none_iff {rule : SearchRule} :
    b.checkRule nameOff rule = none ↔ AsksEnd rule ∧ nameOff + b.strlen nameOff < rule.target.length := by
  rw [checkRule]
  split_ifs with hpath hstart hends
  · simp [AsksEnd, hpath, ruleExcludePath, ruleExcludeSubD, ruleIncludeSubD]
  · have hnot : ¬ AsksEnd rule := by
      rw [AsksEnd]
      rcases hstart with hflag | hflag
      · rw [hflag]
        decide
      · rw [hflag]
        decide
    simp [hnot]
  · rw [strendwith_eq_none_iff]
    exact (and_iff_right hends).symm
  · simp [AsksEnd, hends]

/-- A rule that `check_name` can fail on or take has a defined flag. -/
theorem checkRule_of_undefined {rule : SearchRule} (h : ruleType rule.flag = 0) :
    b.checkRule nameOff rule = some false := by
  rw [checkRule]
  split_ifs with hpath hstart hends
  · rw [hpath] at h
    exact absurd h (by decide)
  · rcases hstart with hflag | hflag <;> rw [hflag] at h <;> exact absurd h (by decide)
  · rcases hends with hflag | hflag <;> rw [hflag] at h <;> exact absurd h (by decide)
  · rfl

theorem checkName_eq_anyM (h : rules.head?.map SearchRule.flag ≠ some ruleNone) :
    b.checkName nameOff rules = rules.anyM (b.checkRule nameOff) := by
  cases rules with
  | nil => rfl
  | cons first rules =>
    rw [checkName, if_neg fun hflag => h (by rw [List.head?_cons, Option.map_some, hflag])]

theorem checkName_of_none (h : rules.head?.map SearchRule.flag = some ruleNone) :
    b.checkName nameOff rules = some false := by
  cases rules with
  | nil => cases h
  | cons first rules => exact if_pos (Option.some.inj h)

theorem checkName_eq_none_iff : b.checkName nameOff rules = none ↔ b.LooksInFront nameOff rules := by
  by_cases h : rules.head?.map SearchRule.flag = some ruleNone
  · rw [checkName_of_none h]
    exact iff_of_false (by simp) fun hlooks => hlooks.1 h
  · rw [checkName_eq_anyM h, anyM_eq_iff (by simp), LooksInFront, ne_eq, and_iff_right h]
    simp only [checkRule_eq_none_iff]

/-- Rules that are short enough look nowhere else. -/
theorem not_looksInFront (h : ∀ rule ∈ rules, AsksEnd rule → rule.target.length ≤ nameOff + b.strlen nameOff) :
    ¬ b.LooksInFront nameOff rules := by
  rintro ⟨-, pre, rule, post, rfl, -, hends, hlt⟩
  have := h rule (by simp) hends
  omega

/-- `check_name` asks the rules of a class, unless a rule without a class stands in front of them. -/
theorem checkName_getRules {type : ℕ} (h : (getRules rules type).2.head?.map SearchRule.flag ≠ some ruleNone) :
    b.checkName nameOff (getRules rules type).2 = (rulesOf rules type).anyM (b.checkRule nameOff) := by
  have hclass : rulesOf rules type =
      (getRules rules type).2.filter fun rule => ruleType rule.flag = type := by
    rw [rulesOf, getRules, List.filter_filter]
    refine List.filter_congr fun rule _ => ?_
    by_cases htype : ruleType rule.flag = type <;> simp [htype]
  rw [checkName_eq_anyM h, hclass]
  refine (anyM_filter fun rule hrule hother => ?_).symm
  -- a rule of no class fits no name
  obtain ⟨-, hrule⟩ := List.mem_filter.mp hrule
  rw [decide_eq_true_eq] at hrule
  exact checkRule_of_undefined (hrule.resolve_left (of_decide_eq_false hother))

/-- No name is of a class without rules. -/
theorem checkName_of_rulesOf_nil {type : ℕ} (h : rulesOf rules type = []) :
    b.checkName nameOff (getRules rules type).2 = some false := by
  by_cases hnone : (getRules rules type).2.head?.map SearchRule.flag = some ruleNone
  · exact checkName_of_none hnone
  · rw [checkName_getRules hnone, h]
    rfl

/-- Whether the rules let a name that matches through, where it is met. -/
theorem admits_eq : b.admits (getRules rules excludeRule).1 (getRules rules includeRule).2
      (getRules rules excludeRule).2 nameOff =
    (b.included rules nameOff).bind fun taken =>
      if taken then (b.excluded rules nameOff).map (!·) else some false := by
  obtain ⟨hex, hin, hsearch⟩ := getRules_fst rules excludeRule
  have hnone : rulesOf rules excludeRule = [] → b.excluded rules nameOff = some false :=
    checkName_of_rulesOf_nil
  rw [admits, included]
  by_cases hplain : (getRules rules excludeRule).1 ≤ searchRule
  · obtain ⟨hex', hin'⟩ := hsearch.mp hplain
    simp [if_pos hplain, hin', hnone hex']
  rw [if_neg hplain]
  by_cases hin' : rulesOf rules includeRule = []
  · -- exclude rules alone
    have hex' : rulesOf rules excludeRule ≠ [] := fun h0 => hplain (hsearch.mpr ⟨h0, hin'⟩)
    rw [if_neg fun h0 => hin.mp h0 hin', if_pos (hex.mpr hex'), if_pos hin']
    rfl
  · rw [if_pos (hin.mpr hin'), if_neg hin']
    by_cases hex' : rulesOf rules excludeRule = []
    · have hzero : ¬ (getRules rules excludeRule).1 &&& excludeRule ≠ 0 := fun h0 => hex.mp h0 hex'
      simp only [if_neg hzero, hnone hex', Option.map_some, Bool.not_false]
      rfl
    · simp only [if_pos (hex.mpr hex')]
      rfl

theorem admits_eq_true_iff : b.admits (getRules rules excludeRule).1 (getRules rules includeRule).2
      (getRules rules excludeRule).2 nameOff = some true ↔
    b.excluded rules nameOff = some false ∧ b.included rules nameOff = some true := by
  rw [admits_eq]
  rcases b.included rules nameOff with _ | _ | _ <;> rcases b.excluded rules nameOff with _ | _ | _ <;> simp

theorem admits_eq_none_iff : b.admits (getRules rules excludeRule).1 (getRules rules includeRule).2
      (getRules rules excludeRule).2 nameOff = none ↔
    b.included rules nameOff = none ∨
      b.included rules nameOff = some true ∧ b.excluded rules nameOff = none := by
  rw [admits_eq]
  rcases b.included rules nameOff with _ | _ | _ <;> rcases b.excluded rules nameOff with _ | _ | _ <;> simp

/-- Only a directory with kids can be jumped over. -/
theorem skipped_eq_iff {r : Option Bool} (hr : r ≠ some false) :
    b.skipped (getRules rules excludeRule).1 (getRules rules excludeRule).2 nameOff = r ↔
      b.getKidsOffset nameOff ≠ 0 ∧ b.excluded rules nameOff = r := by
  obtain ⟨hex, -, -⟩ := getRules_fst rules excludeRule
  rw [skipped]
  by_cases hex' : rulesOf rules excludeRule = []
  · rw [if_neg fun h0 => hex.mp h0.1 hex', excluded, checkName_of_rulesOf_nil hex']
    exact iff_of_false (fun heq => hr heq.symm) fun heq => hr heq.2.symm
  · by_cases hkids : b.getKidsOffset nameOff ≠ 0
    · rw [if_pos ⟨hex.mpr hex', hkids⟩]
      exact (and_iff_right hkids).symm
    · rw [if_neg fun h0 => hkids h0.2]
      exact iff_of_false (fun heq => hr heq.symm) fun heq => hkids heq.1

end FsBuf

variable {b : FsBuf} {rules : List SearchRule}

/-! ## What a search finds -/

variable {root : Bytes} {t : Tree}

/-- A search from `start` on over what is below the directory at `q` comes to the entry at `q ++ q'`: it
knows only of the excluded directories that it meets itself. -/
structure ComesTo (b : FsBuf) (t : Tree) (rules : List SearchRule) (q : List Bytes) (start : ℕ)
    (q' : List Bytes) : Prop where
  ne_nil : q' ≠ []
  entry : (t.entryAt (q ++ q')).isSome
  le_off : start ≤ offAt b.firstNameOff t (q ++ q')
  visible : ∀ r, r ≠ [] → r <+: q' → r ≠ q' → start ≤ offAt b.firstNameOff t (q ++ r) →
    b.excluded rules (offAt b.firstNameOff t (q ++ r)) ≠ some true

/-- A search from `start` on over what is below the directory at `q` finds the entry at `q ++ q'`. -/
structure Found (b : FsBuf) (t : Tree) (rules : List SearchRule) (comparator : Bytes → Bool)
    (q : List Bytes) (start : ℕ) (q' : List Bytes) : Prop extends ComesTo b t rules q start q' where
  matches_name : comparator (q'.getLast?.getD [])
  not_excluded : b.excluded rules (offAt b.firstNameOff t (q ++ q')) = some false
  included : b.included rules (offAt b.firstNameOff t (q ++ q')) = some true

/-- What the rules are asked about an entry that a search comes to looks at nothing in front of the buffer:
the exclude rules about a directory with kids, and about what is included and matches; the include rules
about what matches and is not jumped over. -/
structure AskedInside (b : FsBuf) (rules : List SearchRule) (comparator : Bytes → Bool) (off : ℕ)
    (name : Bytes) : Prop where
  exclude_inside : b.getKidsOffset off ≠ 0 ∨ comparator name ∧ b.included rules off = some true →
    ¬ b.LooksInFront off (getRules rules excludeRule).2
  include_inside : comparator name → rulesOf rules includeRule ≠ [] →
    ¬ (b.getKidsOffset off ≠ 0 ∧ b.excluded rules off = some true) →
      ¬ b.LooksInFront off (getRules rules includeRule).2

/-- A directory that an address leads through has kids. -/
theorem Represents.kidsOffset_ne_zero (h : Represents b root t) {q s : List Bytes} (hq : q ≠ [])
    (hs : s ≠ []) (hentry : (t.entryAt (q ++ s)).isSome) :
    b.getKidsOffset (offAt b.firstNameOff t q) ≠ 0 := by
  obtain ⟨k, hk, hbelow⟩ := exists_node_of_entryAt_append hs hentry
  obtain ⟨q, n, rfl⟩ : ∃ p n, q = p ++ [n] :=
    ⟨q.dropLast, q.getLast hq, (List.dropLast_append_getLast hq).symm⟩
  obtain ⟨c, l, r, rfl, rfl, hc, hn⟩ := exists_plug_of_entryAt hk
  have hkids := h.entryFacts.kidsOff
  have hfirst := h.first_pos
  have hle := base_le_runPos b.firstNameOff (⟨l, n, r⟩ :: c)
  have hne : k ≠ .nil := by
    rintro rfl
    obtain ⟨x, xs, rfl⟩ := List.exists_cons_of_ne_nil hs
    cases hbelow
  rw [offAt_plug_cons hc _ hn, hkids, Entry.kids, if_neg hne]
  omega

theorem FsBuf.included_eq_none_iff {off : ℕ} : b.included rules off = none ↔
    rulesOf rules includeRule ≠ [] ∧ b.LooksInFront off (getRules rules includeRule).2 := by
  rw [included]
  split
  · rename_i hnil
    exact iff_of_false (by simp) fun h0 => h0.1 hnil
  · rename_i hsome
    rw [checkName_eq_none_iff]
    exact (and_iff_right hsome).symm

/-- What the rules are asked about an item, in terms of its offset and name. -/
theorem askedInside_iff {comparator : Bytes → Bool} {x : Item} (hname : x.name ≠ []) :
    x.AskedInside b comparator (getRules rules excludeRule).1 (getRules rules includeRule).2
        (getRules rules excludeRule).2 ↔ AskedInside b rules comparator x.off x.name := by
  have hskip : b.skipped (getRules rules excludeRule).1 (getRules rules excludeRule).2 x.off = some false ↔
      ¬ (b.getKidsOffset x.off ≠ 0 ∧ b.excluded rules x.off = some true) ∧
        ¬ (b.getKidsOffset x.off ≠ 0 ∧ b.excluded rules x.off = none) := by
    rw [← FsBuf.skipped_eq_iff (by simp), ← FsBuf.skipped_eq_iff (by simp)]
    rcases b.skipped _ _ x.off with _ | _ | _ <;> simp
  have hnone : b.excluded rules x.off = none ↔ b.LooksInFront x.off (getRules rules excludeRule).2 :=
    FsBuf.checkName_eq_none_iff
  have hdiffer : b.excluded rules x.off = some true → ¬ b.excluded rules x.off = none := by
    intro h0
    rw [h0]
    simp
  have hskipped : b.skipped (getRules rules excludeRule).1 (getRules rules excludeRule).2 x.off = none ↔ _ :=
    FsBuf.skipped_eq_iff (by simp)
  have hadmits : b.admits (getRules rules excludeRule).1 (getRules rules includeRule).2
      (getRules rules excludeRule).2 x.off = none ↔ _ := FsBuf.admits_eq_none_iff
  rw [FsBuf.included_eq_none_iff] at hadmits
  rw [Item.AskedInside, ne_eq (b.skipped _ _ _), ne_eq (b.admits _ _ _ _), hskip, hskipped, hadmits]
  constructor
  · intro h
    obtain ⟨hdir, hasked⟩ := h hname
    refine ⟨?_, fun hmatch hrules hjump hlooks => hasked ⟨hjump, hdir⟩ hmatch (.inl ⟨hrules, hlooks⟩)⟩
    rintro (hkids | ⟨hmatch, hincluded⟩) hlooks
    · exact hdir ⟨hkids, hnone.mpr hlooks⟩
    · by_cases hjump : b.getKidsOffset x.off ≠ 0 ∧ b.excluded rules x.off = some true
      · exact hdiffer hjump.2 (hnone.mpr hlooks)
      · exact hasked ⟨hjump, hdir⟩ hmatch (.inr ⟨hincluded, hnone.mpr hlooks⟩)
  · rintro ⟨hex, hin⟩ -
    refine ⟨fun h0 => hex (.inl h0.1) (hnone.mp h0.2), fun h0 hmatch => ?_⟩
    rintro (⟨hrules, hlooks⟩ | ⟨hincluded, hfails⟩)
    · exact hin hmatch hrules h0.1 hlooks
    · exact hex (.inr ⟨hmatch, hincluded⟩) (hnone.mp hfails)

section Tree

variable {c : List (Frame Bytes)} {k : Tree} (h : Represents b root (plug c k)) {start : ℕ}
include h

/-- A search comes to the items that are not hidden from it. -/
theorem Represents.comesTo_iff {x : Item} (hx : x ∈ treeItems (runPos b.firstNameOff c) (path c) k)
    (hname : x.name ≠ []) {q' : List Bytes} (hpath : x.path = path c ++ q') :
    ComesTo b (plug c k) rules (path c) start q' ↔ start ≤ x.off ∧
      ¬ x.HiddenFrom b (getRules rules excludeRule).1 (getRules rules excludeRule).2
        (treeItems (runPos b.firstNameOff c) (path c) k) start := by
  have hc := Fits.of_valid h.valid
  obtain ⟨hoff, hentry⟩ := h.off_eq hx hname
  rw [hpath] at hoff hentry
  have hne : q' ≠ [] := by
    obtain ⟨q'', hq'', hpath'⟩ := (inTree_of_mem hx).path_eq
    rwa [List.append_cancel_left (hpath.symm.trans hpath')]
  constructor
  · rintro ⟨-, -, hfrom, hvisible⟩
    refine ⟨hoff ▸ hfrom, ?_⟩
    rintro ⟨y, hy, hyfrom, ⟨hyname, hyskip⟩, hbelow⟩
    obtain ⟨r, hr, hypath⟩ := (inTree_of_mem hy).path_eq
    have hyoff := (h.off_eq hy hyname).1
    rw [Item.Below, hypath, hpath, List.prefix_append_right_inj] at hbelow
    rw [hypath] at hyoff
    rw [hyoff] at hyfrom hyskip
    exact hvisible r hr hbelow.1 (fun h0 => hbelow.2 (by rw [h0])) hyfrom
      ((FsBuf.skipped_eq_iff (by simp)).mp hyskip).2
  · rintro ⟨hfrom, hvisible⟩
    refine ⟨hne, hentry, hoff ▸ hfrom, fun r hr hpre hrne hfrom' hexcluded => ?_⟩
    -- the directory at `r` is an item that the search has met
    obtain ⟨s, rfl⟩ := hpre
    have hs : s ≠ [] := fun h0 => hrne (by rw [h0, List.append_nil])
    rw [← List.append_assoc] at hentry
    have hdir : (k.entryAt r).isSome := by
      obtain ⟨k', hk', -⟩ := exists_node_of_entryAt_append hs hentry
      rw [entryAt_plug hc] at hk'
      exact hk' ▸ rfl
    obtain ⟨y, hy, hyname, hypath⟩ := (h.mem_items_iff r).mpr ⟨hr, hdir⟩
    have hyoff := (h.off_eq hy hyname).1
    rw [hypath] at hyoff
    refine hvisible ⟨y, hy, hyoff ▸ hfrom', ⟨hyname, (FsBuf.skipped_eq_iff (by simp)).mpr ⟨?_, ?_⟩⟩, ?_⟩
    · rw [hyoff]
      exact h.kidsOffset_ne_zero (by simp [hr]) hs hentry
    · rw [hyoff]
      exact hexcluded
    · exact Item.below_of_append hypath (by rw [hpath, List.append_assoc]) hs

/-- The item of an entry that a search comes to. -/
theorem Represents.exists_item_of_comesTo {q' : List Bytes}
    (hcomes : ComesTo b (plug c k) rules (path c) start q') :
    ∃ x ∈ treeItems (runPos b.firstNameOff c) (path c) k, x.name ≠ [] ∧ x.path = path c ++ q' ∧
      x.off = offAt b.firstNameOff (plug c k) (path c ++ q') ∧ x.name = q'.getLast?.getD [] := by
  have hentry := hcomes.entry
  rw [entryAt_plug (Fits.of_valid h.valid)] at hentry
  obtain ⟨x, hx, hname, hpath⟩ := (h.mem_items_iff q').mpr ⟨hcomes.ne_nil, hentry⟩
  have hoff := (h.off_eq hx hname).1
  rw [hpath] at hoff
  exact ⟨x, hx, hname, hpath, hoff, by rw [Item.name, hpath, List.getLast?_append_of_ne_nil _ hcomes.ne_nil]⟩

/-- The entry of an item that a search comes to. -/
theorem Represents.exists_comesTo_of_item {x : Item} (hx : x ∈ treeItems (runPos b.firstNameOff c) (path c) k)
    (hname : x.name ≠ []) (hfrom : start ≤ x.off)
    (hvisible : ¬ x.HiddenFrom b (getRules rules excludeRule).1 (getRules rules excludeRule).2
      (treeItems (runPos b.firstNameOff c) (path c) k) start) :
    ∃ q', ComesTo b (plug c k) rules (path c) start q' ∧ x.path = path c ++ q' ∧
      x.off = offAt b.firstNameOff (plug c k) (path c ++ q') ∧ x.name = q'.getLast?.getD [] := by
  obtain ⟨q', hq', hpath⟩ := (inTree_of_mem hx).path_eq
  have hoff := (h.off_eq hx hname).1
  rw [hpath] at hoff
  exact ⟨q', (h.comesTo_iff hx hname hpath).mpr ⟨hfrom, hvisible⟩, hpath, hoff,
    by rw [Item.name, hpath, List.getLast?_append_of_ne_nil _ hq']⟩

/-- What a search finds, in terms of the tree. -/
theorem Represents.mem_rulesFound_iff (comparator : Bytes → Bool) (off : ℕ) :
    off ∈ rulesFound b comparator rules (treeItems (runPos b.firstNameOff c) (path c) k) start ↔
      ∃ q', Found b (plug c k) rules comparator (path c) start q' ∧
        offAt b.firstNameOff (plug c k) (path c ++ q') = off := by
  rw [rulesFound, foundFrom, foundAmong, List.mem_map]
  simp only [List.mem_filter, decide_eq_true_eq, Item.Wanted, FsBuf.admits_eq_true_iff]
  constructor
  · rintro ⟨x, ⟨hx, hfrom, ⟨hname, -, hmatch, hex, hin⟩, hvisible⟩, rfl⟩
    obtain ⟨q', hcomes, -, hoff, hlast⟩ := h.exists_comesTo_of_item hx hname hfrom hvisible
    exact ⟨q', ⟨hcomes, hlast ▸ hmatch, hoff ▸ hex, hoff ▸ hin⟩, hoff.symm⟩
  · rintro ⟨q', hfound, rfl⟩
    obtain ⟨x, hx, hname, hpath, hoff, hlast⟩ := h.exists_item_of_comesTo hfound.toComesTo
    obtain ⟨hfrom, hvisible⟩ := (h.comesTo_iff hx hname hpath).mp hfound.toComesTo
    have hex := hfound.not_excluded
    rw [← hoff] at hex
    refine ⟨x, ⟨hx, hfrom, ⟨hname, fun hskip => ?_, hlast ▸ hfound.matches_name, hex, hoff ▸ hfound.included⟩,
      hvisible⟩, hoff⟩
    have := ((FsBuf.skipped_eq_iff (by simp)).mp hskip.2).2
    rw [hex] at this
    cases this

/-- A search up to `endPos` looks at nothing in front of the buffer, in terms of the tree. -/
theorem Represents.rulesInsideTo_iff (comparator : Bytes → Bool) (endPos : ℕ) (maxCount : ℤ) :
    RulesInsideTo b comparator rules (treeItems (runPos b.firstNameOff c) (path c) k) start endPos maxCount ↔
      ∀ q', ComesTo b (plug c k) rules (path c) start q' →
        offAt b.firstNameOff (plug c k) (path c ++ q') < endPos →
        (0 < maxCount → (((rulesFound b comparator rules (treeItems (runPos b.firstNameOff c) (path c) k)
          start).countP (· < offAt b.firstNameOff (plug c k) (path c ++ q')) : ℕ) : ℤ) < maxCount) →
        AskedInside b rules comparator (offAt b.firstNameOff (plug c k) (path c ++ q')) (q'.getLast?.getD []) := by
  rw [RulesInsideTo, AsksInside]
  simp only [Nat.zero_add]
  constructor
  · intro hall q' hcomes hlt hmore
    obtain ⟨x, hx, hname, hpath, hoff, hlast⟩ := h.exists_item_of_comesTo hcomes
    obtain ⟨hfrom, hvisible⟩ := (h.comesTo_iff hx hname hpath).mp hcomes
    rw [← hoff] at hmore hlt
    rw [← hoff, ← hlast]
    refine (askedInside_iff hname).mp (hall x (List.mem_filter.mpr ⟨hx, decide_eq_true hlt⟩) hfrom hvisible ?_)
    rw [countP_foundAmong_upTo hlt.le]
    exact hmore
  · intro hall x hx hfrom hvisible hmore hname
    obtain ⟨hx, hlt⟩ := List.mem_filter.mp hx
    rw [decide_eq_true_eq] at hlt
    obtain ⟨q', hcomes, -, hoff, hlast⟩ := h.exists_comesTo_of_item hx hname hfrom hvisible
    rw [countP_foundAmong_upTo hlt.le] at hmore
    rw [hoff] at hmore hlt
    have hasked := hall q' hcomes hlt hmore
    rw [← hoff, ← hlast, ← askedInside_iff hname] at hasked
    exact hasked hname

/-- A search looks at nothing in front of the buffer, in terms of the tree. -/
theorem Represents.rulesInside_iff (comparator : Bytes → Bool) (maxCount : ℤ) :
    RulesInside b comparator rules (treeItems (runPos b.firstNameOff c) (path c) k) start maxCount ↔
      ∀ q', ComesTo b (plug c k) rules (path c) start q' →
        (0 < maxCount → (((rulesFound b comparator rules (treeItems (runPos b.firstNameOff c) (path c) k)
          start).countP (· < offAt b.firstNameOff (plug c k) (path c ++ q')) : ℕ) : ℤ) < maxCount) →
        AskedInside b rules comparator (offAt b.firstNameOff (plug c k) (path c ++ q')) (q'.getLast?.getD []) := by
  have hto := @Represents.rulesInsideTo_iff b rules root c k h start comparator
    (runPos b.firstNameOff c + treeSize k) maxCount
  rw [RulesInsideTo, h.searchable_plug.1.chain.upTo_eq] at hto
  rw [RulesInside, hto]
  refine forall₂_congr fun q' hcomes => imp_iff_right ?_
  obtain ⟨x, hx, -, -, hoff, -⟩ := h.exists_item_of_comesTo hcomes
  rw [← hoff]
  exact (h.searchable_plug.1.chain.range hx).2

end Tree

theorem rulesFound_sorted {items : List Item} {off stop : ℕ} (h : Chain b off items stop)
    (comparator : Bytes → Bool) (rules : List SearchRule) (start : ℕ) :
    (rulesFound b comparator rules items start).Pairwise (· < ·) := by
  rw [rulesFound, foundFrom, foundAmong, List.pairwise_map]
  exact h.sorted.sublist List.filter_sublist

/-- A chain that is not empty starts with its first item. -/
theorem Chain.start_eq {items : List Item} {off stop : ℕ} (h : Chain b off items stop) :
    off = stop ∨ ∃ x ∈ items, x.off = off := by
  cases items with
  | nil => exact .inl h
  | cons x xs => exact .inr ⟨x, List.mem_cons_self, h.1⟩

/-! ## One thread over a range -/

/-- The rules let the entry at `q ++ q'` through, below the directory at `q`: it matches, neither it nor a
directory on the way to it is excluded, and it is included. -/
structure Passes (b : FsBuf) (t : Tree) (rules : List SearchRule) (comparator : Bytes → Bool)
    (q q' : List Bytes) : Prop where
  ne_nil : q' ≠ []
  entry : (t.entryAt (q ++ q')).isSome
  matches_name : comparator (q'.getLast?.getD [])
  not_excluded : ∀ r, r ≠ [] → r <+: q' → b.excluded rules (offAt b.firstNameOff t (q ++ r)) ≠ some true
  included : b.included rules (offAt b.firstNameOff t (q ++ q')) = some true

/-- A search of what is below the directory at `q` that has no limit looks at nothing in front of the
buffer. -/
def AllAskedInside (b : FsBuf) (t : Tree) (rules : List SearchRule) (comparator : Bytes → Bool)
    (q : List Bytes) (start : ℕ) : Prop :=
  ∀ q', ComesTo b t rules q start q' →
    AskedInside b rules comparator (offAt b.firstNameOff t (q ++ q')) (q'.getLast?.getD [])

/-- A search from the start of a range on meets all excluded directories. -/
theorem Represents.found_start_iff {c : List (Frame Bytes)} {k : Tree} (h : Represents b root (plug c k))
    {comparator : Bytes → Bool}
    (hasked : AllAskedInside b (plug c k) rules comparator (path c) (runPos b.firstNameOff c))
    (q' : List Bytes) :
    Found b (plug c k) rules comparator (path c) (runPos b.firstNameOff c) q' ↔
      Passes b (plug c k) rules comparator (path c) q' := by
  have hc := Fits.of_valid h.valid
  have hfrom : ∀ r, r ≠ [] → ((plug c k).entryAt (path c ++ r)).isSome →
      runPos b.firstNameOff c ≤ offAt b.firstNameOff (plug c k) (path c ++ r) := fun r hr hentry => by
    rw [entryAt_plug hc] at hentry
    obtain ⟨x, hx, hname, hpath⟩ := (h.mem_items_iff r).mpr ⟨hr, hentry⟩
    rw [← hpath, ← (h.off_eq hx hname).1]
    exact (inTree_of_mem hx).le_off
  constructor
  · intro hf
    refine ⟨hf.ne_nil, hf.entry, hf.matches_name, fun r hr hpre => ?_, hf.included⟩
    by_cases hne : r = q'
    · rw [hne, hf.not_excluded]
      simp
    obtain ⟨s, hs⟩ := hpre
    have hs' : s ≠ [] := fun h0 => hne (by rw [← hs, h0, List.append_nil])
    have hentry := hf.entry
    rw [← hs, ← List.append_assoc] at hentry
    obtain ⟨k', hk', -⟩ := exists_node_of_entryAt_append hs' hentry
    exact hf.visible r hr ⟨s, hs⟩ hne (hfrom r hr (hk' ▸ rfl))
  · intro hp
    have hcomes : ComesTo b (plug c k) rules (path c) (runPos b.firstNameOff c) q' :=
      ⟨hp.ne_nil, hp.entry, hfrom q' hp.ne_nil hp.entry, fun r hr hpre _ _ => hp.not_excluded r hr hpre⟩
    refine ⟨hcomes, hp.matches_name, ?_, hp.included⟩
    have hinside := (hasked q' hcomes).exclude_inside (.inr ⟨hp.matches_name, hp.included⟩)
    have hnot := hp.not_excluded q' hp.ne_nil List.prefix_rfl
    rcases hex : b.excluded rules (offAt b.firstNameOff (plug c k) (path c ++ q')) with _ | _ | _
    · exact absurd (FsBuf.checkName_eq_none_iff.mp hex) hinside
    · rfl
    · exact absurd hex hnot

/-- The offsets of the entries below the directory at `q` that the rules let through, in order. -/
structure PassingOffsets (b : FsBuf) (t : Tree) (rules : List SearchRule) (comparator : Bytes → Bool)
    (q : List Bytes) (offs : List ℕ) : Prop where
  sorted : offs.Pairwise (· < ·)
  mem_iff : ∀ o, o ∈ offs ↔ ∃ q', Passes b t rules comparator q q' ∧ offAt b.firstNameOff t (q ++ q') = o

/-- A search from the start of a range on finds what the rules let through. -/
theorem Represents.passingOffsets {c : List (Frame Bytes)} {k : Tree} (h : Represents b root (plug c k))
    {comparator : Bytes → Bool}
    (hasked : AllAskedInside b (plug c k) rules comparator (path c) (runPos b.firstNameOff c)) :
    PassingOffsets b (plug c k) rules comparator (path c)
      (rulesFound b comparator rules (treeItems (runPos b.firstNameOff c) (path c) k) (runPos b.firstNameOff c)) := by
  refine ⟨rulesFound_sorted h.searchable_plug.1.chain comparator rules _, fun o => ?_⟩
  rw [h.mem_rulesFound_iff]
  simp only [h.found_start_iff hasked]

/-- `rulesearch_thread` over the range of the directory at `q` reports the entries that the rules let
through. -/
def ThreadRight (b : FsBuf) (t : Tree) (rules : List SearchRule) (comparator : Bytes → Bool) (q : List Bytes)
    (reqResults start stop : ℕ) (maxCount : ℤ) : Prop :=
  ∃ offs : List ℕ, b.rulesearchThread comparator rules reqResults start stop maxCount =
      some ⟨offs.length, offs.take reqResults, start⟩ ∧ PassingOffsets b t rules comparator q offs

/-- A search without a limit looks at nothing in front of the buffer. -/
theorem Represents.rulesInside_unlimited {c : List (Frame Bytes)} {k : Tree} (h : Represents b root (plug c k))
    (comparator : Bytes → Bool) {start : ℕ} {maxCount : ℤ} (hmax : maxCount ≤ 0) :
    RulesInside b comparator rules (treeItems (runPos b.firstNameOff c) (path c) k) start maxCount ↔
      AllAskedInside b (plug c k) rules comparator (path c) start := by
  rw [h.rulesInside_iff]
  exact forall₂_congr fun q' _ => ⟨fun hall => hall fun hpos => absurd hpos (by omega), fun hall _ => hall⟩

/-- `rulesearch_thread` over the range of a directory reports the entries that the rules let through exactly if no
rule that it asks looks in front of the buffer. -/
theorem Represents.threadRight_iff (h : Represents b root t) {p : Bytes} {q : List Bytes} {k : Tree}
    {off start stop : ℕ} (hres : resolve root t p = some q) (hdir : t.entryAt q = some (.node k))
    (hrange : b.getPathRange p = some (off, start, stop)) (hstart : start ≠ 0) {rules : List SearchRule}
    (hrules : rules ≠ []) (comparator : Bytes → Bool) (reqResults : ℕ) {maxCount : ℤ} (hmax : maxCount ≤ 0) :
    ThreadRight b t rules comparator q reqResults start stop maxCount ↔
      AllAskedInside b t rules comparator q start := by
  obtain ⟨c, rfl, rfl, rfl, rfl⟩ := h.range_eq hres hdir hrange hstart
  obtain ⟨hsearch, htail⟩ := h.searchable_plug
  obtain ⟨hfound, hnone⟩ := @rulesearchThread_eq b _ _ _ comparator _ hsearch htail hsearch.chain.start_eq
    rules hrules reqResults maxCount
  have hinside := @Represents.rulesInside_unlimited b rules root c k h comparator (runPos b.firstNameOff c) maxCount
    hmax
  rw [← hinside]
  constructor
  · rintro ⟨offs, hreport, -⟩
    by_contra hnot
    rw [hnone hnot] at hreport
    cases hreport
  · intro hin
    refine ⟨_, ?_, h.passingOffsets (hinside.mp hin)⟩
    rw [hfound hin, hitsOf, if_neg (by omega)]

/-- The image of `/a`. -/
def sampleFileBuf : FsBuf := imageBuf [47] (.leaf [97] .nil) 64

/-- A rule for names that end with twelve times `z`. -/
def longEndRule : SearchRule := ⟨ruleExcludeSubD, List.replicate 12 122⟩

/-- Eleven bytes stand in front of the end of the name `a`, fewer than the rule has. -/
theorem not_threadRight : Represents sampleFileBuf [47] (.leaf [97] .nil) ∧
    sampleFileBuf.getPathRange [47] = some (dataStart, 10, 18) ∧
    sampleFileBuf.rulesearchThread (fun _ => true) [longEndRule] 10 10 18 (-1) = none ∧
    ¬ ThreadRight sampleFileBuf (.leaf [97] .nil) [longEndRule] (fun _ => true) [] 10 10 18 (-1) := by
  have hnone : sampleFileBuf.rulesearchThread (fun _ => true) [longEndRule] 10 10 18 (-1) = none := by
    decide +kernel
  refine ⟨represents_imageBuf [47] (.leaf [97] .nil) 64 ⟨rfl, rfl, by decide⟩ (by decide) (by decide) (by decide),
    by decide, hnone, ?_⟩
  rintro ⟨offs, hreport, -⟩
  rw [hnone] at hreport
  cases hreport

/-- Without `/a`, what is left of `/a/x` and `/b` is `/b`. -/
theorem Represents.threadRight_iff_sample :
    ThreadRight (imageBuf [47] (.node [97] (.leaf [120] .nil) (.leaf [98] .nil)) 64)
      (.node [97] (.leaf [120] .nil) (.leaf [98] .nil)) [⟨ruleExcludeSubS, [97]⟩] (fun _ => true) [] 10 10 32
      (-1) := by
  have hrep := represents_imageBuf [47] (.node [97] (.leaf [120] .nil) (.leaf [98] .nil)) 64
    ⟨rfl, rfl, by decide⟩ (by decide) (by decide) (by decide)
  have hrange : (imageBuf [47] (.node [97] (.leaf [120] .nil) (.leaf [98] .nil)) 64).getPathRange [47] =
      some (dataStart, 10, 32) := by decide
  refine (hrep.threadRight_iff (q := []) (by decide) rfl hrange (by decide) (List.cons_ne_nil _ _)
    (fun _ => true) 10 (by decide : (-1 : ℤ) ≤ 0)).mpr fun q' _ => ?_
  have hends : ∀ rule ∈ (getRules [⟨ruleExcludeSubS, [97]⟩] excludeRule).2, ¬ AsksEnd rule := by decide
  exact ⟨fun _ => FsBuf.not_looksInFront fun rule hrule h => absurd h (hends rule hrule), fun _ => absurd rfl⟩

end DeepinAnything
