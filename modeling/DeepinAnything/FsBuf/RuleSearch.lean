import DeepinAnything.FsBuf.Items

/-!
# What a search with rules finds

`rulesearch_thread` passes over what is below the directories that an exclude rule names. It knows only
those directories that it has met itself, so a search that starts in the middle of a range can find what
is below a directory before it. `foundFrom` says what a search finds from an item on.
-/

namespace DeepinAnything

open ByteMem

/-! ## Chains of items -/

variable {b : FsBuf} {items : List Item} {off cur stop : ℕ}

theorem Chain.le (h : Chain b off items stop) : off ≤ stop :=
  le_trans (Nat.le_add_right _ _) (FsBuf.Names.le h)

theorem Chain.range (h : Chain b off items stop) {x : Item} (hx : x ∈ items) :
    off ≤ x.off ∧ x.off < stop := by
  induction items generalizing off with
  | nil => simp at hx
  | cons y ys ih =>
    obtain ⟨hoff, -, -, hlt, hys⟩ := h
    have hle := Chain.le hys
    rcases List.mem_cons.mp hx with rfl | hx
    · have : x.off = off := hoff
      omega
    · have := ih hys hx
      omega

theorem Chain.strAt (h : Chain b off items stop) {x : Item} (hx : x ∈ items) : b.strAt x.off = x.name := by
  induction items generalizing off with
  | nil => simp at hx
  | cons y ys ih =>
    obtain ⟨hoff, hstr, -, -, hys⟩ := h
    rcases List.mem_cons.mp hx with rfl | hx
    · have : x.off = off := hoff
      rw [this]
      exact hstr
    · exact ih hys hx

/-- A chain can be cut before each of its items. -/
theorem Chain.split {mid : ℕ} (h : Chain b off items stop)
    (hmid : mid = stop ∨ ∃ x ∈ items, x.off = mid) :
    ∃ xs ys, items = xs ++ ys ∧ Chain b off xs mid ∧ Chain b mid ys stop := by
  rcases hmid with rfl | ⟨x, hx, rfl⟩
  · exact ⟨items, [], by simp, h, rfl⟩
  induction items generalizing off with
  | nil => simp at hx
  | cons y ys ih =>
    by_cases hoff : y.off = x.off
    · obtain rfl : x.off = off := hoff.symm.trans h.1
      exact ⟨[], y :: ys, rfl, rfl, h⟩
    · have hx' : x ∈ ys := (List.mem_cons.mp hx).resolve_left fun heq => hoff (by rw [heq])
      obtain ⟨xs, zs, rfl, hxs, hzs⟩ := ih h.2.2.2.2 hx'
      exact ⟨y :: xs, zs, rfl, ⟨h.1, h.2.1, h.2.2.1, h.2.2.2.1, hxs⟩, hzs⟩

/-! ## Ranges -/

namespace Searchable

variable (h : Searchable b items off stop)
include h

/-- The range of a directory is what the code reads at its offset. -/
theorem kids_eq {y : Item} (hy : y ∈ items) (hname : y.name ≠ []) {j : JumpOff} (hj : j ∈ y.kids) :
    j = ⟨b.getKidsOffset y.off, b.getTreeEndOffset (b.getKidsOffset y.off)⟩ := by
  obtain ⟨hkids, hend⟩ := h.reads y hy hname
  have hstart : b.getKidsOffset y.off = j.start := by
    rw [hkids, Option.mem_def.mp hj]
    rfl
  rw [hstart, hend j hj]

/-- A range starts at an item, which goes through the directory. -/
theorem exists_start {y : Item} (hy : y ∈ items) {j : JumpOff} (hj : j ∈ y.kids) :
    ∃ z ∈ items, z.off = j.start ∧ z.name ≠ [] ∧ z.Below y := by
  obtain ⟨⟨z, hz, hoff, hname⟩, -⟩ := h.bounded y hy j hj
  have hrange := h.range y hy j hj
  exact ⟨z, hz, hoff, hname, ((h.nested z hz y hy).inside.mpr ⟨j, hj, by omega, by omega⟩).2⟩

theorem below_iff {x y : Item} (hx : x ∈ items) (hy : y ∈ items) {j : JumpOff} (hj : j ∈ y.kids) :
    x.Below y ↔ j.start ≤ x.off ∧ x.off < j.stop := by
  have hsome : y.kids.isSome := Option.isSome_of_mem hj
  have hinside := (h.nested x hx y hy).inside
  constructor
  · intro hbelow
    obtain ⟨i, hi, hrange⟩ := hinside.mp ⟨hsome, hbelow⟩
    obtain rfl := Option.mem_unique hi hj
    exact hrange
  · intro hrange
    exact (hinside.mpr ⟨j, hj, hrange⟩).2

/-- What is below a directory that is below another is below that. -/
theorem range_nested {y y' : Item} (hy : y ∈ items) (hy' : y' ∈ items) {j j' : JumpOff} (hj : j ∈ y.kids)
    (hj' : j' ∈ y'.kids) (hin : j.start ≤ y'.off ∧ y'.off < j.stop) :
    j'.start < j.stop ∧ j'.stop ≤ j.stop := by
  have hbelow := (h.below_iff hy' hy hj).mpr hin
  have htrans : ∀ z ∈ items, z.Below y' → z.off < j.stop := fun z hz hz' => by
    refine ((h.below_iff hz hy hj).mp ⟨hbelow.1.trans hz'.1, fun heq => hbelow.2 ?_⟩).2
    exact hbelow.1.eq_of_length_le (heq ▸ hz'.1.length_le)
  obtain ⟨z, hz, hoff, -, hz'⟩ := h.exists_start hy' hj'
  have hstart := htrans z hz hz'
  refine ⟨by omega, ?_⟩
  by_contra hlt
  have hrange := h.range y hy j hj
  have hrange' := h.range y' hy' j' hj'
  obtain ⟨w, hw, hwoff⟩ := ((h.bounded y hy j hj).2).resolve_left (by omega)
  have := htrans w hw ((h.below_iff hw hy' hj').mpr ⟨by omega, by omega⟩)
  omega

/-- A range that starts behind another one's start, of a directory before both, starts behind its end. -/
theorem range_disjoint {y y' : Item} (hy : y ∈ items) (hy' : y' ∈ items) (hname : y.name ≠ [])
    (hname' : y'.name ≠ []) {j j' : JumpOff} (hj : j ∈ y.kids) (hj' : j' ∈ y'.kids)
    (hlt : y'.off < j.start) (hle : j.start ≤ j'.start) (hne : j' ≠ j) : j.stop ≤ j'.start := by
  by_contra hgt
  have hrange := h.range y hy j hj
  have hrange' := h.range y' hy' j' hj'
  obtain ⟨z, hz, hoff, -, hz'⟩ := h.exists_start hy' hj'
  have hzy : z.Below y := (h.below_iff hz hy hj).mpr (by omega)
  by_cases hpath : y.path = y'.path
  · -- the same path means the same start
    obtain ⟨w, hw, hwoff, -, hwy⟩ := h.exists_start hy hj
    have hwy' : w.Below y' := ⟨hpath ▸ hwy.1, fun heq => hwy.2 (hpath.trans heq)⟩
    have hw' := (h.below_iff hw hy' hj').mp hwy'
    have hstart : j.start = j'.start := by omega
    refine hne ?_
    have hend := (h.reads y hy hname).2 j hj
    have hend' := (h.reads y' hy' hname').2 j' hj'
    rw [← hstart, hend] at hend'
    cases j
    cases j'
    simp only at hstart hend'
    rw [hstart, hend']
  rcases List.prefix_or_prefix_of_prefix hzy.1 hz'.1 with hpre | hpre
  · have := (h.below_iff hy' hy hj).mp ⟨hpre, hpath⟩
    omega
  · have := (h.below_iff hy hy' hj').mp ⟨hpre, fun heq => hpath heq.symm⟩
    omega

end Searchable

/-! ## Jumps -/

theorem hitJump_spec {jumps : List JumpOff} {m : ℕ} {hit : Option JumpOff} :
    (hitJump jumps m hit = hit ∧ ∀ j ∈ jumps, m < j.start) ∨
      ∃ j ∈ jumps, hitJump jumps m hit = some j ∧ j.start ≤ m := by
  induction jumps generalizing m hit with
  | nil => exact .inl ⟨rfl, by simp⟩
  | cons i jumps ih =>
    rw [hitJump]
    by_cases hi : i.start ≤ m
    · rw [if_pos hi]
      refine .inr ?_
      rcases @ih i.start (some i) with ⟨heq, -⟩ | ⟨j, hj, heq, hle⟩
      · exact ⟨i, by simp, heq, hi⟩
      · exact ⟨j, List.mem_cons_of_mem _ hj, heq, by omega⟩
    · rw [if_neg hi]
      rcases @ih m hit with ⟨heq, hall⟩ | ⟨j, hj, heq, hle⟩
      · refine .inl ⟨heq, fun j hj => ?_⟩
        rcases List.mem_cons.mp hj with rfl | hj
        · omega
        · exact hall j hj
      · exact .inr ⟨j, List.mem_cons_of_mem _ hj, heq, hle⟩

theorem shouldJump_spec (jumps : List JumpOff) (nameOff : ℕ) :
    (shouldJump jumps nameOff = none ∧ ∀ j ∈ jumps, nameOff < j.start) ∨
      ∃ j ∈ jumps, shouldJump jumps nameOff = some (j.stop, jumps.erase j) ∧ j.start ≤ nameOff := by
  rw [shouldJump]
  rcases @hitJump_spec jumps nameOff none with ⟨heq, hall⟩ | ⟨j, hj, heq, hle⟩
  · exact .inl ⟨by rw [heq]; rfl, hall⟩
  · exact .inr ⟨j, hj, by rw [heq]; rfl, hle⟩

/-! ## The directories to jump over -/

section Rules

variable (b) (ruleVal : ℕ) (exRule : List SearchRule)

variable {b ruleVal exRule} in
/-- What is jumped over has kids. -/
theorem FsBuf.kidsOffset_of_skipped {off : ℕ} (h : b.skipped ruleVal exRule off = some true) :
    b.getKidsOffset off ≠ 0 := by
  rw [FsBuf.skipped] at h
  split at h
  · rename_i hdir
    exact hdir.2
  · cases h

/-- An entry whose kids are jumped over. -/
def Item.Skip (x : Item) : Prop := x.name ≠ [] ∧ b.skipped ruleVal exRule x.off = some true

instance (x : Item) : Decidable (x.Skip b ruleVal exRule) := inferInstanceAs (Decidable (_ ∧ _))

/-- The jumps that a search from `start` on has before it when it has come to `cur`. -/
structure Pending (items : List Item) (start cur : ℕ) (jumps : List JumpOff) : Prop where
  nodup : jumps.Nodup
  mem_iff : ∀ j, j ∈ jumps ↔ ∃ y ∈ items, start ≤ y.off ∧ y.off < cur ∧ y.Skip b ruleVal exRule ∧
    j ∈ y.kids ∧ cur ≤ j.start
  clear : ∀ y ∈ items, start ≤ y.off → y.off < cur → y.Skip b ruleVal exRule →
    ∀ j ∈ y.kids, cur ≤ j.start ∨ j.stop ≤ cur

end Rules

namespace Pending

variable {ruleVal : ℕ} {exRule : List SearchRule} {start : ℕ} {jumps : List JumpOff}

theorem init (items : List Item) (start : ℕ) : Pending b ruleVal exRule items start start [] := by
  refine ⟨List.nodup_nil, fun j => iff_of_false List.not_mem_nil ?_, fun y _ hle hlt => by omega⟩
  rintro ⟨y, -, hle, hlt, -⟩
  omega

variable (h : Searchable b items off stop) (hp : Pending b ruleVal exRule items start cur jumps)
include h hp

/-- After a jump. -/
theorem jump {j : JumpOff} (hj : j ∈ jumps) (hcur : j.start = cur) :
    Pending b ruleVal exRule items start j.stop (jumps.erase j) := by
  obtain ⟨y, hy, hfrom, hlt, hskip, hjy, -⟩ := (hp.mem_iff j).mp hj
  have hrange := h.range y hy j hjy
  -- a directory that has been met before the jump
  have hbefore : ∀ y' ∈ items, y'.off < cur → y'.Skip b ruleVal exRule → ∀ j' ∈ y'.kids,
      cur ≤ j'.start → j' ≠ j → j.stop ≤ j'.start := fun y' hy' hlt' hskip' j' hj' hle hne =>
    h.range_disjoint hy hy' hskip.1 hskip'.1 hjy hj' (by omega) (by omega) hne
  -- a directory that has been jumped over
  have hover : ∀ y' ∈ items, ¬ y'.off < cur → y'.off < j.stop → ∀ j' ∈ y'.kids,
      j'.start < j.stop ∧ j'.stop ≤ j.stop := fun y' hy' hge hlt' j' hj' =>
    h.range_nested hy hy' hjy hj' (by omega)
  refine ⟨hp.nodup.erase _, fun j' => ?_, fun y' hy' hfrom' hlt' hskip' j' hj' => ?_⟩
  · rw [hp.nodup.mem_erase_iff, hp.mem_iff]
    constructor
    · rintro ⟨hne, y', hy', hfrom', hlt', hskip', hj', hle⟩
      exact ⟨y', hy', hfrom', by omega, hskip', hj', hbefore y' hy' hlt' hskip' j' hj' hle hne⟩
    · rintro ⟨y', hy', hfrom', hlt', hskip', hj', hle⟩
      refine ⟨fun heq => by rw [heq] at hle; omega, y', hy', hfrom', ?_, hskip', hj', by omega⟩
      by_contra hge
      have := hover y' hy' hge hlt' j' hj'
      omega
  · by_cases hseen : y'.off < cur
    · by_cases hne : j' = j
      · exact .inr (by rw [hne])
      · rcases hp.clear y' hy' hfrom' hseen hskip' j' hj' with hle | hle
        · exact .inl (hbefore y' hy' hseen hskip' j' hj' hle hne)
        · exact .inr (by omega)
    · exact .inr (hover y' hy' hseen hlt' j' hj').2

/-- After an item at which no jump starts. -/
theorem next {x : Item} (hx : x ∈ items) (hoff : x.off = cur) {cur' : ℕ} (hlt : cur < cur')
    (hfrom : start ≤ cur) (hgap : ∀ z ∈ items, cur < z.off → cur' ≤ z.off)
    (hfree : ∀ j ∈ jumps, j.start ≠ cur) :
    Pending b ruleVal exRule items start cur' (if x.Skip b ruleVal exRule then
      jumps ++ [⟨b.getKidsOffset cur, b.getTreeEndOffset (b.getKidsOffset cur)⟩] else jumps) := by
  -- a range that does not start here starts at a later item
  have hlater : ∀ y ∈ items, ∀ j ∈ y.kids, cur ≤ j.start → j.start ≠ cur → cur' ≤ j.start :=
    fun y hy j hj hle hne => by
      obtain ⟨z, hz, hzoff, -⟩ := h.exists_start hy hj
      have := hgap z hz (by omega)
      omega
  have hold : ∀ y ∈ items, start ≤ y.off → y.off < cur → y.Skip b ruleVal exRule → ∀ j ∈ y.kids,
      cur ≤ j.start → cur' ≤ j.start := fun y hy hfrom hlt hskip j hj hle =>
    hlater y hy j hj hle (hfree j ((hp.mem_iff j).mpr ⟨y, hy, hfrom, hlt, hskip, hj, hle⟩))
  have hsame : ∀ y ∈ items, y.off < cur' → ¬ y.off < cur → y.off = cur := fun y hy hlt' hge => by
    by_contra hne
    have := hgap y hy (by omega)
    omega
  have hskips : ∀ y ∈ items, y.off = cur → (y.Skip b ruleVal exRule ↔ x.Skip b ruleVal exRule) :=
    fun y hy hyoff => by
      rw [Item.Skip, Item.Skip, ← h.chain.strAt hy, ← h.chain.strAt hx, hyoff, hoff]
  have hmem : ∀ j, (∃ y ∈ items, start ≤ y.off ∧ y.off < cur' ∧ y.Skip b ruleVal exRule ∧ j ∈ y.kids ∧
      cur' ≤ j.start) ↔ j ∈ jumps ∨ x.Skip b ruleVal exRule ∧ j ∈ x.kids := fun j => by
    rw [hp.mem_iff]
    constructor
    · rintro ⟨y, hy, hyfrom, hylt, hskip, hj, hle⟩
      by_cases hseen : y.off < cur
      · exact .inl ⟨y, hy, hyfrom, hseen, hskip, hj, by omega⟩
      · have hyoff := hsame y hy hylt hseen
        have hxskip := (hskips y hy hyoff).mp hskip
        refine .inr ⟨hxskip, ?_⟩
        have hkids := (h.reads x hx hxskip.1).1
        have hstart := h.range y hy j hj
        rw [h.kids_eq hy hskip.1 hj] at hstart ⊢
        rw [hyoff] at hstart ⊢
        rw [hoff] at hkids
        cases hxk : x.kids with
        | none =>
          rw [hxk] at hkids
          simp only [Option.map_none, Option.getD_none] at hkids
          simp only [hkids] at hstart
          omega
        | some i =>
          rw [h.kids_eq hx hxskip.1 hxk, hoff]
          rfl
    · rintro (⟨y, hy, hyfrom, hylt, hskip, hj, hle⟩ | ⟨hskip, hj⟩)
      · exact ⟨y, hy, hyfrom, by omega, hskip, hj, hold y hy hyfrom hylt hskip j hj hle⟩
      · have := h.range x hx j hj
        exact ⟨x, hx, by omega, by omega, hskip, hj, hlater x hx j hj (by omega) (by omega)⟩
  have hclear : ∀ y ∈ items, start ≤ y.off → y.off < cur' → y.Skip b ruleVal exRule → ∀ j ∈ y.kids,
      cur' ≤ j.start ∨ j.stop ≤ cur' := fun y hy hyfrom hylt hskip j hj => by
    by_cases hseen : y.off < cur
    · rcases hp.clear y hy hyfrom hseen hskip j hj with hle | hle
      · exact .inl (hold y hy hyfrom hseen hskip j hj hle)
      · exact .inr (by omega)
    · have hyoff := hsame y hy hylt hseen
      have := h.range y hy j hj
      exact .inl (hlater y hy j hj (by omega) (by omega))
  by_cases hskip : x.Skip b ruleVal exRule
  · rw [if_pos hskip]
    have hxkids : ∀ j, j ∈ x.kids ↔ j = ⟨b.getKidsOffset cur, b.getTreeEndOffset (b.getKidsOffset cur)⟩ :=
      fun j => by
        constructor
        · intro hj
          rw [h.kids_eq hx hskip.1 hj, hoff]
        · rintro rfl
          have hkids := (h.reads x hx hskip.1).1
          have hne : b.getKidsOffset x.off ≠ 0 := FsBuf.kidsOffset_of_skipped hskip.2
          cases hxk : x.kids with
          | none =>
            rw [hxk] at hkids
            exact absurd hkids hne
          | some i =>
            rw [h.kids_eq hx hskip.1 hxk, hoff]
            rfl
    refine ⟨?_, fun j => ?_, hclear⟩
    · refine List.nodup_append.mpr ⟨hp.nodup, by simp, fun i hi j hj heq => ?_⟩
      obtain rfl := List.mem_singleton.mp hj
      obtain ⟨y, hy, -, hylt, -, hiy, -⟩ := (hp.mem_iff i).mp hi
      rw [heq] at hiy
      have := (h.nested x hx y hy).unique _ ((hxkids _).mpr rfl) hiy
      omega
    · rw [hmem, List.mem_append, List.mem_singleton, ← hxkids]
      tauto
  · rw [if_neg hskip]
    refine ⟨hp.nodup, fun j => ?_, hclear⟩
    rw [hmem]
    tauto

end Pending

/-! ## What a search finds -/

section Found

variable (b) (comparator : Bytes → Bool) (ruleVal : ℕ) (inRule exRule : List SearchRule)

/-- An entry that is a result where it is met. -/
def Item.Wanted (x : Item) : Prop :=
  x.name ≠ [] ∧ ¬ x.Skip b ruleVal exRule ∧ comparator x.name ∧
    b.admits ruleVal inRule exRule x.off = some true

instance (x : Item) : Decidable (x.Wanted b comparator ruleVal inRule exRule) :=
  inferInstanceAs (Decidable (_ ∧ _))

/-- What the rules are asked where the item is met looks at nothing in front of the buffer. -/
def Item.AskedInside (x : Item) : Prop :=
  x.name ≠ [] → b.skipped ruleVal exRule x.off ≠ none ∧
    (b.skipped ruleVal exRule x.off = some false → comparator x.name →
      b.admits ruleVal inRule exRule x.off ≠ none)

/-- A search from `start` on jumps over the item. -/
def Item.HiddenFrom (items : List Item) (start : ℕ) (x : Item) : Prop :=
  ∃ y ∈ items, start ≤ y.off ∧ y.Skip b ruleVal exRule ∧ x.Below y

instance (start : ℕ) (x : Item) : Decidable (x.HiddenFrom b ruleVal exRule items start) :=
  inferInstanceAs (Decidable (∃ y ∈ items, _))

/-- What a search from `start` on finds among the items `xs`. -/
def foundAmong (items : List Item) (start : ℕ) (xs : List Item) : List ℕ :=
  (xs.filter fun x => start ≤ x.off ∧ x.Wanted b comparator ruleVal inRule exRule ∧
    ¬ x.HiddenFrom b ruleVal exRule items start).map Item.off

/-- The items that start before `endPos`. -/
def upTo (endPos : ℕ) (xs : List Item) : List Item := xs.filter fun x => x.off < endPos

/-- What a search from `start` on finds. -/
def foundFrom (items : List Item) (start : ℕ) : List ℕ :=
  foundAmong b comparator ruleVal inRule exRule items start items

/-- A search from `start` on that has found `done` results before looks at nothing in front of the buffer
when it goes on through the items `xs`: not at those that it comes to before it has found enough. -/
def AsksInside (items : List Item) (start : ℕ) (maxCount : ℤ) (done : ℕ) (xs : List Item) : Prop :=
  ∀ x ∈ xs, start ≤ x.off → ¬ x.HiddenFrom b ruleVal exRule items start →
    (0 < maxCount → ((done + (foundAmong b comparator ruleVal inRule exRule items start xs).countP (· < x.off) :
      ℕ) : ℤ) < maxCount) → x.AskedInside b comparator ruleVal inRule exRule

/-- What a thread leaves that has found `found` and has stopped at the limit. -/
def hitsOf (maxCount : ℤ) (reqResults startPos : ℕ) (found : List ℕ) : Hits :=
  if 0 < maxCount ∧ maxCount ≤ found.length then
    ⟨maxCount.toNat, (found.take maxCount.toNat).take reqResults,
      b.nextName ((found.take maxCount.toNat).getLast?.getD 0)⟩
  else ⟨found.length, found.take reqResults, startPos⟩

end Found

theorem upTo_append (endPos : ℕ) (xs ys : List Item) : upTo endPos (xs ++ ys) = upTo endPos xs ++ upTo endPos ys :=
  List.filter_append xs ys

/-- All items of a chain start before its end. -/
theorem Chain.upTo_eq (h : Chain b off items stop) : upTo stop items = items :=
  List.filter_eq_self.mpr fun _ hx => decide_eq_true (h.range hx).2

/-- Before a place, what is found up to a later one is what is found at all. -/
theorem countP_foundAmong_upTo {comparator : Bytes → Bool} {ruleVal : ℕ} {inRule exRule : List SearchRule}
    {start endPos o : ℕ} (hle : o ≤ endPos) (xs : List Item) :
    (foundAmong b comparator ruleVal inRule exRule items start (upTo endPos xs)).countP (· < o) =
      (foundAmong b comparator ruleVal inRule exRule items start xs).countP (· < o) := by
  rw [foundAmong, foundAmong, List.countP_map, List.countP_map, upTo, List.filter_filter, List.countP_filter,
    List.countP_filter]
  refine List.countP_congr fun x _ => ?_
  simp only [Function.comp_apply, Bool.and_eq_true, decide_eq_true_eq]
  constructor
  · rintro ⟨hlt, h, -⟩
    exact ⟨hlt, h⟩
  · rintro ⟨hlt, h⟩
    exact ⟨hlt, h, by omega⟩

/-- From an item behind the end on, no item starts before it. -/
theorem Chain.upTo_eq_nil {endPos : ℕ} (h : Chain b off items stop) (hle : endPos ≤ off) :
    upTo endPos items = [] :=
  List.filter_eq_nil_iff.mpr fun x hx => by
    have := (h.range hx).1
    rw [decide_eq_true_eq]
    omega

theorem Hits.add_take (found : List ℕ) (reqResults startPos nameOff : ℕ) :
    Hits.add ⟨found.length, found.take reqResults, startPos⟩ reqResults nameOff =
      ⟨(found ++ [nameOff]).length, (found ++ [nameOff]).take reqResults, startPos⟩ := by
  rw [Hits.add, List.length_append, List.length_singleton]
  by_cases hroom : found.length < reqResults
  · rw [if_pos hroom, List.take_of_length_le (by omega), List.take_of_length_le (by simp; omega)]
  · rw [if_neg hroom, List.take_append_of_le_length (by omega)]

section Loop

variable {comparator : Bytes → Bool} {ruleVal : ℕ} {inRule exRule : List SearchRule} {start : ℕ}
  {jumps : List JumpOff}

/-- An item at which no jump starts is not hidden. -/
theorem Pending.not_hidden (h : Searchable b items off stop)
    (hp : Pending b ruleVal exRule items start cur jumps) {x : Item} (hx : x ∈ items) (hoff : x.off = cur)
    (hfree : ∀ j ∈ jumps, cur < j.start) : ¬ x.HiddenFrom b ruleVal exRule items start := by
  rintro ⟨y, hy, hfrom, hskip, hbelow⟩
  have hkids := (h.reads y hy hskip.1).1
  have hne : b.getKidsOffset y.off ≠ 0 := FsBuf.kidsOffset_of_skipped hskip.2
  cases hk : y.kids with
  | none =>
    rw [hk] at hkids
    exact hne hkids
  | some j =>
    have hin := (h.below_iff hx hy hk).mp hbelow
    have hrange := h.range y hy j hk
    rcases hp.clear y hy hfrom (by omega) hskip j hk with hle | hle
    · have := hfree j ((hp.mem_iff j).mpr ⟨y, hy, hfrom, by omega, hskip, hk, hle⟩)
      omega
    · omega

/-- The items that a jump passes over are hidden. -/
theorem Pending.hidden (h : Searchable b items off stop)
    (hp : Pending b ruleVal exRule items start cur jumps) {j : JumpOff} (hj : j ∈ jumps) {x : Item}
    (hx : x ∈ items) (hin : j.start ≤ x.off ∧ x.off < j.stop) :
    x.HiddenFrom b ruleVal exRule items start := by
  obtain ⟨y, hy, hfrom, -, hskip, hjy, -⟩ := (hp.mem_iff j).mp hj
  exact ⟨y, hy, hfrom, hskip, (h.below_iff hx hy hjy).mpr hin⟩

theorem FsBuf.wanted_eq_iff {nameOff : ℕ} {r : Option Bool} (hr : r ≠ some false) :
    b.wanted comparator ruleVal inRule exRule nameOff = r ↔
      comparator (b.strAt nameOff) ∧ b.admits ruleVal inRule exRule nameOff = r := by
  rw [wanted]
  split
  · rename_i hmatch
    exact (and_iff_right hmatch).symm
  · rename_i hmatch
    exact iff_of_false (fun heq => hr heq.symm) fun hall => hmatch hall.1

/-- Below a directory that is jumped over nothing is asked and nothing found. -/
theorem foundAmong_hidden {xs ys : List Item} (hxs : ∀ x ∈ xs, x.HiddenFrom b ruleVal exRule items start) :
    foundAmong b comparator ruleVal inRule exRule items start (xs ++ ys) =
      foundAmong b comparator ruleVal inRule exRule items start ys := by
  rw [foundAmong, foundAmong, List.filter_append, List.filter_eq_nil_iff.mpr, List.nil_append]
  exact fun x hx => by simp [hxs x hx]

theorem asksInside_hidden {maxCount : ℤ} {done : ℕ} {xs ys : List Item}
    (hxs : ∀ x ∈ xs, x.HiddenFrom b ruleVal exRule items start) :
    AsksInside b comparator ruleVal inRule exRule items start maxCount done (xs ++ ys) ↔
      AsksInside b comparator ruleVal inRule exRule items start maxCount done ys := by
  rw [AsksInside, AsksInside, foundAmong_hidden hxs, List.forall_mem_append]
  exact and_iff_right fun x hx _ hvisible => absurd (hxs x hx) hvisible

/-- A step over an item that is no result. -/
theorem asksInside_cons {maxCount : ℤ} {done : ℕ} {x : Item} {ys : List Item}
    (hx : x.AskedInside b comparator ruleVal inRule exRule)
    (hfound : foundAmong b comparator ruleVal inRule exRule items start (x :: ys) =
      foundAmong b comparator ruleVal inRule exRule items start ys) :
    AsksInside b comparator ruleVal inRule exRule items start maxCount done (x :: ys) ↔
      AsksInside b comparator ruleVal inRule exRule items start maxCount done ys := by
  rw [AsksInside, AsksInside, hfound, List.forall_mem_cons]
  exact and_iff_right fun _ _ _ => hx

/-- A step over a result. -/
theorem asksInside_cons_found {maxCount : ℤ} {done : ℕ} {x : Item} {ys : List Item}
    (hx : x.AskedInside b comparator ruleVal inRule exRule) (hlt : ∀ z ∈ ys, x.off < z.off)
    (hfound : foundAmong b comparator ruleVal inRule exRule items start (x :: ys) =
      x.off :: foundAmong b comparator ruleVal inRule exRule items start ys) :
    AsksInside b comparator ruleVal inRule exRule items start maxCount done (x :: ys) ↔
      AsksInside b comparator ruleVal inRule exRule items start maxCount (done + 1) ys := by
  rw [AsksInside, AsksInside, hfound, List.forall_mem_cons, and_iff_right fun _ _ _ => hx]
  refine forall₂_congr fun z hz => ?_
  rw [List.countP_cons_of_pos (by simpa using hlt z hz), Nat.add_right_comm, Nat.add_assoc]

/-- A search that has found enough asks no more. -/
theorem asksInside_of_le {maxCount : ℤ} {done : ℕ} (hpos : 0 < maxCount) (hle : maxCount ≤ done) (ys : List Item) :
    AsksInside b comparator ruleVal inRule exRule items start maxCount done ys := by
  intro x _ _ _ hmore
  have := hmore hpos
  omega

/-- An item where the search looks in front of the buffer. -/
theorem not_asksInside {maxCount : ℤ} {done : ℕ} {x : Item} {ys : List Item}
    (hx : ¬ x.AskedInside b comparator ruleVal inRule exRule)
    (hfrom : start ≤ x.off) (hvisible : ¬ x.HiddenFrom b ruleVal exRule items start)
    (hle : ∀ z ∈ x :: ys, x.off ≤ z.off)
    (hdone : 0 < maxCount → (done : ℤ) < maxCount) :
    ¬ AsksInside b comparator ruleVal inRule exRule items start maxCount done (x :: ys) := by
  intro hall
  refine hx (hall x List.mem_cons_self hfrom hvisible ?_)
  have hnone : (foundAmong b comparator ruleVal inRule exRule items start (x :: ys)).countP (· < x.off) = 0 := by
    refine List.countP_eq_zero.mpr fun o ho => ?_
    obtain ⟨z, hz, rfl⟩ := List.mem_map.mp ho
    simpa using hle z (List.mem_of_mem_filter hz)
  rw [hnone]
  exact hdone

/-- The loop of `rulesearch_thread` from an item up to `endPos`, with what has been found before: it looks in
front of the buffer, or finds what there is to find. -/
theorem rulesearchThreadLoop_eq (h : Searchable b items off stop) {reqResults startPos endPos : ℕ}
    {maxCount : ℤ} (hend : endPos ≤ stop) (fuel : ℕ) {pre ys : List Item} {done : List ℕ}
    (hitems : items = pre ++ ys) (hpre : Chain b off pre cur) (hys : Chain b cur ys stop)
    (hfrom : start ≤ cur) (hp : Pending b ruleVal exRule items start cur jumps)
    (hdone : 0 < maxCount → (done.length : ℤ) < maxCount) (hfuel : stop < fuel + cur) :
    (AsksInside b comparator ruleVal inRule exRule items start maxCount done.length (upTo endPos ys) →
      b.rulesearchThreadLoop comparator ruleVal inRule exRule reqResults endPos maxCount fuel cur jumps
          ⟨done.length, done.take reqResults, startPos⟩ =
        some (hitsOf b maxCount reqResults startPos
          (done ++ foundAmong b comparator ruleVal inRule exRule items start (upTo endPos ys)))) ∧
    (¬ AsksInside b comparator ruleVal inRule exRule items start maxCount done.length (upTo endPos ys) →
      b.rulesearchThreadLoop comparator ruleVal inRule exRule reqResults endPos maxCount fuel cur jumps
        ⟨done.length, done.take reqResults, startPos⟩ = none) := by
  induction fuel generalizing pre ys cur jumps done with
  | zero => exact absurd hys.le (by omega)
  | succ fuel ih =>
    rw [FsBuf.rulesearchThreadLoop]
    by_cases hbefore : cur < endPos
    swap
    · -- the end of the slice
      rw [if_neg hbefore, hys.upTo_eq_nil (Nat.le_of_not_lt hbefore)]
      refine ⟨fun _ => ?_, fun hnot => absurd (List.forall_mem_nil _) hnot⟩
      simp only [foundAmong, List.filter_nil, List.map_nil, List.append_nil, hitsOf]
      rw [if_neg fun hlimit => by have := hdone hlimit.1; omega]
    cases ys with
    | nil =>
      obtain rfl : cur = stop := hys
      omega
    | cons x ys =>
      have hx : x ∈ items := hitems ▸ List.mem_append_right _ List.mem_cons_self
      obtain rfl : x.off = cur := hys.1
      have hlt : x.off < b.nextName x.off := hys.2.2.2.1
      have htail : Chain b (b.nextName x.off) ys stop := hys.2.2.2.2
      have hstr : b.strAt x.off = x.name := hys.2.1
      have hcur := (hys.range (List.mem_cons_self (a := x))).2
      have hpre' : Chain b off (pre ++ [x]) (b.nextName x.off) :=
        hpre.append ⟨hys.1, hys.2.1, hys.2.2.1, hlt, rfl⟩
      have hitems' : items = (pre ++ [x]) ++ ys := by rw [hitems]; simp
      have hbehind : ∀ z ∈ ys, x.off < z.off := fun z hz => hlt.trans_le (htail.range hz).1
      have hgap : ∀ z ∈ items, x.off < z.off → b.nextName x.off ≤ z.off := fun z hz hzoff => by
        rw [hitems'] at hz
        rcases List.mem_append.mp hz with hz | hz
        · rcases List.mem_append.mp hz with hz | hz
          · have := hpre.range hz
            omega
          · rw [List.mem_singleton.mp hz] at hzoff
            omega
        · exact (htail.range hz).1
      have hcons : upTo endPos (x :: ys) = x :: upTo endPos ys :=
        List.filter_cons_of_pos (decide_eq_true hbefore)
      have hbehind' : ∀ z ∈ upTo endPos ys, x.off < z.off := fun z hz => hbehind z (List.mem_of_mem_filter hz)
      rw [if_pos hbefore]
      simp only [hstr]
      by_cases hname : x.name = []
      · -- a parent tag
        rw [if_pos hname]
        have hnext := hp.next h hx rfl hlt hfrom hgap fun j hj heq => by
          obtain ⟨y, hy, -, -, -, hjy, -⟩ := (hp.mem_iff j).mp hj
          obtain ⟨z, hz, hzoff, hzname, -⟩ := h.exists_start hy hjy
          rw [← h.chain.strAt hz, hzoff, heq, hstr] at hzname
          exact hzname hname
        rw [if_neg fun hskip => hskip.1 hname] at hnext
        have hfound : foundAmong b comparator ruleVal inRule exRule items start (x :: upTo endPos ys) =
            foundAmong b comparator ruleVal inRule exRule items start (upTo endPos ys) := by
          rw [foundAmong, foundAmong, List.filter_cons_of_neg (by simp [Item.Wanted, hname])]
        rw [hcons, asksInside_cons (fun hne => absurd hname hne) hfound, hfound]
        exact ih hitems' hpre' htail (by omega) hnext hdone (by omega)
      rw [if_neg hname]
      rcases shouldJump_spec jumps x.off with ⟨heq, hfree⟩ | ⟨j, hj, heq, hle⟩
      · rw [heq]
        have hnext := hp.next h hx rfl hlt hfrom hgap fun j hj heq => by
          have := hfree j hj
          omega
        have hvisible := hp.not_hidden h hx rfl hfree
        have hfirst : ∀ z ∈ x :: upTo endPos ys, x.off ≤ z.off := fun z hz =>
          (List.mem_cons.mp hz).elim (fun heq => heq ▸ le_rfl) fun hz => (hbehind' z hz).le
        simp only [Option.bind_eq_bind]
        rcases hskip : b.skipped ruleVal exRule x.off with _ | _ | _
        · -- the exclude rules look in front of the buffer
          have hnot : ¬ x.AskedInside b comparator ruleVal inRule exRule := fun hin => (hin hname).1 hskip
          exact ⟨fun hin => absurd (hcons ▸ hin) (not_asksInside hnot hfrom hvisible hfirst hdone), fun _ => rfl⟩
        · -- the name is compared
          have hxskip : ¬ x.Skip b ruleVal exRule := fun hs => by
            have := hs.2
            rw [hskip] at this
            cases this
          rw [if_neg hxskip] at hnext
          simp only [Option.bind_some, Bool.false_eq_true, if_false]
          rcases hwanted : b.wanted comparator ruleVal inRule exRule x.off with _ | _ | _
          · have hnot : ¬ x.AskedInside b comparator ruleVal inRule exRule := fun hin => by
              obtain ⟨hmatch, hthrough⟩ := (FsBuf.wanted_eq_iff (by simp)).mp hwanted
              exact (hin hname).2 hskip (hstr ▸ hmatch) hthrough
            exact ⟨fun hin => absurd (hcons ▸ hin) (not_asksInside hnot hfrom hvisible hfirst hdone), fun _ => rfl⟩
          · -- no result
            have hin : x.AskedInside b comparator ruleVal inRule exRule := fun _ =>
              ⟨by simp [hskip], fun _ hmatch hthrough => by
                rw [(FsBuf.wanted_eq_iff (by simp)).mpr ⟨hstr ▸ hmatch, hthrough⟩] at hwanted
                cases hwanted⟩
            have hfound : foundAmong b comparator ruleVal inRule exRule items start (x :: upTo endPos ys) =
                foundAmong b comparator ruleVal inRule exRule items start (upTo endPos ys) := by
              rw [foundAmong, foundAmong, List.filter_cons_of_neg]
              simp only [decide_eq_true_eq]
              rintro ⟨-, ⟨-, -, hmatch, hthrough⟩, -⟩
              rw [(FsBuf.wanted_eq_iff (by simp)).mpr ⟨hstr ▸ hmatch, hthrough⟩] at hwanted
              cases hwanted
            have hmore : ¬ Hits.reached ⟨done.length, done.take reqResults, startPos⟩ maxCount :=
              fun hlimit => by
                have := hdone hlimit.1
                have hle : maxCount ≤ done.length := hlimit.2
                omega
            simp only [Option.bind_some, Bool.false_eq_true, if_false, if_neg hmore]
            rw [hcons, asksInside_cons hin hfound, hfound]
            exact ih hitems' hpre' htail (by omega) hnext hdone (by omega)
          · -- a result
            obtain ⟨hmatch, hthrough⟩ := (FsBuf.wanted_eq_iff (by simp)).mp hwanted
            have hmatch' : comparator x.name = true := hstr ▸ hmatch
            have hin : x.AskedInside b comparator ruleVal inRule exRule := fun _ =>
              ⟨by simp [hskip], fun _ _ => by simp [hthrough]⟩
            have hfound : foundAmong b comparator ruleVal inRule exRule items start (x :: upTo endPos ys) =
                x.off :: foundAmong b comparator ruleVal inRule exRule items start (upTo endPos ys) := by
              rw [foundAmong, foundAmong, List.filter_cons_of_pos, List.map_cons]
              simp [Item.Wanted, hname, hxskip, hvisible, hfrom, hthrough, hmatch']
            simp only [Option.bind_some, if_true, Hits.add_take]
            rw [hcons, asksInside_cons_found hin hbehind' hfound, hfound]
            by_cases hlimit : Hits.reached ⟨(done ++ [x.off]).length, (done ++ [x.off]).take reqResults,
                startPos⟩ maxCount
            · rw [if_pos hlimit]
              have := hdone hlimit.1
              have hlen : maxCount ≤ (done ++ [x.off]).length := hlimit.2
              rw [List.length_append, List.length_singleton] at hlen
              refine ⟨fun _ => ?_, fun hnot => absurd (asksInside_of_le hlimit.1 hlen _) hnot⟩
              have hmax : maxCount = ((done.length + 1 : ℕ) : ℤ) := by push_cast at hlen ⊢; omega
              subst hmax
              have htake :
                  (done ++ x.off :: foundAmong b comparator ruleVal inRule exRule items start (upTo endPos ys)).take
                    (((done.length + 1 : ℕ) : ℤ)).toNat = done ++ [x.off] := by
                rw [Int.toNat_natCast, List.take_length_add_append]
                rfl
              rw [hitsOf, if_pos ⟨hlimit.1, by rw [List.length_append, List.length_cons]; omega⟩, htake]
              simp
            · have hmore : 0 < maxCount → ((done ++ [x.off]).length : ℤ) < maxCount := fun hpos => by
                have hnot : ¬ maxCount ≤ ((done ++ [x.off]).length : ℤ) := fun hle => hlimit ⟨hpos, hle⟩
                omega
              have hrest := ih hitems' hpre' htail (by omega) hnext hmore (by omega)
              rw [List.append_assoc, List.singleton_append, List.length_append, List.length_singleton] at hrest
              rw [if_neg hlimit]
              simpa using hrest
        · -- a directory whose kids are to be jumped over
          have hxskip : x.Skip b ruleVal exRule := ⟨hname, hskip⟩
          rw [if_pos hxskip] at hnext
          have hfound : foundAmong b comparator ruleVal inRule exRule items start (x :: upTo endPos ys) =
              foundAmong b comparator ruleVal inRule exRule items start (upTo endPos ys) := by
            rw [foundAmong, foundAmong, List.filter_cons_of_neg (by simp [Item.Wanted, hxskip])]
          have hin : x.AskedInside b comparator ruleVal inRule exRule := fun _ => by simp [hskip]
          rw [hcons, asksInside_cons hin hfound, hfound]
          exact ih hitems' hpre' htail (by omega) hnext hdone (by omega)
      · -- a jump over what is below a directory that has been met
        rw [heq]
        simp only
        obtain ⟨y, hy, -, -, -, hjy, hge⟩ := (hp.mem_iff j).mp hj
        have hstart : j.start = x.off := by omega
        have hrange := h.range y hy j hjy
        have hmid : j.stop = stop ∨ ∃ z ∈ x :: ys, z.off = j.stop := by
          refine ((h.bounded y hy j hjy).2).imp_right fun ⟨z, hz, hzoff⟩ => ⟨z, ?_, hzoff⟩
          rw [hitems] at hz
          refine (List.mem_append.mp hz).resolve_left fun hz => ?_
          have := (hpre.range hz).2
          omega
        obtain ⟨passed, rest, hsplit, hpassed, hrest⟩ := hys.split hmid
        rw [hsplit] at hitems ⊢
        have hhidden : ∀ z ∈ passed, z.HiddenFrom b ruleVal exRule items start := fun z hz => by
          have := hpassed.range hz
          exact hp.hidden h hj (hitems ▸ List.mem_append_right _ (List.mem_append_left _ hz)) (by omega)
        have hhidden' : ∀ z ∈ upTo endPos passed, z.HiddenFrom b ruleVal exRule items start := fun z hz =>
          hhidden z (List.mem_of_mem_filter hz)
        rw [upTo_append, asksInside_hidden hhidden', foundAmong_hidden hhidden']
        exact ih (by rw [hitems, List.append_assoc]) (hpre.append hpassed) hrest (by omega)
          (hp.jump h hj hstart) hdone (by omega)

end Loop

/-! ## One worker -/

section Worker

variable {comparator : Bytes → Bool} {start : ℕ}

/-- A search from `start` on with the given rules looks at nothing in front of the buffer. -/
def RulesInside (b : FsBuf) (comparator : Bytes → Bool) (rules : List SearchRule) (items : List Item)
    (start : ℕ) (maxCount : ℤ) : Prop :=
  AsksInside b comparator (getRules rules excludeRule).1 (getRules rules includeRule).2
    (getRules rules excludeRule).2 items start maxCount 0 items

/-- What a search from `start` on finds with the given rules. -/
def rulesFound (b : FsBuf) (comparator : Bytes → Bool) (rules : List SearchRule) (items : List Item)
    (start : ℕ) : List ℕ :=
  foundFrom b comparator (getRules rules excludeRule).1 (getRules rules includeRule).2
    (getRules rules excludeRule).2 items start

/-- The same up to `endPos`. -/
def RulesInsideTo (b : FsBuf) (comparator : Bytes → Bool) (rules : List SearchRule) (items : List Item)
    (start endPos : ℕ) (maxCount : ℤ) : Prop :=
  AsksInside b comparator (getRules rules excludeRule).1 (getRules rules includeRule).2
    (getRules rules excludeRule).2 items start maxCount 0 (upTo endPos items)

/-- What it finds up to `endPos`. -/
def rulesFoundTo (b : FsBuf) (comparator : Bytes → Bool) (rules : List SearchRule) (items : List Item)
    (start endPos : ℕ) : List ℕ :=
  foundAmong b comparator (getRules rules excludeRule).1 (getRules rules includeRule).2
    (getRules rules excludeRule).2 items start (upTo endPos items)

section Front

variable {ruleVal : ℕ} {inRule exRule : List SearchRule} {xs ys : List Item} (hxs : ∀ x ∈ xs, x.off < start)
include hxs

/-- What comes before the start of a search does not count. -/
theorem foundAmong_front :
    foundAmong b comparator ruleVal inRule exRule items start (xs ++ ys) =
      foundAmong b comparator ruleVal inRule exRule items start ys := by
  rw [foundAmong, foundAmong, List.filter_append, List.filter_eq_nil_iff.mpr, List.nil_append]
  intro x hx
  have := hxs x hx
  simp only [decide_eq_true_eq]
  omega

/-- What comes before the start of a search is not asked. -/
theorem asksInside_front {maxCount : ℤ} :
    AsksInside b comparator ruleVal inRule exRule items start maxCount 0 (xs ++ ys) ↔
      AsksInside b comparator ruleVal inRule exRule items start maxCount 0 ys := by
  rw [AsksInside, AsksInside, foundAmong_front hxs, List.forall_mem_append]
  refine and_iff_right fun x hx hfrom => ?_
  have := hxs x hx
  omega

end Front

/-- `rulesearch_thread` from an item to a place in the range. -/
theorem rulesearchThread_slice_eq (h : Searchable b items off stop) (htail : stop ≤ b.tail) {endPos : ℕ}
    (hend : endPos ≤ stop) (hstart : start = stop ∨ ∃ x ∈ items, x.off = start) {rules : List SearchRule}
    (hrules : rules ≠ []) (reqResults : ℕ) (maxCount : ℤ) :
    (RulesInsideTo b comparator rules items start endPos maxCount →
      b.rulesearchThread comparator rules reqResults start endPos maxCount =
        some (hitsOf b maxCount reqResults start (rulesFoundTo b comparator rules items start endPos))) ∧
    (¬ RulesInsideTo b comparator rules items start endPos maxCount →
      b.rulesearchThread comparator rules reqResults start endPos maxCount = none) := by
  obtain ⟨pre, ys, rfl, hpre, hys⟩ := h.chain.split hstart
  have hfuel : stop < b.loopFuel + start := by
    rw [FsBuf.loopFuel]
    have : b.tail + 1 ≤ (b.tail + 1) * (b.tail + 1) := Nat.le_mul_of_pos_left _ (Nat.succ_pos _)
    omega
  have hloop := @rulesearchThreadLoop_eq b (pre ++ ys) off start stop comparator
    (getRules rules excludeRule).1 (getRules rules includeRule).2 (getRules rules excludeRule).2 start [] h
    reqResults start endPos maxCount hend b.loopFuel pre ys [] rfl hpre hys le_rfl (.init _ _) (fun hpos => hpos)
    hfuel
  have hfront : ∀ x ∈ upTo endPos pre, x.off < start := fun x hx =>
    (hpre.range (List.mem_of_mem_filter hx)).2
  rw [List.take_nil] at hloop
  rw [RulesInsideTo, rulesFoundTo, upTo_append, asksInside_front hfront, foundAmong_front hfront,
    FsBuf.rulesearchThread, if_neg hrules]
  exact hloop

/-- `rulesearch_thread` from an item to the end of the range. -/
theorem rulesearchThread_eq (h : Searchable b items off stop) (htail : stop ≤ b.tail)
    (hstart : start = stop ∨ ∃ x ∈ items, x.off = start) {rules : List SearchRule} (hrules : rules ≠ [])
    (reqResults : ℕ) (maxCount : ℤ) :
    (RulesInside b comparator rules items start maxCount →
      b.rulesearchThread comparator rules reqResults start stop maxCount =
        some (hitsOf b maxCount reqResults start (rulesFound b comparator rules items start))) ∧
    (¬ RulesInside b comparator rules items start maxCount →
      b.rulesearchThread comparator rules reqResults start stop maxCount = none) := by
  have hslice := @rulesearchThread_slice_eq b items off stop comparator start h htail stop le_rfl hstart rules hrules
    reqResults maxCount
  rwa [RulesInsideTo, rulesFoundTo, h.chain.upTo_eq] at hslice

/-- What a search with one worker replies that finds `found`. -/
def replyOf (b : FsBuf) (maxCount : ℤ) (stop count : ℕ) (found : List ℕ) : SearchReply :=
  if 0 < maxCount ∧ maxCount ≤ found.length then
    ⟨b.nextName ((found.take maxCount.toNat).getLast?.getD 0), maxCount.toNat,
      (found.take maxCount.toNat).take count⟩
  else ⟨stop, found.length, found.take count⟩

theorem mergeHits_one (maxCount : ℤ) (stop count start : ℕ) (found : List ℕ) :
    mergeHits count maxCount [hitsOf b maxCount count start found] 0 stop [] =
      ((replyOf b maxCount stop count found).count, (replyOf b maxCount stop count found).startOff,
        (replyOf b maxCount stop count found).results) := by
  have hnone : ∀ l : List ℕ, (l.take count)[count]? = none := fun l =>
    List.getElem?_eq_none (List.length_take_le _ _)
  have htwice : ∀ l : List ℕ, (l.take count).take count = l.take count := fun l => by
    rw [List.take_take, Nat.min_self]
  by_cases hlimit : 0 < maxCount ∧ maxCount ≤ found.length
  · have hmax : ((maxCount.toNat : ℕ) : ℤ) = maxCount := Int.toNat_of_nonneg (by omega)
    rw [hitsOf, if_pos hlimit, replyOf, if_pos hlimit, mergeHits]
    simp only [Nat.zero_add, hmax, hlimit.1, Int.le_refl, and_self, if_true, List.length_nil, Nat.sub_zero,
      List.nil_append, hnone, htwice]
  · rw [hitsOf, if_neg hlimit, replyOf, if_neg hlimit, mergeHits]
    simp only [Nat.zero_add, hlimit, if_false, List.length_nil, Nat.sub_zero, List.nil_append, hnone, htwice,
      mergeHits]

/-- One worker gets the whole range. -/
theorem slices_one {start stop : ℕ} (hle : start ≤ stop) (count : ℕ) :
    b.slices 1 start stop count = ([(start, stop)], false) := by
  simp only [FsBuf.slices, ite_self, FsBuf.slicesLoop, if_true]
  rw [if_neg (by omega)]

/-- `parallelsearch_files` with one worker, from an item to the end of the range. -/
theorem parallelsearchFiles_one (h : Searchable b items off stop) (htail : stop ≤ b.tail)
    (hstart : start = stop ∨ ∃ x ∈ items, x.off = start) (m : Matcher) {rules : List SearchRule}
    (hrules : rules ≠ []) (count : ℕ) (query : Bytes) :
    (RulesInside b (m.comparator rules query) rules items start (atoi (getRuleValue rules ruleSearchMaxCount)) →
      b.parallelsearchFiles m 1 start stop count rules query =
        some (replyOf b (atoi (getRuleValue rules ruleSearchMaxCount)) stop count
          (rulesFound b (m.comparator rules query) rules items start))) ∧
    (¬ RulesInside b (m.comparator rules query) rules items start
        (atoi (getRuleValue rules ruleSearchMaxCount)) →
      b.parallelsearchFiles m 1 start stop count rules query = none) := by
  have hle : start ≤ stop := by
    rcases hstart with rfl | ⟨x, hx, rfl⟩
    · exact le_rfl
    · exact le_of_lt (h.chain.range hx).2
  have hmin : (if b.tail > stop then stop else b.tail) = stop := by split <;> omega
  obtain ⟨hfound, hnone⟩ := @rulesearchThread_eq b items off stop (m.comparator rules query) start h htail hstart
    rules hrules count (atoi (getRuleValue rules ruleSearchMaxCount))
  simp only [FsBuf.parallelsearchFiles, hmin, slices_one hle, hrules, if_false, List.mapM_cons, List.mapM_nil]
  constructor
  · intro hin
    rw [hfound hin]
    simp [mergeHits_one]
  · intro hnot
    rw [hnone hnot]
    rfl

end Worker

end DeepinAnything
