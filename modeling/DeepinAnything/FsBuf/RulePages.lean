import DeepinAnything.FsBuf.PathName
import DeepinAnything.FsBuf.RuleResults
import DeepinAnything.Lib.Paging

/-!
# Paging with rules (`parallelsearch_files`)

A caller that wants `N` results at a time goes on with the offset it is given back. The search then starts
anew behind the last result, and the directories that an exclude rule names before that place are forgotten:
what is below them can come up again on a later page.
-/

namespace DeepinAnything

open ByteMem OrderedForest OrderedForest.Forest Paging

/-- The same rules without a limit, as `-1` in front of them: `get_rule_value` takes the first value. -/
def unlimited (rules : List SearchRule) : List SearchRule := ⟨ruleSearchMaxCount, [45, 49]⟩ :: rules

/-- A caller that searches again from the offset that was returned, until there are fewer results than
asked for. One worker runs. -/
def FsBuf.searchPages (b : FsBuf) (m : Matcher) (stop size : ℕ) (rules : List SearchRule) (query : Bytes) :
    ℕ → ℕ → Option (List ℕ)
  | 0, _ => none
  | fuel + 1, start => do
    let reply ← b.parallelsearchFiles m 1 start stop size rules query
    if reply.count < size then return reply.results
    else return reply.results ++ (← searchPages b m stop size rules query fuel reply.startOff)

/-- Once there is a result, more calls change nothing. -/
theorem FsBuf.searchPages_mono {b : FsBuf} {m : Matcher} {stop size : ℕ} {rules : List SearchRule}
    {query : Bytes} {fuel fuel' start : ℕ} {l : List ℕ} (hle : fuel ≤ fuel')
    (h : b.searchPages m stop size rules query fuel start = some l) :
    b.searchPages m stop size rules query fuel' start = some l := by
  induction fuel generalizing fuel' start l with
  | zero => cases h
  | succ fuel ih =>
    obtain ⟨k, rfl⟩ : ∃ k, fuel' = k + 1 := ⟨fuel' - 1, by omega⟩
    rw [searchPages] at h ⊢
    obtain ⟨reply, hreply, h⟩ := Option.bind_eq_some_iff.mp h
    refine Option.bind_eq_some_iff.mpr ⟨reply, hreply, ?_⟩
    split at h
    · rwa [if_pos ‹_›]
    · rw [if_neg ‹_›]
      obtain ⟨more, hmore, h⟩ := Option.bind_eq_some_iff.mp h
      exact Option.bind_eq_some_iff.mpr ⟨more, ih (by omega) hmore, h⟩

/-! ## The rules without a limit -/

variable {rules : List SearchRule}

/-- A value that is read as another number than 0 is there. -/
theorem exists_of_getRuleValue {flag : ℕ} (h : atoi (getRuleValue rules flag) ≠ 0) :
    rules.head?.map SearchRule.flag ≠ some ruleNone ∧ ∃ rule ∈ rules, rule.flag = flag := by
  have hzero : getRuleValue rules flag ≠ [48] := fun h0 => h (by rw [h0]; rfl)
  cases rules with
  | nil => exact absurd rfl hzero
  | cons first rules =>
    rw [getRuleValue] at hzero
    split at hzero
    · exact absurd rfl hzero
    · rename_i hfirst
      refine ⟨fun h0 => hfirst (Option.some.inj h0), ?_⟩
      cases hfind : (first :: rules).find? (·.flag = flag) with
      | none =>
        rw [hfind] at hzero
        exact absurd rfl hzero
      | some rule => exact ⟨rule, List.mem_of_find?_eq_some hfind, by simpa using List.find?_some hfind⟩

theorem getRuleValue_unlimited (h : rules.head?.map SearchRule.flag ≠ some ruleNone) {flag : ℕ}
    (hflag : flag ≠ ruleSearchMaxCount) :
    getRuleValue (unlimited rules) flag = getRuleValue rules flag := by
  rw [unlimited, getRuleValue, if_neg (by decide), List.find?_cons_of_neg (by simpa using hflag.symm)]
  cases rules with
  | nil => rfl
  | cons first rules =>
    rw [getRuleValue, if_neg fun h0 => h (by rw [List.head?_cons, Option.map_some, h0])]

theorem atoi_unlimited (rules : List SearchRule) :
    atoi (getRuleValue (unlimited rules) ruleSearchMaxCount) = -1 := by
  rw [unlimited, getRuleValue, if_neg (by decide), List.find?_cons_of_pos (by decide)]
  decide

theorem comparator_unlimited (h : rules.head?.map SearchRule.flag ≠ some ruleNone) (m : Matcher)
    (query : Bytes) : m.comparator (unlimited rules) query = m.comparator rules query := by
  simp only [Matcher.comparator, getRuleValue_unlimited h (show ruleSearchRegx ≠ _ by decide),
    getRuleValue_unlimited h (show ruleSearchIcase ≠ _ by decide),
    getRuleValue_unlimited h (show ruleSearchPinyin ≠ _ by decide)]

/-- A type that a list has already adds nothing. -/
theorem foldl_ruleType_or {v : ℕ} (h : ∃ rule ∈ rules, ruleType rule.flag = v) (acc : ℕ) :
    rules.foldl (fun reRule rule => reRule ||| ruleType rule.flag) (acc ||| v) =
      rules.foldl (fun reRule rule => reRule ||| ruleType rule.flag) acc := by
  induction rules generalizing acc with
  | nil => simp at h
  | cons first rules ih =>
    rw [List.foldl_cons, List.foldl_cons]
    by_cases hfirst : ruleType first.flag = v
    · rw [hfirst, Nat.or_assoc, Nat.or_self]
    · obtain ⟨rule, hrule, htype⟩ := h
      have hrule := (List.mem_cons.mp hrule).resolve_left fun heq => hfirst (heq ▸ htype)
      rw [Nat.or_assoc, Nat.or_comm v, ← Nat.or_assoc]
      exact ih ⟨rule, hrule, htype⟩ _

/-- Rules with a limit have the same types and classes without it. -/
theorem getRules_unlimited (h : ∃ rule ∈ rules, rule.flag = ruleSearchMaxCount) {type : ℕ}
    (htype : type ≠ searchRule) : getRules (unlimited rules) type = getRules rules type := by
  obtain ⟨rule, hrule, hflag⟩ := h
  have hfold := foldl_ruleType_or (v := searchRule) ⟨rule, hrule, by rw [hflag]; rfl⟩ 0
  have hclass : ¬ (ruleType ruleSearchMaxCount = type ∨ ruleType ruleSearchMaxCount = 0) := by
    rintro (h0 | h0)
    · exact htype h0.symm
    · exact absurd h0 (by decide)
  rw [getRules, getRules, unlimited, List.filter_cons_of_neg (by simpa using hclass)]
  exact Prod.ext hfold rfl

section Search

variable {b : FsBuf} {items : List Item} {comparator : Bytes → Bool} {start : ℕ}
  (h : ∃ rule ∈ rules, rule.flag = ruleSearchMaxCount)
include h

theorem rulesFound_unlimited :
    rulesFound b comparator (unlimited rules) items start = rulesFound b comparator rules items start := by
  rw [rulesFound, rulesFound, getRules_unlimited h (by decide), getRules_unlimited h (by decide)]

theorem rulesInside_unlimited_iff {maxCount : ℤ} :
    RulesInside b comparator (unlimited rules) items start maxCount ↔
      RulesInside b comparator rules items start maxCount := by
  rw [RulesInside, RulesInside, getRules_unlimited h (by decide), getRules_unlimited h (by decide)]

end Search

/-! ## One page after the other -/

variable {b : FsBuf} {root : Bytes} {t : Tree}

/-- Behind an item stands the next one, or the range ends. -/
theorem Chain.next {items : List Item} {off stop : ℕ} (h : Chain b off items stop) {x : Item}
    (hx : x ∈ items) : x.off < b.nextName x.off ∧
      (b.nextName x.off = stop ∨ ∃ z ∈ items, z.off = b.nextName x.off) ∧
      ∀ z ∈ items, x.off < z.off → b.nextName x.off ≤ z.off := by
  induction items generalizing off with
  | nil => simp at hx
  | cons y ys ih =>
    obtain ⟨hoff, -, -, hlt, hys⟩ := h
    have hoff : y.off = off := hoff
    rcases List.mem_cons.mp hx with rfl | hx'
    · rw [hoff]
      refine ⟨hlt, ?_, fun z hz hlt' => ?_⟩
      · cases ys with
        | nil => exact .inl hys
        | cons z ys => exact .inr ⟨z, by simp, hys.1⟩
      · rcases List.mem_cons.mp hz with rfl | hz
        · omega
        · exact (Chain.range hys hz).1
    · obtain ⟨h₁, h₂, h₃⟩ := ih hys hx'
      refine ⟨h₁, h₂.imp_right fun ⟨z, hz, heq⟩ => ⟨z, List.mem_cons_of_mem _ hz, heq⟩, fun z hz hlt' => ?_⟩
      rcases List.mem_cons.mp hz with rfl | hz
      · have := (Chain.range hys hx').1
        omega
      · exact h₃ z hz hlt'

section Pages

variable {items : List Item} {off stop : ℕ} (comparator : Bytes → Bool)

theorem mem_rulesFound {start o : ℕ} : o ∈ rulesFound b comparator rules items start ↔
    ∃ x ∈ items, x.off = o ∧ start ≤ o ∧
      x.Wanted b comparator (getRules rules excludeRule).1 (getRules rules includeRule).2
        (getRules rules excludeRule).2 ∧
      ¬ x.HiddenFrom b (getRules rules excludeRule).1 (getRules rules excludeRule).2 items start := by
  rw [rulesFound, foundFrom, foundAmong, List.mem_map]
  simp only [List.mem_filter, decide_eq_true_eq]
  constructor
  · rintro ⟨x, ⟨hx, hfrom, h⟩, rfl⟩
    exact ⟨x, hx, rfl, hfrom, h⟩
  · rintro ⟨x, hx, rfl, hfrom, h⟩
    exact ⟨x, ⟨hx, hfrom, h⟩, rfl⟩

/-- A search that starts later finds no less of what is there. -/
theorem rulesFound_growing (h : Chain b off items stop) :
    Growing (rulesFound b comparator rules items) b.nextName
      fun s => s = stop ∨ ∃ x ∈ items, x.off = s := by
  refine ⟨fun s _ => rulesFound_sorted h comparator rules s, fun s _ o ho => ?_, fun s _ o ho o' ho' hlt => ?_⟩
  · obtain ⟨x, hx, rfl, -⟩ := (mem_rulesFound comparator).mp ho
    exact (h.next hx).2.1
  · obtain ⟨x, hx, rfl, hfrom, -⟩ := (mem_rulesFound comparator).mp ho
    obtain ⟨y, hy, rfl, -, hwanted, hvisible⟩ := (mem_rulesFound comparator).mp ho'
    obtain ⟨hnext, -, hgap⟩ := h.next hx
    exact (mem_rulesFound comparator).mpr ⟨y, hy, rfl, hgap y hy hlt, hwanted,
      fun ⟨z, hz, hzfrom, hskip, hbelow⟩ => hvisible ⟨z, hz, by omega, hskip, hbelow⟩⟩

/-- The pages of the code are the calls of the search. -/
theorem searchPages_eq (h : Searchable b items off stop) (htail : stop ≤ b.tail) (m : Matcher) {size : ℕ}
    (hsize : 0 < size) (hrules : rules ≠ []) (hmax : atoi (getRuleValue rules ruleSearchMaxCount) = size)
    (query : Bytes) [DecidablePred fun s => RulesInside b (m.comparator rules query) rules items s size]
    (fuel : ℕ) {start : ℕ} (hstart : start = stop ∨ ∃ x ∈ items, x.off = start) :
    b.searchPages m stop size rules query fuel start =
      calls (rulesFound b (m.comparator rules query) rules items) b.nextName size
        (fun s => RulesInside b (m.comparator rules query) rules items s size) fuel start := by
  induction fuel generalizing start with
  | zero => rfl
  | succ fuel ih =>
    have hgrow := @rulesFound_growing rules b items off stop (m.comparator rules query) h.chain
    obtain ⟨hreply, hnone⟩ := parallelsearchFiles_one h htail hstart m hrules size query
    rw [hmax] at hreply hnone
    rw [FsBuf.searchPages, calls]
    by_cases hin : RulesInside b (m.comparator rules query) rules items start size
    swap
    · rw [if_neg hin, hnone hin]
      rfl
    rw [if_pos hin, hreply hin]
    generalize hfound : rulesFound b (m.comparator rules query) rules items start = found
    simp only [Option.bind_eq_bind, Option.bind_some]
    by_cases hshort : found.length < size
    · have hlimit : ¬ (0 < (size : ℤ) ∧ (size : ℤ) ≤ found.length) := by omega
      rw [if_pos hshort, replyOf, if_neg hlimit, if_pos hshort, List.take_of_length_le (by omega)]
      rfl
    · have hlimit : 0 < (size : ℤ) ∧ (size : ℤ) ≤ found.length := by omega
      obtain ⟨last, hlast, hmem, -⟩ := exists_last hsize (Nat.le_of_not_lt hshort)
      rw [if_neg hshort, replyOf, if_pos hlimit, Int.toNat_natCast, hlast]
      simp only [lt_irrefl, if_false, Option.getD_some, List.take_take, Nat.min_self]
      rw [ih (hgrow.pos start hstart last (hfound ▸ hmem))]
      cases calls _ b.nextName size (fun s => RulesInside b (m.comparator rules query) rules items s size) fuel
        (b.nextName last) <;> rfl

end Pages

/-- A search that starts later, but before the entry, comes to it as well: it knows of fewer excluded
directories. -/
theorem ComesTo.later {q q' : List Bytes} {start start' : ℕ} (h : ComesTo b t rules q start q')
    (hle : start ≤ start') (hoff : start' ≤ offAt b.firstNameOff t (q ++ q')) : ComesTo b t rules q start' q' :=
  ⟨h.ne_nil, h.entry, hoff, fun r hr hpre hne hfrom => h.visible r hr hpre hne (by omega)⟩

/-- The pages of a search with room for `size` results each are what one search without a limit reports. -/
def PagesRight (b : FsBuf) (m : Matcher) (start stop size : ℕ) (rules : List SearchRule) (query : Bytes) : Prop :=
  ∃ acc : List ℕ, acc.Pairwise (· < ·) ∧
    (∀ room, b.parallelsearchFiles m 1 start stop room (unlimited rules) query =
      some ⟨stop, acc.length, acc.take room⟩) ∧
    ∃ fuel, b.searchPages m stop size rules query fuel start = some acc

/-- A page ends with the entry at `o`: the rules let it through, and with it a multiple of `size` entries. -/
def PageEnd (b : FsBuf) (t : Tree) (rules : List SearchRule) (comparator : Bytes → Bool) (q : List Bytes)
    (size o : ℕ) : Prop :=
  ∃ offs i, PassingOffsets b t rules comparator q offs ∧ offs[i]? = some o ∧ size ∣ i + 1

theorem PassingOffsets.unique {comparator : Bytes → Bool} {q : List Bytes} {offs offs' : List ℕ}
    (h : PassingOffsets b t rules comparator q offs) (h' : PassingOffsets b t rules comparator q offs') :
    offs = offs' :=
  eq_of_sorted h.sorted h'.sorted fun o => (h.mem_iff o).trans (h'.mem_iff o).symm

namespace Represents

variable {c : List (Frame Bytes)} {k : Tree} (h : Represents b root (plug c k)) {comparator : Bytes → Bool}
  {acc : List ℕ}
include h

/-- Behind a result the search finds no more than the later results if and only if what it finds is let
through by the rules. -/
theorem rulesFound_next_eq_iff (hacc : PassingOffsets b (plug c k) rules comparator (path c) acc)
    (hfound : rulesFound b comparator rules (treeItems (runPos b.firstNameOff c) (path c) k)
      (runPos b.firstNameOff c) = acc) {i o : ℕ} (ho : acc[i]? = some o) :
    rulesFound b comparator rules (treeItems (runPos b.firstNameOff c) (path c) k) (b.nextName o) =
      acc.drop (i + 1) ↔
    ∀ q', Found b (plug c k) rules comparator (path c) (b.nextName o) q' →
      Passes b (plug c k) rules comparator (path c) q' := by
  have hchain := h.searchable_plug.1.chain
  have hgrow := @rulesFound_growing rules b _ _ _ comparator hchain
  have homem : o ∈ acc := List.mem_of_getElem? ho
  obtain ⟨x, hx, hxoff, -⟩ := (mem_rulesFound comparator).mp (hfound ▸ homem)
  have hlt : o < b.nextName o := hxoff ▸ (hchain.next hx).1
  constructor
  · intro heq q' hfrom
    have hin : offAt b.firstNameOff (plug c k) (path c ++ q') ∈ acc.drop (i + 1) :=
      heq ▸ (h.mem_rulesFound_iff comparator _).mpr ⟨q', hfrom, rfl⟩
    obtain ⟨q'', hpasses, hoff⟩ := (hacc.mem_iff _).mp (List.mem_of_mem_drop hin)
    obtain ⟨e, he⟩ := Option.isSome_iff_exists.mp hfrom.entry
    obtain ⟨e', he'⟩ := Option.isSome_iff_exists.mp hpasses.entry
    have hsame := h.offAt_inj (by simp [hpasses.ne_nil]) (by simp [hfrom.ne_nil]) he' he hoff
    rwa [← List.append_cancel_left hsame]
  · intro hall
    refine eq_of_sorted (rulesFound_sorted hchain _ _ _)
      (hacc.sorted.sublist (List.drop_sublist _ _)) fun o' => ⟨fun ho' => ?_, fun ho' => ?_⟩
    · obtain ⟨q', hfrom, hoff⟩ := (h.mem_rulesFound_iff comparator _).mp ho'
      have hle := hfrom.le_off
      exact (mem_drop_iff hacc.sorted ho).mpr ⟨(hacc.mem_iff _).mpr ⟨q', hall q' hfrom, hoff⟩, by omega⟩
    · obtain ⟨hin, hlater⟩ := (mem_drop_iff hacc.sorted ho).mp ho'
      exact hgrow.kept _ hchain.start_eq o (hfound ▸ homem) o' (hfound ▸ hin) hlater

/-- What a page with a limit does not come to, the next one does: together they ask about all that a search
without a limit would come to from any of their starts. -/
theorem allAskedInside_of_pages {size : ℕ} (hsize : 0 < size) (hsorted : acc.Pairwise (· < ·))
    (hitem : ∀ o ∈ acc, ∃ x ∈ treeItems (runPos b.firstNameOff c) (path c) k, x.off = o)
    (hpages : ∀ i o, acc[i]? = some o → size ∣ i + 1 →
      rulesFound b comparator rules (treeItems (runPos b.firstNameOff c) (path c) k) (b.nextName o) =
          acc.drop (i + 1) ∧
        RulesInside b comparator rules (treeItems (runPos b.firstNameOff c) (path c) k) (b.nextName o) size)
    {i o : ℕ} (ho : acc[i]? = some o) (hdvd : size ∣ i + 1) :
    AllAskedInside b (plug c k) rules comparator (path c) (b.nextName o) := by
  have hchain := h.searchable_plug.1.chain
  induction hleft : acc.length - i using Nat.strongRecOn generalizing i o with
  | _ left ih =>
    intro q' hcomes
    obtain ⟨hfound, hin⟩ := hpages i o ho hdvd
    rw [h.rulesInside_iff, hfound] at hin
    obtain ⟨x, hx, hname, -, hoff, -⟩ := h.exists_item_of_comesTo hcomes
    by_cases hmore : (acc.drop (i + 1)).countP
        (· < offAt b.firstNameOff (plug c k) (path c ++ q')) < size
    · exact hin q' hcomes fun _ => by exact_mod_cast hmore
    · -- the next page starts before the entry
      have hcount : size ≤ (acc.drop (i + 1)).countP (· < offAt b.firstNameOff (plug c k) (path c ++ q')) :=
        Nat.le_of_not_lt hmore
      obtain ⟨o', ho', hbefore⟩ := exists_lt_of_countP hsize (hsorted.sublist (List.drop_sublist _ _)) hcount
      rw [List.getElem?_drop] at ho'
      have hlen : i + 1 + (size - 1) < acc.length := (List.getElem?_eq_some_iff.mp ho').1
      obtain ⟨y, hy, rfl⟩ := hitem o' (List.mem_of_getElem? ho')
      have hnext : b.nextName y.off ≤ x.off := (hchain.next hy).2.2 x hx (by omega)
      have hlast : o < y.off := by
        have := List.pairwise_iff_getElem.mp hsorted i (i + 1 + (size - 1))
          (List.getElem?_eq_some_iff.mp ho).1 hlen (by omega)
        rwa [(List.getElem?_eq_some_iff.mp ho).2, (List.getElem?_eq_some_iff.mp ho').2] at this
      obtain ⟨z, hz, rfl⟩ := hitem o (List.mem_of_getElem? ho)
      refine ih (acc.length - (i + 1 + (size - 1))) (by omega) ho' ?_ rfl q' (hcomes.later ?_ (by omega))
      · rw [show i + 1 + (size - 1) + 1 = i + 1 + size by omega]
        exact Nat.dvd_add hdvd (Nat.dvd_refl size)
      · exact ((hchain.next hz).2.2 y hy hlast).trans (hchain.next hy).1.le

omit h in
/-- The pages of a search with room for `size` results each are what one search without a limit reports if
and only if neither looks in front of the buffer and no page ends where the search, started anew behind it,
finds what the rules do not let through: an entry below an excluded directory that stands before the end of
the page. -/
theorem searchPages_iff {t : Tree} (h : Represents b root t) {p : Bytes} {q : List Bytes} {k : Tree}
    {off start stop : ℕ} (hres : resolve root t p = some q) (hdir : t.entryAt q = some (.node k))
    (hrange : b.getPathRange p = some (off, start, stop)) (hstart : start ≠ 0) (m : Matcher) (query : Bytes)
    {size : ℕ} (hsize : 0 < size) (hmax : atoi (getRuleValue rules ruleSearchMaxCount) = size) :
    PagesRight b m start stop size rules query ↔
      AllAskedInside b t rules (m.comparator rules query) q start ∧
      ∀ o, PageEnd b t rules (m.comparator rules query) q size o →
        AllAskedInside b t rules (m.comparator rules query) q (b.nextName o) ∧
        ∀ q', Found b t rules (m.comparator rules query) q (b.nextName o) q' →
          Passes b t rules (m.comparator rules query) q q' := by
  classical
  obtain ⟨c, rfl, rfl, rfl, rfl⟩ := h.range_eq hres hdir hrange hstart
  obtain ⟨hsearch, htail⟩ := h.searchable_plug
  have hpos := hsearch.chain.start_eq
  obtain ⟨hfirst, hlimit⟩ := @exists_of_getRuleValue rules ruleSearchMaxCount (by rw [hmax]; omega)
  have hrules : rules ≠ [] := by
    rintro rfl
    simp at hlimit
  have hex := getRules_unlimited hlimit (show excludeRule ≠ searchRule by decide)
  have hin := getRules_unlimited hlimit (show includeRule ≠ searchRule by decide)
  set items := treeItems (runPos b.firstNameOff c) (path c) k with hitems
  -- the search without a limit
  have hone := fun room =>
    @parallelsearchFiles_one b _ _ _ _ hsearch htail hpos m (unlimited rules) (List.cons_ne_nil _ _) room query
  simp only [atoi_unlimited, comparator_unlimited hfirst, rulesFound_unlimited hlimit,
    rulesInside_unlimited_iff hlimit, replyOf, show ¬ (0 < (-1 : ℤ)) by decide, false_and, if_false] at hone
  have hasked := @Represents.rulesInside_unlimited b rules root c k h (m.comparator rules query)
    (runPos b.firstNameOff c) (-1) (by decide)
  -- the pages
  have hgrow := @rulesFound_growing rules b _ _ _ (m.comparator rules query) hsearch.chain
  have hcalls := @Growing.calls_eq_iff ℕ _ _ _ size _
    (fun s => RulesInside b (m.comparator rules query) rules items s size) _ hgrow hsize _ hpos
  simp only [← searchPages_eq hsearch htail m hsize hrules hmax query _ hpos] at hcalls
  generalize hacc : rulesFound b (m.comparator rules query) rules items (runPos b.firstNameOff c) = acc
    at hone hcalls
  have hitem : ∀ o ∈ acc, ∃ x ∈ items, x.off = o := fun o ho => by
    obtain ⟨x, hx, hoff, -⟩ := (mem_rulesFound _).mp (hacc ▸ ho)
    exact ⟨x, hx, hoff⟩
  constructor
  · rintro ⟨acc', -, hunlimited, fuel, hpages⟩
    have hin : RulesInside b (m.comparator rules query) rules items (runPos b.firstNameOff c) (-1) := by
      by_contra hnot
      have hreply := hunlimited 0
      rw [(hone 0).2 hnot] at hreply
      cases hreply
    obtain rfl : acc' = acc := by
      have hsame := hunlimited (acc.length + acc'.length)
      rw [(hone _).1 hin] at hsame
      have hresults := (SearchReply.mk.inj (Option.some.inj hsame)).2.2
      rwa [List.take_of_length_le (by omega), List.take_of_length_le (by omega), eq_comm] at hresults
    have hpassing := h.passingOffsets (hasked.mp hin)
    rw [← hitems, hacc] at hpassing
    obtain ⟨-, hnext⟩ := hcalls.mp ⟨fuel, hpages⟩
    refine ⟨hasked.mp hin, ?_⟩
    rintro o ⟨offs, i, hoffs, ho, hdvd⟩
    obtain rfl : offs = acc' := hoffs.unique hpassing
    exact ⟨h.allAskedInside_of_pages hsize hpassing.sorted hitem hnext ho hdvd,
      (h.rulesFound_next_eq_iff hpassing hacc ho).mp (hnext i o ho hdvd).1⟩
  · rintro ⟨hall, hends⟩
    have hpassing := h.passingOffsets hall
    rw [← hitems, hacc] at hpassing
    have hinside : ∀ {s}, AllAskedInside b (plug c k) rules (m.comparator rules query) (path c) s →
        RulesInside b (m.comparator rules query) rules items s size := fun hall =>
      (h.rulesInside_iff _ _).mpr fun q' hcomes _ => hall q' hcomes
    refine ⟨acc, hpassing.sorted, fun room => (hone room).1 (hasked.mpr hall),
      hcalls.mpr ⟨hinside hall, fun i o ho hdvd => ?_⟩⟩
    obtain ⟨hall', hfound⟩ := hends o ⟨acc, i, hpassing, ho, hdvd⟩
    exact ⟨(h.rulesFound_next_eq_iff hpassing hacc ho).mpr hfound, hinside hall'⟩

end Represents

/-! ## A page that ends behind an excluded directory -/

/-- A matcher for names that are compared byte by byte. -/
def plainMatcher : Matcher := ⟨fun _ => none, fun haystack needle => needle <:+: haystack, fun _ => none⟩

/-- The rules "one result, nothing below `a`". -/
def samplePageRules : List SearchRule := [⟨ruleSearchMaxCount, [49]⟩, ⟨ruleExcludeSubS, [97]⟩]

/-- The image of `/a/x` and `/b`. -/
def samplePageBuf : FsBuf := imageBuf [47] (.node [97] (.leaf [120] .nil) (.leaf [98] .nil)) 64

/-- The search for everything but `/a` ends after `/b`; the next page brings `/a/x` back. -/
theorem searchPages_repeats_excluded :
    samplePageBuf.getPathRange [47] = some (dataStart, 10, 32) ∧
    samplePageBuf.parallelsearchFiles plainMatcher 1 10 32 9 (unlimited samplePageRules) [] =
      some ⟨32, 1, [16]⟩ ∧
    samplePageBuf.searchPages plainMatcher 32 1 samplePageRules [] 3 10 = some [16, 24] ∧
    ¬ PagesRight samplePageBuf plainMatcher 10 32 1 samplePageRules [] := by
  have hall : samplePageBuf.parallelsearchFiles plainMatcher 1 10 32 9 (unlimited samplePageRules) [] =
      some ⟨32, 1, [16]⟩ := by decide +kernel
  have hpages : samplePageBuf.searchPages plainMatcher 32 1 samplePageRules [] 3 10 = some [16, 24] := by
    decide +kernel
  refine ⟨by decide +kernel, hall, hpages, ?_⟩
  rintro ⟨acc, -, hunlimited, fuel, hfuel⟩
  obtain ⟨-, hlen, htake⟩ := SearchReply.mk.inj (Option.some.inj ((hunlimited 9).symm.trans hall))
  obtain rfl : acc = [16] := by rwa [List.take_of_length_le (by omega)] at htake
  have hmore := FsBuf.searchPages_mono (Nat.le_max_left 3 fuel) hpages
  rw [FsBuf.searchPages_mono (Nat.le_max_right 3 fuel) hfuel] at hmore
  exact absurd hmore (by decide)

/-- The same with two results. -/
def sampleLongPageRules : List SearchRule := [⟨ruleSearchMaxCount, [50]⟩, ⟨ruleExcludeSubS, [97]⟩]

/-- With room for two results the first page has all of it. -/
theorem Represents.searchPages_iff_sample :
    PagesRight samplePageBuf plainMatcher 10 32 2 sampleLongPageRules [] := by
  have hrep : Represents samplePageBuf [47] (.node [97] (.leaf [120] .nil) (.leaf [98] .nil)) :=
    represents_imageBuf _ _ 64 ⟨rfl, rfl, by decide⟩ (by decide) (by decide) (by decide)
  have hrange : samplePageBuf.getPathRange [47] = some (dataStart, 10, 32) := by decide
  have hends : ∀ rule ∈ (getRules sampleLongPageRules excludeRule).2, ¬ AsksEnd rule := by decide
  have hasked : ∀ start, AllAskedInside samplePageBuf (.node [97] (.leaf [120] .nil) (.leaf [98] .nil))
      sampleLongPageRules (plainMatcher.comparator sampleLongPageRules []) [] start := fun start q' _ =>
    ⟨fun _ => FsBuf.not_looksInFront fun rule hrule h => absurd h (hends rule hrule), fun _ => absurd rfl⟩
  refine (hrep.searchPages_iff (q := []) (by decide) rfl hrange (by decide) plainMatcher []
    (by decide : 0 < 2) (by decide)).mpr ⟨hasked 10, ?_⟩
  -- one entry is let through, so no page of two ends
  rintro o ⟨offs, i, hoffs, ho, hdvd⟩
  have hfound : rulesFound samplePageBuf (plainMatcher.comparator sampleLongPageRules []) sampleLongPageRules
      (treeItems 10 [] (.node [97] (.leaf [120] .nil) (.leaf [98] .nil))) 10 = [16] := by decide +kernel
  obtain rfl : offs = [16] :=
    hoffs.unique (hfound ▸ Represents.passingOffsets (c := []) hrep (hasked _))
  obtain rfl : i = 0 := by
    have := (List.getElem?_eq_some_iff.mp ho).1
    rw [List.length_singleton] at this
    omega
  omega

end DeepinAnything
