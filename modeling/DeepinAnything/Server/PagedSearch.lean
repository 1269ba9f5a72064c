import DeepinAnything.FsBuf.RulePages
import DeepinAnything.Server.SearchRules

/-!
# What a paged search lists (`lftmanager.cpp`)

A caller that searches below a directory, page by page, is to get the entries whose name holds the keyword
and that no name on the way to them hides. The searches of the index know less: each starts behind the last
result of the one before, and does not know of an excluded directory before that place. `_doSearch` looks
up the path of what they come upon and leaves out what does not belong.
-/

namespace DeepinAnything.Server

open ByteMem OrderedForest OrderedForest.Forest Paging AsciiDecoder

/-! ## The entries -/

/-- The name starts with a text that is excluded. -/
def Excluded (targets : List Bytes) (name : Bytes) : Prop := ∃ target ∈ targets, target <+: name

section Entries

variable (b : FsBuf) (t : Tree) (q : List Bytes) (query : Bytes) (targets : List Bytes)

/-- An entry below the directory at `q` that the caller is to get: its name holds the keyword, and no name
between the directory and it is excluded. -/
structure Listed (q' : List Bytes) : Prop where
  ne_nil : q' ≠ []
  entry : (t.entryAt (q ++ q')).isSome
  matches_name : query <:+: q'.getLast?.getD []
  allowed : ∀ name ∈ q', ¬ Excluded targets name

/-- An entry that a search from `start` on comes upon: it knows of an excluded directory only if it has met
it. -/
structure Met (start : ℕ) (q' : List Bytes) : Prop where
  ne_nil : q' ≠ []
  entry : (t.entryAt (q ++ q')).isSome
  le_off : start ≤ offAt b.firstNameOff t (q ++ q')
  matches_name : query <:+: q'.getLast?.getD []
  allowed : ¬ Excluded targets (q'.getLast?.getD [])
  visible : ∀ r, r ≠ [] → r <+: q' → r ≠ q' → start ≤ offAt b.firstNameOff t (q ++ r) →
    ¬ Excluded targets (r.getLast?.getD [])

open Classical in
/-- The offsets of the entries below the directory with a property. -/
noncomputable def offsets (P : List Bytes → Prop) : List ℕ :=
  (List.range b.tail).filter fun off => ∃ q', P q' ∧ offAt b.firstNameOff t (q ++ q') = off

/-- What the caller is to get. -/
noncomputable def listing : List ℕ := offsets b t q (Listed t q query targets)

/-- What a search from `start` on comes upon. -/
noncomputable def metFrom (start : ℕ) : List ℕ := offsets b t q (Met b t q query targets start)

/-- The entry is one that the caller is to get. -/
noncomputable def accepted (off : ℕ) : Bool := off ∈ listing b t q query targets

/-- What the pages come upon, `size` entries to a page. -/
noncomputable def lookedAt (start stop size n : ℕ) : List ℕ :=
  (pages (metFrom b t q query targets) (accepted b t q query targets) b.nextName size stop (b.tail + 1) n
    start).1

end Entries

/-! ## Paths below a directory -/

theorem slash_cons_infix_iff {u : Bytes} (hu : slash ∉ u) {q : List Bytes} (hq : ∀ x ∈ q, slash ∉ x)
    (hne : q ≠ []) : slash :: u <:+: slash :: joinPath q ↔ ∃ name ∈ q, u <+: name := by
  induction q with
  | nil => exact absurd rfl hne
  | cons x q ih =>
    have hx := hq x List.mem_cons_self
    rw [List.infix_cons_iff, List.cons_prefix_cons, List.exists_mem_cons_iff]
    simp only [true_and]
    by_cases hnil : q = []
    · subst hnil
      have hno : ¬ slash :: u <:+: x := fun h => hx (h.subset List.mem_cons_self)
      simp [hno]
    · rw [joinPath_cons hnil, prefix_append_cons_iff hu, cons_infix_append_iff hx,
        ih (fun y hy => hq y (List.mem_cons_of_mem _ hy)) hnil]

/-- The path of an entry below a directory, in terms of the directory's path without a slash at its end. -/
theorem joinPath_below {root p : Bytes} {t : Tree} {q q' : List Bytes} (hroot : RootOk root)
    (hp : p.getLast? ≠ some slash) (hres : resolve root t p = some q) (hne : q' ≠ []) :
    root ++ joinPath (q ++ q') = p ++ slash :: joinPath q' := by
  have haddr : address root p = some q := (Option.filter_eq_some_iff.mp hres).1
  by_cases hbegins : root <+: p
  · rcases Represents.eq_joinPath_of_address hbegins haddr with rfl | rfl
    · have hq : q ≠ [] := by
        rintro rfl
        rw [joinPath_nil, List.append_nil] at hp
        exact hp hroot.last
      rw [joinPath_append hq hne, List.append_assoc]
    · exact absurd (by simp) hp
  · rw [address_eq_none hbegins] at haddr
    split at haddr
    · rename_i h
      obtain rfl : [] = q := Option.some.inj haddr
      rw [← h.1, List.nil_append, List.append_assoc, List.singleton_append]
    · simp at haddr

/-! ## The search -/

/-- The search for `opath` leads to the directory `p` of the buffer: the path that is searched is the one in
the index, in a locale that leaves ASCII alone and has the path. One worker runs. -/
structure SearchEnv.Serves (env : SearchEnv) (opath path : QString) (b : FsBuf) (p : Bytes) : Prop where
  worker : env.poolThreads = 1
  locale : Transparent env.fromLocal8Bit
  searched : env.searchPath opath = path
  buffer : env.getFsBufByPath path = (path, some b)
  encoded : env.toLocal8Bit path = p
  decoded : env.fromLocal8Bit p = path
  absolute : path.head? = some '/'

/-- The path of an entry as it is replied. -/
def SearchEnv.nameOf (env : SearchEnv) (b : FsBuf) (off : ℕ) : QString :=
  env.fromLocal8Bit ((namePath b off).toOption.getD [])

/-- How many results a page has. -/
def pageSize (maxCount : ℤ) : ℕ := if 0 < maxCount then maxCount.toNat else defaultResultCount

/-- The keyword as it is searched for. -/
def SearchEnv.query (env : SearchEnv) (keyword : QString) : Bytes :=
  (env.toLocal8Bit keyword).takeWhile (· ≠ 0)

theorem pageSize_pos (maxCount : ℤ) : 0 < pageSize maxCount := by
  rw [pageSize]
  split
  · omega
  · decide

section Search

variable {b : FsBuf} {root : Bytes} {t : Tree} {q q' : List Bytes}

/-- The path of an entry, if it has room. -/
theorem namePath_eq (h : Represents b root t) {q : List Bytes} (hq : q ≠ []) (hentry : (t.entryAt q).isSome)
    (hshort : (root ++ joinPath q).length < pathMax) :
    namePath b (offAt b.firstNameOff t q) = .ok (root ++ joinPath q) := by
  obtain ⟨e, he⟩ := Option.isSome_iff_exists.mp hentry
  obtain ⟨m, dst, heq, hw⟩ := h.doGetPathByNameOff_offAt hq he ⟨fun _ => 0⟩ pathMax hshort
  have hlen := hw.length_eq
  rw [List.length_append, List.length_singleton] at hlen
  rw [namePath, heq]
  simp only
  rw [Mem.cstr_of_holds hw.holds (fun hmem => ?_) (by omega)]
  rcases List.mem_append.mp hmem with hmem | hmem
  · exact h.root_ok.zero hmem
  · exact zero_not_mem_joinPath (h.valid.of_entryAt he) hmem

/-- A path without room is written over the start of the buffer. -/
theorem namePath_tooLong (h : Represents b root t) {q : List Bytes} (hq : q ≠ [])
    (hentry : (t.entryAt q).isSome) (hlong : pathMax ≤ (root ++ joinPath q).length) :
    namePath b (offAt b.firstNameOff t q) = .error .outOfBounds := by
  obtain ⟨e, he⟩ := Option.isSome_iff_exists.mp hentry
  obtain ⟨q, n, rfl⟩ : ∃ p n, q = p ++ [n] :=
    ⟨q.dropLast, q.getLast hq, (List.dropLast_append_getLast hq).symm⟩
  obtain ⟨c, l, r, rfl, rfl, hc, hl⟩ := exists_plug_of_entryAt he
  rw [offAt_plug_cons hc _ hl, namePath, h.doGetPathByNameOff_tooLong _ _ hlong]

/-- `_doSearch` leaves out what is below an excluded name, also a name of a directory that its search has not
met. -/
theorem shouldFilter_iff {env : SearchEnv} {opath path : QString} {p : Bytes} (hs : env.Serves opath path b p)
    {targets : List QString} (htargets : TargetsOk targets) (hnames : ∀ x ∈ q', NameOk x) (hne : q' ≠ []) :
    env.shouldFilter path targets (p ++ slash :: joinPath q') = true ↔
      ∃ name ∈ q', Excluded (targets.map toLatin1) name := by
  have hslash : Ascii slash := by decide
  have horigin : (env.fromLocal8Bit (p ++ slash :: joinPath q')).drop path.length =
      env.fromLocal8Bit (slash :: joinPath q') := by
    rw [hs.locale.split _ _ _ hslash, hs.decoded, List.drop_left]
  have hone : ∀ target ∈ targets, '/' :: target <:+: env.fromLocal8Bit (slash :: joinPath q') ↔
      ∃ name ∈ q', toLatin1 target <+: name := fun target htarget => by
    obtain ⟨htext, hfree, -⟩ := htargets target htarget
    have hchars : (slash :: toLatin1 target).map char = '/' :: target := by
      rw [List.map_cons, htext.map_char]
      rfl
    have hslashfree : slash ∉ toLatin1 target := fun hmem => hfree (by
      rw [← htext.map_char]
      exact List.mem_map.mpr ⟨slash, hmem, rfl⟩)
    rw [← hchars, hs.locale.infix_iff (fun x hx => ?_) hslash (zero_not_mem_joinPath hnames),
      slash_cons_infix_iff hslashfree (fun x hx => (hnames x hx).2.2) hne]
    rcases List.mem_cons.mp hx with rfl | hx
    · exact hslash
    · exact htext.ascii hx
  rw [SearchEnv.shouldFilter, horigin, List.any_eq_true]
  simp only [decide_eq_true_eq, Excluded, List.mem_map]
  constructor
  · rintro ⟨target, htarget, hfound⟩
    obtain ⟨name, hname, hbegins⟩ := (hone target htarget).mp hfound
    exact ⟨name, hname, _, ⟨target, htarget, rfl⟩, hbegins⟩
  · rintro ⟨name, hname, _, ⟨target, htarget, rfl⟩, hbegins⟩
    exact ⟨target, htarget, (hone target htarget).mpr ⟨name, hname, hbegins⟩⟩

/-! ## What the index reports -/

theorem strAt_offAt (h : Represents b root t) {q : List Bytes} (hq : q ≠ []) (hentry : (t.entryAt q).isSome) :
    b.strAt (offAt b.firstNameOff t q) = q.getLast?.getD [] ∧ offAt b.firstNameOff t q < b.tail := by
  obtain ⟨e, he⟩ := Option.isSome_iff_exists.mp hentry
  obtain ⟨x, hx, -, hpath, hoff⟩ := h.exists_item_of_entryAt hq he
  have hchain := h.searchable.chain
  rw [← hoff, hchain.strAt hx, Item.name, hpath]
  exact ⟨rfl, (hchain.range hx).2⟩

/-- The exclude rules of the index look for excluded names. They do not ask for the end of a name. -/
theorem excluded_parsedRules (b : FsBuf) (off : ℕ) (maxCount : ℤ) (targets : List QString)
    (startOffset endOffset : ℕ) :
    ∃ v, b.excluded (parsedRules maxCount targets startOffset endOffset) off = some v ∧
      (v = true ↔ Excluded (targets.map toLatin1) (b.strAt off)) := by
  have hnone : (excludeRules targets).head?.map SearchRule.flag ≠ some ruleNone := by
    cases targets with
    | nil => simp [excludeRules]
    | cons target targets => exact fun hflag => absurd (Option.some.inj hflag) (by decide : ruleExcludeSubS ≠ ruleNone)
  have hrule : ∀ rule ∈ excludeRules targets,
      b.checkRule off rule = some (rule.target.isPrefixOf (b.strAt off)) := fun rule hrule => by
    obtain ⟨target, -, rfl⟩ := List.mem_map.mp hrule
    rfl
  have hinside : (excludeRules targets).anyM (b.checkRule off) ≠ none := fun hnone => by
    obtain ⟨pre, rule, post, heq, -, hfails⟩ := ListTest.anyM_eq_none_iff.mp hnone
    rw [hrule rule (by simp [heq])] at hfails
    cases hfails
  obtain ⟨v, heq, hv⟩ := ListTest.anyM_eq_some hinside
  refine ⟨v, ?_, hv.trans ?_⟩
  · rw [FsBuf.excluded, defined_parsedRules.getRules_snd, rulesOf_parsedRules.1, FsBuf.checkName_eq_anyM hnone, heq]
  constructor
  · rintro ⟨rule, hmem, hfits⟩
    rw [hrule rule hmem, Option.some.injEq, List.isPrefixOf_iff_prefix] at hfits
    obtain ⟨target, htarget, rfl⟩ := List.mem_map.mp hmem
    exact ⟨_, List.mem_map_of_mem htarget, hfits⟩
  · rintro ⟨target, htarget, hfits⟩
    obtain ⟨text, htext, rfl⟩ := List.mem_map.mp htarget
    have hmem : ⟨ruleExcludeSubS, toLatin1 text⟩ ∈ excludeRules targets := List.mem_map_of_mem htext
    exact ⟨_, hmem, by rw [hrule _ hmem, Option.some.injEq, List.isPrefixOf_iff_prefix]; exact hfits⟩

/-- Nor do other rules ask for the end of a name. -/
theorem not_asksEnd_of_mem {rule : SearchRule} {maxCount : ℤ} {targets : List QString}
    {startOffset endOffset : ℕ} (h : rule ∈ parsedRules maxCount targets startOffset endOffset) : ¬ AsksEnd rule := by
  simp only [parsedRules, List.mem_cons] at h
  rcases h with rfl | rfl | rfl | rfl | rfl | h
  · exact (by decide : ¬ (ruleSearchRegx = ruleExcludeSubD ∨ ruleSearchRegx = ruleIncludeSubD))
  · exact (by decide : ¬ (ruleSearchIcase = ruleExcludeSubD ∨ ruleSearchIcase = ruleIncludeSubD))
  · exact (by decide : ¬ (ruleSearchStartoff = ruleExcludeSubD ∨ ruleSearchStartoff = ruleIncludeSubD))
  · exact (by decide : ¬ (ruleSearchEndoff = ruleExcludeSubD ∨ ruleSearchEndoff = ruleIncludeSubD))
  · exact (by decide : ¬ (ruleSearchMaxCount = ruleExcludeSubD ∨ ruleSearchMaxCount = ruleIncludeSubD))
  · obtain ⟨target, -, rfl⟩ := List.mem_map.mp h
    exact (by decide : ¬ (ruleExcludeSubS = ruleExcludeSubD ∨ ruleExcludeSubS = ruleIncludeSubD))

variable {maxCount : ℤ} {targets : List QString} {startOffset endOffset : ℕ}

theorem met_iff_found (h : Represents b root t) (m : Matcher) (query : Bytes) (s : ℕ) (q' : List Bytes) :
    Found b t (parsedRules maxCount targets startOffset endOffset)
        (m.comparator (parsedRules maxCount targets startOffset endOffset) query) q s q' ↔
      Met b t q query (targets.map toLatin1) s q' := by
  have hin : ∀ off, b.included (parsedRules maxCount targets startOffset endOffset) off = some true :=
    fun off => if_pos rulesOf_parsedRules.2
  have hcheck : ∀ r, r ≠ [] → (t.entryAt (q ++ r)).isSome → ∃ v,
      b.excluded (parsedRules maxCount targets startOffset endOffset) (offAt b.firstNameOff t (q ++ r)) = some v ∧
        (v = true ↔ Excluded (targets.map toLatin1) (r.getLast?.getD [])) := fun r hr hentry => by
    have hname := (strAt_offAt h (by simp [hr]) hentry).1
    rw [List.getLast?_append_of_ne_nil _ hr] at hname
    rw [← hname]
    exact excluded_parsedRules b _ maxCount targets startOffset endOffset
  have hdir : ∀ {r}, r <+: q' → r ≠ q' → (t.entryAt (q ++ q')).isSome → (t.entryAt (q ++ r)).isSome := by
    rintro r ⟨s, rfl⟩ hne hentry
    have hs : s ≠ [] := fun h0 => hne (by rw [h0, List.append_nil])
    rw [← List.append_assoc] at hentry
    obtain ⟨k, hk, -⟩ := exists_node_of_entryAt_append hs hentry
    exact hk ▸ rfl
  constructor
  · rintro ⟨⟨hne, hentry, hle, hvisible⟩, hmatch, hallowed, -⟩
    rw [comparator_parsedRules, decide_eq_true_eq] at hmatch
    refine ⟨hne, hentry, hle, hmatch, fun hbad => ?_, fun r hr hpre hneq hfrom hbad => ?_⟩
    · obtain ⟨v, hv, hiff⟩ := hcheck q' hne hentry
      rw [hv, hiff.mpr hbad] at hallowed
      cases hallowed
    · obtain ⟨v, hv, hiff⟩ := hcheck r hr (hdir hpre hneq hentry)
      exact hvisible r hr hpre hneq hfrom (by rw [hv, hiff.mpr hbad])
  · rintro ⟨hne, hentry, hle, hmatch, hallowed, hvisible⟩
    refine ⟨⟨hne, hentry, hle, fun r hr hpre hneq hfrom hbad => ?_⟩, ?_, ?_, hin _⟩
    · obtain ⟨v, hv, hiff⟩ := hcheck r hr (hdir hpre hneq hentry)
      rw [hv] at hbad
      exact hvisible r hr hpre hneq hfrom (hiff.mp (Option.some.inj hbad))
    · rwa [comparator_parsedRules, decide_eq_true_eq]
    · obtain ⟨v, hv, hiff⟩ := hcheck q' hne hentry
      rw [hv, Option.some.injEq, Bool.eq_false_iff]
      exact fun hbad => hallowed (hiff.mp hbad)

theorem mem_offsets (h : Represents b root t) {P : List Bytes → Prop}
    (hP : ∀ q', P q' → q' ≠ [] ∧ (t.entryAt (q ++ q')).isSome) {off : ℕ} :
    off ∈ offsets b t q P ↔ ∃ q', P q' ∧ offAt b.firstNameOff t (q ++ q') = off := by
  simp only [offsets, List.mem_filter, List.mem_range, decide_eq_true_eq, and_iff_right_iff_imp]
  rintro ⟨q', hq', rfl⟩
  obtain ⟨hne, hentry⟩ := hP q' hq'
  exact (strAt_offAt h (by simp [hne]) hentry).2

theorem offsets_sorted (P : List Bytes → Prop) : (offsets b t q P).Pairwise (· < ·) :=
  List.pairwise_lt_range.sublist List.filter_sublist

theorem length_offsets_le (P : List Bytes → Prop) : (offsets b t q P).length ≤ b.tail :=
  (List.length_filter_le _ _).trans_eq List.length_range

/-- A search of the index with the rules of a page comes upon the entries from its start on. -/
theorem rulesFound_eq_metFrom {c : List (Frame Bytes)} {k : Tree} (h : Represents b root (plug c k)) (m : Matcher)
    (query : Bytes) (s : ℕ) :
    rulesFound b (m.comparator (parsedRules maxCount targets startOffset endOffset) query)
        (parsedRules maxCount targets startOffset endOffset) (treeItems (runPos b.firstNameOff c) (path c) k) s =
      metFrom b (plug c k) (path c) query (targets.map toLatin1) s := by
  refine eq_of_sorted (rulesFound_sorted h.searchable_plug.1.chain _ _ _) (offsets_sorted _) fun off => ?_
  rw [h.mem_rulesFound_iff, metFrom, mem_offsets h fun q' hq' => ⟨hq'.ne_nil, hq'.entry⟩]
  simp only [met_iff_found h]

/-- With the rules of a page no search looks in front of the buffer. -/
theorem rulesInside_parsedRules {c : List (Frame Bytes)} {k : Tree} (h : Represents b root (plug c k))
    (comparator : Bytes → Bool) (s : ℕ) (limit : ℤ) :
    RulesInside b comparator (parsedRules maxCount targets startOffset endOffset)
      (treeItems (runPos b.firstNameOff c) (path c) k) s limit := by
  have hfree : ∀ off type, ¬ b.LooksInFront off
      (getRules (parsedRules maxCount targets startOffset endOffset) type).2 := fun off type =>
    FsBuf.not_looksInFront fun rule hrule hends =>
      absurd hends (not_asksEnd_of_mem (List.mem_filter.mp hrule).1)
  exact (h.rulesInside_iff comparator limit).mpr fun q' _ _ =>
    ⟨fun _ => hfree _ excludeRule, fun _ _ _ => hfree _ includeRule⟩

/-! ## The searches of the pages -/

/-- A place where a search can start: an item of the range, or its end. -/
def Start (b : FsBuf) (c : List (Frame Bytes)) (k : Tree) (s : ℕ) : Prop :=
  s = runPos b.firstNameOff c + treeSize k ∨
    ∃ x ∈ treeItems (runPos b.firstNameOff c) (path c) k, x.off = s

section Source

variable {c : List (Frame Bytes)} {k : Tree} (h : Represents b root (plug c k)) (query : Bytes)
  (targets : List Bytes)
include h

theorem exists_item_below {q' : List Bytes} (hne : q' ≠ []) (hentry : ((plug c k).entryAt (path c ++ q')).isSome) :
    ∃ x ∈ treeItems (runPos b.firstNameOff c) (path c) k,
      x.off = offAt b.firstNameOff (plug c k) (path c ++ q') := by
  rw [entryAt_plug (Fits.of_valid h.valid)] at hentry
  obtain ⟨x, hx, hname, hpath⟩ := (h.mem_items_iff q').mpr ⟨hne, hentry⟩
  exact ⟨x, hx, by rw [(h.off_eq hx hname).1, hpath]⟩

theorem mem_metFrom {s off : ℕ} : off ∈ metFrom b (plug c k) (path c) query targets s ↔
    ∃ q', Met b (plug c k) (path c) query targets s q' ∧
      offAt b.firstNameOff (plug c k) (path c ++ q') = off :=
  mem_offsets h fun _ hq' => ⟨hq'.ne_nil, hq'.entry⟩

theorem mem_listing {off : ℕ} : off ∈ listing b (plug c k) (path c) query targets ↔
    ∃ q', Listed (plug c k) (path c) query targets q' ∧
      offAt b.firstNameOff (plug c k) (path c ++ q') = off :=
  mem_offsets h fun _ hq' => ⟨hq'.ne_nil, hq'.entry⟩

/-- A search comes upon all entries that the caller is to get, from its start on. -/
theorem filter_accepted (s : ℕ) :
    (metFrom b (plug c k) (path c) query targets s).filter (accepted b (plug c k) (path c) query targets) =
      (listing b (plug c k) (path c) query targets).filter (s ≤ ·) := by
  refine eq_of_sorted ((offsets_sorted _).sublist List.filter_sublist)
    ((offsets_sorted _).sublist List.filter_sublist) fun off => ?_
  simp only [List.mem_filter, accepted, decide_eq_true_eq, mem_metFrom h]
  constructor
  · rintro ⟨⟨q', hmet, rfl⟩, hlisted⟩
    exact ⟨hlisted, hmet.le_off⟩
  · rintro ⟨hlisted, hle⟩
    refine ⟨?_, hlisted⟩
    obtain ⟨q', hq', rfl⟩ := (mem_listing h query targets).mp hlisted
    have hlast : ∀ r, r ≠ [] → r <+: q' → ¬ Excluded targets (r.getLast?.getD []) := fun r hr hpre => by
      obtain ⟨r, n, rfl⟩ : ∃ r' n, r = r' ++ [n] :=
        ⟨r.dropLast, r.getLast hr, (List.dropLast_append_getLast hr).symm⟩
      rw [List.getLast?_concat, Option.getD_some]
      exact hq'.allowed n (hpre.subset (by simp))
    exact ⟨q', ⟨hq'.ne_nil, hq'.entry, hle, hq'.matches_name, hlast q' hq'.ne_nil List.prefix_rfl,
      fun r hr hpre _ _ => hlast r hr hpre⟩, rfl⟩

/-- The searches of the pages are what `Paging` asks for. -/
theorem source : Source (metFrom b (plug c k) (path c) query targets)
    (accepted b (plug c k) (path c) query targets) b.nextName (runPos b.firstNameOff c + treeSize k)
    (Start b c k) (List.range b.tail) (listing b (plug c k) (path c) query targets) := by
  obtain ⟨hsearch, htail⟩ := h.searchable_plug
  have hitem : ∀ s, ∀ off ∈ metFrom b (plug c k) (path c) query targets s,
      ∃ x ∈ treeItems (runPos b.firstNameOff c) (path c) k, x.off = off := fun s off hoff => by
    obtain ⟨q', hmet, rfl⟩ := (mem_metFrom h query targets).mp hoff
    exact exists_item_below h hmet.ne_nil hmet.entry
  refine ⟨fun s _ => offsets_sorted _, fun s _ off hoff => ?_, fun s _ => filter_accepted h query targets s,
    fun s _ off hoff => ?_, fun s _ off hoff => ?_, .inl rfl, ?_⟩
  · obtain ⟨x, hx, rfl⟩ := hitem s off hoff
    obtain ⟨q', hmet, hq'⟩ := (mem_metFrom h query targets).mp hoff
    exact ⟨List.mem_range.mpr ((hsearch.chain.range hx).2.trans_le htail), hq' ▸ hmet.le_off⟩
  · obtain ⟨x, hx, rfl⟩ := hitem s off hoff
    exact ⟨.inr ⟨x, hx, rfl⟩, (hsearch.chain.next hx).2.1⟩
  · obtain ⟨x, hx, rfl⟩ := hitem s off hoff
    obtain ⟨hlt, -, hgap⟩ := hsearch.chain.next hx
    refine ⟨hlt, List.filter_congr fun y hy => decide_eq_decide.mpr ⟨fun hle => hlt.trans_le hle, fun hlt' => ?_⟩⟩
    obtain ⟨q', hq', rfl⟩ := (mem_listing h query targets).mp hy
    obtain ⟨z, hz, hzoff⟩ := exists_item_below h hq'.ne_nil hq'.entry
    rw [← hzoff] at hlt' ⊢
    exact hgap z hz hlt'
  · refine List.eq_nil_iff_forall_not_mem.mpr fun off hoff => ?_
    obtain ⟨q', hmet, hq'⟩ := (mem_metFrom h query targets).mp hoff
    obtain ⟨x, hx, hxoff⟩ := exists_item_below h hmet.ne_nil hmet.entry
    have := (hsearch.chain.range hx).2
    have := hmet.le_off
    omega

/-- What a search comes upon is for the caller if no name on the way is excluded. -/
theorem Met.accepted_iff {s : ℕ} {q' : List Bytes} (hmet : Met b (plug c k) (path c) query targets s q') :
    accepted b (plug c k) (path c) query targets (offAt b.firstNameOff (plug c k) (path c ++ q')) = true ↔
      ∀ name ∈ q', ¬ Excluded targets name := by
  rw [accepted, decide_eq_true_eq, mem_listing h]
  refine ⟨fun ⟨q'', hlisted, hoff⟩ => ?_, fun hall => ⟨q', ⟨hmet.ne_nil, hmet.entry, hmet.matches_name, hall⟩, rfl⟩⟩
  obtain ⟨e, he⟩ := Option.isSome_iff_exists.mp hmet.entry
  obtain ⟨e', he'⟩ := Option.isSome_iff_exists.mp hlisted.entry
  have hsame := h.offAt_inj (by simp [hlisted.ne_nil]) (by simp [hmet.ne_nil]) he' he hoff
  rw [← List.append_cancel_left hsame]
  exact hlisted.allowed

/-- Without excluded texts a search comes upon nothing else than what the caller is to get. -/
theorem accepted_of_no_targets {s off : ℕ} (hoff : off ∈ metFrom b (plug c k) (path c) query targets s)
    (hnil : targets = []) : accepted b (plug c k) (path c) query targets off = true := by
  obtain ⟨q', hmet, rfl⟩ := (mem_metFrom h query targets).mp hoff
  refine (hmet.accepted_iff h).mpr fun name _ ⟨target, htarget, _⟩ => ?_
  simp [hnil] at htarget

end Source

/-- What `_doSearch` reads in a reply: as many offsets as a page has, and a start behind the last of them or
at the end of the range. -/
theorem replyOf_page (b : FsBuf) (maxCount : ℤ) (stop : ℕ) (found : List ℕ) :
    (replyOf b maxCount stop (pageSize maxCount) found).results.take
        (min (pageSize maxCount) (replyOf b maxCount stop (pageSize maxCount) found).count) =
      found.take (pageSize maxCount) ∧
    ((replyOf b maxCount stop (pageSize maxCount) found).startOff = stop ∨
      ∃ last, (found.take (pageSize maxCount)).getLast? = some last ∧
        (replyOf b maxCount stop (pageSize maxCount) found).startOff = b.nextName last) := by
  by_cases hlimit : 0 < maxCount ∧ maxCount ≤ found.length
  · have hsize : pageSize maxCount = maxCount.toNat := if_pos hlimit.1
    obtain ⟨last, hlast, -⟩ := exists_last (pageSize_pos maxCount) (l := found) (by omega)
    refine ⟨?_, .inr ⟨last, hlast, ?_⟩⟩
    · rw [replyOf, if_pos hlimit, hsize]
      simp only [List.take_take, Nat.min_self]
    · rw [replyOf, if_pos hlimit, ← hsize, hlast]
      rfl
  · refine ⟨?_, .inl ?_⟩
    · rw [replyOf, if_neg hlimit]
      simp only [List.take_take]
      rcases le_total (pageSize maxCount) found.length with hle | hle
      · rw [Nat.min_eq_left hle, Nat.min_self]
      · rw [Nat.min_eq_right hle, List.take_of_length_le (by omega), List.take_of_length_le hle]
    · rw [replyOf, if_neg hlimit]

/-! ## The loops of `_doSearch` -/

/-- The entries at the offset have paths that have room in `tmp_path`. -/
def Short (b : FsBuf) (root : Bytes) (t : Tree) (q : List Bytes) (off : ℕ) : Prop :=
  ∀ q', q' ≠ [] → (t.entryAt (q ++ q')).isSome → offAt b.firstNameOff t (q ++ q') = off →
    (root ++ joinPath (q ++ q')).length < pathMax

open Classical in
/-- The result of a step, unless it looks up what it should not. -/
noncomputable def checked {α : Type*} (bad : Prop) (x : α) : Except Fault α :=
  if bad then .error .outOfBounds else .ok x

theorem checked_of {α : Type*} {bad : Prop} (hbad : bad) (x : α) : checked bad x = .error .outOfBounds :=
  if_pos hbad

theorem checked_of_not {α : Type*} {bad : Prop} (hbad : ¬ bad) (x : α) : checked bad x = .ok x :=
  if_neg hbad

section Loops

variable {c : List (Frame Bytes)} {k : Tree} (h : Represents b root (plug c k)) {env : SearchEnv}
  {opath searched : QString} {p : Bytes} (hs : env.Serves opath searched b p)
  (hp : p.getLast? ≠ some slash) (hres : resolve root (plug c k) p = some (path c))
  {targets : List QString} (htargets : TargetsOk targets) (query : Bytes)
include h hs hp hres htargets

/-- What is looked up of an entry that a search has come upon. -/
theorem namePath_met {s off : ℕ}
    (hoff : off ∈ metFrom b (plug c k) (path c) query (targets.map toLatin1) s) :
    (Short b root (plug c k) (path c) off → ∃ name, namePath b off = .ok name ∧
      env.shouldFilter searched targets name =
        !accepted b (plug c k) (path c) query (targets.map toLatin1) off) ∧
    (¬ Short b root (plug c k) (path c) off → namePath b off = .error .outOfBounds) := by
  obtain ⟨q', hmet, rfl⟩ := (mem_metFrom h query _).mp hoff
  have hne : path c ++ q' ≠ [] := by simp [hmet.ne_nil]
  obtain ⟨e, he⟩ := Option.isSome_iff_exists.mp hmet.entry
  have hnames : ∀ x ∈ q', NameOk x := fun x hx =>
    h.valid.of_entryAt he x (List.mem_append_right _ hx)
  constructor
  · intro hshort
    refine ⟨_, namePath_eq h hne hmet.entry (hshort q' hmet.ne_nil hmet.entry rfl), ?_⟩
    rw [joinPath_below h.root_ok hp hres hmet.ne_nil, Bool.eq_iff_iff,
      shouldFilter_iff hs htargets hnames hmet.ne_nil, Bool.not_eq_true', ← Bool.not_eq_true,
      hmet.accepted_iff h]
    simp only [not_forall, not_not, exists_prop]
  · intro hlong
    refine namePath_tooLong h hne hmet.entry (Nat.le_of_not_lt fun hlt => hlong fun q'' hq'' hentry hsame => ?_)
    obtain ⟨e', he'⟩ := Option.isSome_iff_exists.mp hentry
    rwa [h.offAt_inj (by simp [hq'']) hne he' he hsame]

/-- The loop over the offsets of one search cuts them off where the page is full. -/
theorem filterLoop_eq {size stop s : ℕ} {l : List ℕ}
    (hl : ∀ off ∈ l, off ∈ metFrom b (plug c k) (path c) query (targets.map toLatin1) s ∧ off < stop)
    {results : List ℕ} {room : ℕ} (hroom : results.length + room = size) (start : ℕ) {looked rest : List ℕ}
    (hcut : cut (accepted b (plug c k) (path c) query (targets.map toLatin1)) room l = (looked, rest)) :
    env.filterLoop b searched targets size stop l results start =
      checked (targets ≠ [] ∧ ∃ off ∈ looked, ¬ Short b root (plug c k) (path c) off)
        (results ++ looked.filter (accepted b (plug c k) (path c) query (targets.map toLatin1)),
          rest.head?.getD start) := by
  induction l generalizing results room looked rest with
  | nil =>
    have : cut (accepted b (plug c k) (path c) query (targets.map toLatin1)) room [] = ([], []) := by
      cases room <;> rfl
    obtain ⟨rfl, rfl⟩ := Prod.mk.inj (hcut.symm.trans this)
    rw [SearchEnv.filterLoop, checked_of_not (by simp)]
    simp
  | cons off l ih =>
    obtain ⟨hmet, hlt⟩ := hl off List.mem_cons_self
    have hl' := fun o ho => hl o (List.mem_cons_of_mem off ho)
    rw [SearchEnv.filterLoop, if_neg (by omega)]
    cases room with
    | zero =>
      -- the page is full, and the next one starts here
      obtain ⟨rfl, rfl⟩ := Prod.mk.inj hcut
      rw [if_pos (by omega), checked_of_not (by simp)]
      simp
    | succ room =>
      rw [cut] at hcut
      generalize hmore : cut (accepted b (plug c k) (path c) query (targets.map toLatin1))
        (if accepted b (plug c k) (path c) query (targets.map toLatin1) off then room else room + 1) l = more at hcut
      obtain ⟨more, rest'⟩ := more
      obtain ⟨rfl, rfl⟩ := Prod.mk.inj hcut
      rw [if_neg (by omega)]
      by_cases hnil : targets = []
      · have hok := accepted_of_no_targets h query _ hmet (by rw [hnil, List.map_nil])
        rw [if_pos hok] at hmore
        rw [if_pos hnil, ih hl' (by simp; omega) hmore, List.filter_cons_of_pos hok, List.append_assoc,
          List.singleton_append, checked_of_not (by simp [hnil]), checked_of_not (by simp [hnil])]
      · obtain ⟨hshort, hlong⟩ := namePath_met h hs hp hres htargets query hmet
        rw [if_neg hnil]
        by_cases hoff : Short b root (plug c k) (path c) off
        · obtain ⟨name, hname, hfilter⟩ := hshort hoff
          have hbad : (targets ≠ [] ∧ ∃ o ∈ off :: more, ¬ Short b root (plug c k) (path c) o) ↔
              (targets ≠ [] ∧ ∃ o ∈ more, ¬ Short b root (plug c k) (path c) o) := by
            simp [hoff]
          rw [hname, hbad]
          change env.filterLoop b searched targets size stop l
            (if env.shouldFilter searched targets name then results else results ++ [off]) start = _
          rw [hfilter]
          by_cases hok : accepted b (plug c k) (path c) query (targets.map toLatin1) off = true
          · rw [if_pos hok] at hmore
            rw [hok, Bool.not_true, if_neg Bool.false_ne_true, ih hl' (by simp; omega) hmore,
              List.filter_cons_of_pos hok, List.append_assoc, List.singleton_append]
          · rw [if_neg hok] at hmore
            rw [Bool.not_eq_true] at hok
            rw [hok, Bool.not_false, if_pos rfl, ih hl' (by omega) hmore,
              List.filter_cons_of_neg (by simp [hok])]
        · rw [hlong hoff, checked_of ⟨hnil, off, List.mem_cons_self, hoff⟩]
          rfl

omit hp hres htargets in
theorem parallelsearchFiles_eq {s : ℕ} (hstart : Start b c k s) {maxCount : ℤ}
    (hmax : -2 ^ 31 ≤ maxCount ∧ maxCount < 2 ^ 31) (startOffset endOffset : ℕ) :
    b.parallelsearchFiles env.matcher env.poolThreads s (runPos b.firstNameOff c + treeSize k)
        (pageSize maxCount) (parsedRules maxCount targets startOffset endOffset) query =
      some (replyOf b maxCount (runPos b.firstNameOff c + treeSize k) (pageSize maxCount)
        (metFrom b (plug c k) (path c) query (targets.map toLatin1) s)) := by
  obtain ⟨hsearch, htail⟩ := h.searchable_plug
  have hrules : parsedRules maxCount targets startOffset endOffset ≠ [] := List.cons_ne_nil _ _
  rw [hs.worker, (parallelsearchFiles_one hsearch htail hstart env.matcher hrules _ query).1
    (rulesInside_parsedRules h _ _ _), atoi_parsedRules hmax, rulesFound_eq_metFrom h]

/-- The loop of `_doSearch` fills a page. -/
theorem doSearchLoop_eq {maxCount : ℤ} (hmax : -2 ^ 31 ≤ maxCount ∧ maxCount < 2 ^ 31)
    (startOffset endOffset : ℕ) {fuel s : ℕ} (hstart : Start b c k s)
    (hfuel : b.tail < fuel + s) {results : List ℕ} {room : ℕ}
    (hroom : results.length + room = pageSize maxCount) (hpos : 0 < room) {looked : List ℕ} {s' : ℕ}
    (hpage : page (metFrom b (plug c k) (path c) query (targets.map toLatin1))
      (accepted b (plug c k) (path c) query (targets.map toLatin1)) b.nextName (pageSize maxCount)
      (runPos b.firstNameOff c + treeSize k) fuel s room = (looked, s')) :
    env.doSearchLoop b searched targets (parsedRules maxCount targets startOffset endOffset) query
        (pageSize maxCount) (runPos b.firstNameOff c + treeSize k) fuel s results =
      checked (targets ≠ [] ∧ ∃ off ∈ looked, ¬ Short b root (plug c k) (path c) off)
        (results ++ looked.filter (accepted b (plug c k) (path c) query (targets.map toLatin1)), s') := by
  obtain ⟨hsearch, htail⟩ := h.searchable_plug
  have hsource := source h query (targets.map toLatin1)
  have hle : ∀ s, Start b c k s → s ≤ runPos b.firstNameOff c + treeSize k := by
    rintro s (rfl | ⟨x, hx, rfl⟩)
    · exact le_rfl
    · exact (hsearch.chain.range hx).2.le
  have hlt : ∀ s, ∀ off ∈ metFrom b (plug c k) (path c) query (targets.map toLatin1) s,
      off < runPos b.firstNameOff c + treeSize k := fun s off hoff => by
    obtain ⟨q', hmet, rfl⟩ := (mem_metFrom h query _).mp hoff
    obtain ⟨x, hx, hxoff⟩ := exists_item_below h hmet.ne_nil hmet.entry
    exact hxoff ▸ (hsearch.chain.range hx).2
  induction fuel generalizing s results room looked s' with
  | zero =>
    have := hle s hstart
    omega
  | succ fuel ih =>
    obtain ⟨hround, hoff⟩ := replyOf_page b maxCount (runPos b.firstNameOff c + treeSize k)
      (metFrom b (plug c k) (path c) query (targets.map toLatin1) s)
    rw [SearchEnv.doSearchLoop, parallelsearchFiles_eq h hs query hstart hmax]
    simp only [hround]
    generalize replyOf b maxCount (runPos b.firstNameOff c + treeSize k) (pageSize maxCount)
      (metFrom b (plug c k) (path c) query (targets.map toLatin1) s) = reply at hoff ⊢
    have hl : ∀ off ∈ (metFrom b (plug c k) (path c) query (targets.map toLatin1) s).take (pageSize maxCount),
        off ∈ metFrom b (plug c k) (path c) query (targets.map toLatin1) s ∧
          off < runPos b.firstNameOff c + treeSize k := fun off hoff =>
      ⟨List.mem_of_mem_take hoff, hlt s off (List.mem_of_mem_take hoff)⟩
    rw [page] at hpage
    generalize hcut : cut (accepted b (plug c k) (path c) query (targets.map toLatin1)) room
      ((metFrom b (plug c k) (path c) query (targets.map toLatin1) s).take (pageSize maxCount)) = parts at hpage
    obtain ⟨here, rest⟩ := parts
    rw [filterLoop_eq h hs hp hres htargets query hl hroom reply.startOff hcut]
    cases hlast : ((metFrom b (plug c k) (path c) query (targets.map toLatin1) s).take
        (pageSize maxCount)).getLast? with
    | none =>
      rw [hlast] at hpage hoff
      obtain ⟨rfl, rfl⟩ := Prod.mk.inj hpage
      -- the search came upon nothing and is at the end of the range
      rw [List.getLast?_eq_none_iff.mp hlast] at hcut
      have hnil : cut (accepted b (plug c k) (path c) query (targets.map toLatin1)) room [] = ([], []) := by
        cases room <;> rfl
      obtain ⟨rfl, rfl⟩ := Prod.mk.inj (hcut.symm.trans hnil)
      have hend : reply.startOff = runPos b.firstNameOff c + treeSize k := hoff.resolve_right (by simp)
      rw [checked_of_not (by simp), checked_of_not (by simp), List.head?_nil, Option.getD_none, hend]
      exact if_neg (lt_irrefl _)
    | some last =>
      rw [hlast] at hpage hoff
      simp only at hpage
      have hmem : last ∈ metFrom b (plug c k) (path c) query (targets.map toLatin1) s :=
        List.mem_of_mem_take (List.mem_of_getLast? hlast)
      have hlength : (results ++ here.filter (accepted b (plug c k) (path c) query (targets.map toLatin1))).length =
          results.length + (here.filter (accepted b (plug c k) (path c) query (targets.map toLatin1))).length :=
        List.length_append
      by_cases hfull : room - (here.filter (accepted b (plug c k) (path c) query (targets.map toLatin1))).length = 0
      · rw [if_pos hfull] at hpage
        obtain ⟨rfl, rfl⟩ := Prod.mk.inj hpage
        by_cases hbad : targets ≠ [] ∧ ∃ off ∈ here, ¬ Short b root (plug c k) (path c) off
        · rw [checked_of hbad, checked_of hbad]
          rfl
        rw [checked_of_not hbad, checked_of_not hbad]
        refine (if_neg (by rw [hlength]; omega)).trans ?_
        cases rest with
        | nil =>
          -- the next page starts behind the last offset, wherever the search has ended
          rw [List.head?_nil, Option.getD_none, Option.getD_none]
          rcases hoff with hoff | ⟨last', hlast', hoff⟩
          · exact if_pos hoff
          · obtain rfl := Option.some.inj hlast'
            rw [hoff, ite_self]
            rfl
        | cons off rest =>
          have hin : off ∈ (metFrom b (plug c k) (path c) query (targets.map toLatin1) s).take
              (pageSize maxCount) := by
            have happend := cut_append (accepted b (plug c k) (path c) query (targets.map toLatin1)) room
              ((metFrom b (plug c k) (path c) query (targets.map toLatin1) s).take (pageSize maxCount))
            rw [hcut] at happend
            rw [← happend]
            simp
          exact if_neg (hl off hin).2.ne
      · rw [if_neg hfull] at hpage
        have hnext := hsource.next_lt s hstart last hmem
        have hfrom := (hsource.mem s hstart last hmem).2
        generalize hmore : page (metFrom b (plug c k) (path c) query (targets.map toLatin1))
          (accepted b (plug c k) (path c) query (targets.map toLatin1)) b.nextName (pageSize maxCount)
          (runPos b.firstNameOff c + treeSize k) fuel (b.nextName last)
          (room - (here.filter (accepted b (plug c k) (path c) query (targets.map toLatin1))).length) =
            more at hpage
        obtain ⟨more, s''⟩ := more
        obtain ⟨rfl, rfl⟩ := Prod.mk.inj hpage
        have hloop := ih (hsource.pos s hstart last hmem).2 (by omega) (by rw [hlength]; omega)
          (Nat.pos_of_ne_zero hfull) hmore
        by_cases hbad : targets ≠ [] ∧ ∃ off ∈ here, ¬ Short b root (plug c k) (path c) off
        · obtain ⟨hne, off, hin, hlong⟩ := hbad
          rw [checked_of ⟨hne, off, hin, hlong⟩, checked_of ⟨hne, off, List.mem_append_left _ hin, hlong⟩]
          rfl
        rw [checked_of_not hbad]
        refine ((if_pos (by rw [hlength]; omega)).trans hloop).trans ?_
        have hsame : (targets ≠ [] ∧ ∃ off ∈ more, ¬ Short b root (plug c k) (path c) off) ↔
            (targets ≠ [] ∧ ∃ off ∈ here ++ more, ¬ Short b root (plug c k) (path c) off) := by
          simp only [List.mem_append, or_and_right, exists_or, and_or_left, hbad, false_or]
        rw [hsame, List.filter_append, List.append_assoc]

/-! ## One page -/

/-- The paths of the results are looked up once more for the reply. -/
theorem mapM_namePath {results : List ℕ}
    (hresults : ∀ off ∈ results, accepted b (plug c k) (path c) query (targets.map toLatin1) off = true)
    {f : ℕ → Except Fault QString} (hf : ∀ off, f off = (namePath b off).map env.fromLocal8Bit) :
    results.mapM f = checked (∃ off ∈ results, ¬ Short b root (plug c k) (path c) off)
      (results.map (env.nameOf b)) := by
  induction results with
  | nil =>
    rw [checked_of_not (by simp)]
    rfl
  | cons off results ih =>
    have hmet : off ∈ metFrom b (plug c k) (path c) query (targets.map toLatin1) 0 := by
      have hlisted := hresults off List.mem_cons_self
      rw [accepted, decide_eq_true_eq] at hlisted
      refine List.mem_of_mem_filter (p := accepted b (plug c k) (path c) query (targets.map toLatin1)) ?_
      rw [filter_accepted h query (targets.map toLatin1) 0]
      exact List.mem_filter.mpr ⟨hlisted, decide_eq_true (Nat.zero_le _)⟩
    obtain ⟨hshort, hlong⟩ := namePath_met h hs hp hres htargets query hmet
    rw [List.mapM_cons, hf]
    by_cases hoff : Short b root (plug c k) (path c) off
    · obtain ⟨name, hname, -⟩ := hshort hoff
      have hsame : (∃ o ∈ off :: results, ¬ Short b root (plug c k) (path c) o) ↔
          ∃ o ∈ results, ¬ Short b root (plug c k) (path c) o := by simp [hoff]
      rw [hsame, ih fun o ho => hresults o (List.mem_cons_of_mem _ ho)]
      have hnameOf : env.nameOf b off = env.fromLocal8Bit name := by
        rw [SearchEnv.nameOf, hname]
        rfl
      rw [List.map_cons, hnameOf, hname]
      by_cases hbad : ∃ o ∈ results, ¬ Short b root (plug c k) (path c) o
      · rw [checked_of hbad, checked_of hbad]
        rfl
      · rw [checked_of_not hbad, checked_of_not hbad]
        rfl
    · rw [hlong hoff, checked_of ⟨off, List.mem_cons_self, hoff⟩]
      rfl

variable {maxCount : ℤ} (hmax : -2 ^ 31 ≤ maxCount ∧ maxCount < 2 ^ 31)
include hmax

theorem doSearch_eq {keyword : QString} {startOffset endOffset s : ℕ} (hstart : Start b c k s)
    (hle : startOffset ≤ b.tail ∧ endOffset ≤ b.tail) {looked : List ℕ} {s' : ℕ}
    (hpage : page (metFrom b (plug c k) (path c) (env.query keyword) (targets.map toLatin1))
      (accepted b (plug c k) (path c) (env.query keyword) (targets.map toLatin1)) b.nextName (pageSize maxCount)
      (runPos b.firstNameOff c + treeSize k) (b.tail + 1) s (pageSize maxCount) = (looked, s')) :
    env.doSearch b maxCount.toNat searched keyword s (runPos b.firstNameOff c + treeSize k)
        (enteredRules maxCount targets startOffset endOffset) =
      checked (targets ≠ [] ∧ ∃ off ∈ looked, ¬ Short b root (plug c k) (path c) off)
        (looked.filter (accepted b (plug c k) (path c) (env.query keyword) (targets.map toLatin1)), s') := by
  have hcap := h.sized.tail_le_max
  have hreq : (if maxCount.toNat > 0 then maxCount.toNat else defaultResultCount) = pageSize maxCount := by
    rw [pageSize]
    simp only [gt_iff_lt, Int.lt_toNat, Nat.cast_zero]
  rw [SearchEnv.doSearch, parseRules_enteredRules htargets (by omega) (by omega) (by omega)]
  simp only [hreq, getRuleStrings_enteredRules]
  exact doSearchLoop_eq h hs hp hres htargets (env.query keyword) hmax startOffset endOffset hstart (by omega)
    (Nat.zero_add _) (pageSize_pos maxCount) hpage

/-- One call of `parallelsearch` replies with a page, and with where the next one starts. -/
theorem parallelsearch_eq {keyword : QString} {startOffset endOffset s : ℕ} (hstart : Start b c k s)
    (hle : startOffset ≤ b.tail ∧ endOffset ≤ b.tail)
    (hprep : env.prepareBuf startOffset endOffset searched =
      .ok (s, runPos b.firstNameOff c + treeSize k, b, searched)) {looked : List ℕ} {s' : ℕ}
    (hpage : page (metFrom b (plug c k) (path c) (env.query keyword) (targets.map toLatin1))
      (accepted b (plug c k) (path c) (env.query keyword) (targets.map toLatin1)) b.nextName (pageSize maxCount)
      (runPos b.firstNameOff c + treeSize k) (b.tail + 1) s (pageSize maxCount) = (looked, s')) :
    env.parallelsearch opath startOffset endOffset keyword (pageRules maxCount targets) =
      checked (∃ off ∈ looked, ¬ Short b root (plug c k) (path c) off)
        ⟨(looked.filter (accepted b (plug c k) (path c) (env.query keyword) (targets.map toLatin1))).map
          (env.nameOf b), some (s', runPos b.firstNameOff c + treeSize k)⟩ := by
  have hcap := h.sized.tail_le_max
  obtain ⟨hargMax, hargStart, hargEnd⟩ := @getRuleArgs_enteredRules maxCount targets startOffset endOffset
    (by omega) (by omega) (by omega)
  rw [SearchEnv.parallelsearch, setRulesByDefault_pageRules, SearchEnv.enterSearch]
  simp only [hargMax, hargStart, hargEnd, Option.getD_some, hs.searched, hprep]
  rw [doSearch_eq h hs hp hres htargets hmax hstart hle hpage]
  by_cases hlooked : targets ≠ [] ∧ ∃ off ∈ looked, ¬ Short b root (plug c k) (path c) off
  · rw [checked_of hlooked, checked_of hlooked.2]
    rfl
  rw [checked_of_not hlooked]
  -- without excluded texts the results are all that was looked at
  have hbad : (∃ off ∈ looked.filter (accepted b (plug c k) (path c) (env.query keyword)
      (targets.map toLatin1)), ¬ Short b root (plug c k) (path c) off) ↔
      ∃ off ∈ looked, ¬ Short b root (plug c k) (path c) off := by
    refine ⟨fun ⟨off, hoff, hlong⟩ => ⟨off, List.mem_of_mem_filter hoff, hlong⟩, fun ⟨off, hoff, hlong⟩ => ?_⟩
    have hnil : targets = [] := by_contra fun hne => hlooked ⟨hne, off, hoff, hlong⟩
    obtain ⟨s₀, hmet⟩ := mem_page _ _ _ _ _ hpage hoff
    exact ⟨off, List.mem_filter.mpr ⟨hoff, accepted_of_no_targets h _ _ hmet (by rw [hnil, List.map_nil])⟩, hlong⟩
  have hmap : (looked.filter (accepted b (plug c k) (path c) (env.query keyword) (targets.map toLatin1))).mapM
      (fun off => do
        let originPath := env.fromLocal8Bit (← namePath b off)
        return if searched ≠ searched then searched ++ originPath.drop searched.length else originPath) = _ :=
    mapM_namePath h hs hp hres htargets (env.query keyword) (fun off hoff => (List.mem_filter.mp hoff).2)
      fun off => by cases namePath b off <;> simp <;> rfl
  rw [hbad] at hmap
  refine (congrArg (fun list : Except Fault (List QString) => list >>= fun list =>
    pure (PageReply.mk list (some (s', runPos b.firstNameOff c + treeSize k)))) hmap).trans ?_
  by_cases hlong : ∃ off ∈ looked, ¬ Short b root (plug c k) (path c) off
  · rw [checked_of hlong, checked_of hlong]
    rfl
  · rw [checked_of_not hlong, checked_of_not hlong]
    rfl

/-! ## All pages -/

omit h hp hres htargets hmax in
theorem searched_ne_nil : searched ≠ [] := fun h0 => by
  have := hs.absolute
  rw [h0] at this
  cases this

omit h hp hres htargets hmax in
theorem prepareBuf_again {s stop : ℕ} (hs0 : s ≠ 0) (hstop : stop ≠ 0) :
    env.prepareBuf s stop searched = .ok (s, stop, b, searched) := by
  rw [SearchEnv.prepareBuf, hs.buffer]
  simp only [searched_ne_nil hs, hs0, hstop, or_self, if_false]

omit h hp hres htargets hmax in
/-- The first page starts where the range of the directory does. -/
theorem prepareBuf_first {off start stop : ℕ} (hrange : b.getPathRange p = some (off, start, stop)) :
    env.prepareBuf 0 0 searched =
      if start = 0 then .error .emptyDir else .ok (start, stop, b, searched) := by
  rw [SearchEnv.prepareBuf, hs.buffer]
  simp only [searched_ne_nil hs, if_false, or_self, if_true, hs.encoded, hrange]

omit h hp hres htargets in
/-- A directory without entries has an empty page. -/
theorem parallelsearch_empty {keyword : QString} {e : SearchError}
    (hprep : env.prepareBuf 0 0 searched = .error e) :
    env.parallelsearch opath 0 0 keyword (pageRules maxCount targets) = .ok ⟨[], none⟩ := by
  obtain ⟨hargMax, hargStart, hargEnd⟩ := @getRuleArgs_enteredRules maxCount targets 0 0 (by omega) (by omega)
    (by omega)
  rw [SearchEnv.parallelsearch, setRulesByDefault_pageRules, SearchEnv.enterSearch]
  simp only [hargStart, hargEnd, Option.getD_some, hs.searched, hprep]

/-- A caller that asks for one page after the other gets the pages, until one is empty. -/
theorem pagedSearch_eq {keyword : QString} {n startOffset endOffset s : ℕ} (hstart : Start b c k s)
    (hle : startOffset ≤ b.tail ∧ endOffset ≤ b.tail)
    (hprep : env.prepareBuf startOffset endOffset searched =
      .ok (s, runPos b.firstNameOff c + treeSize k, b, searched))
    (hn : ((listing b (plug c k) (path c) (env.query keyword) (targets.map toLatin1)).filter (s ≤ ·)).length < n) :
    env.pagedSearch opath keyword (pageRules maxCount targets) n startOffset endOffset =
      checked (∃ off ∈ lookedAt b (plug c k) (path c) (env.query keyword) (targets.map toLatin1) s
          (runPos b.firstNameOff c + treeSize k) (pageSize maxCount) n, ¬ Short b root (plug c k) (path c) off)
        ((pages (metFrom b (plug c k) (path c) (env.query keyword) (targets.map toLatin1))
          (accepted b (plug c k) (path c) (env.query keyword) (targets.map toLatin1)) b.nextName
          (pageSize maxCount) (runPos b.firstNameOff c + treeSize k) (b.tail + 1) n s).2.map
            (·.map (env.nameOf b))) := by
  induction n generalizing startOffset endOffset s with
  | zero => omega
  | succ n ih =>
    obtain ⟨hsearch, htail⟩ := h.searchable_plug
    have hsource := source h (env.query keyword) (targets.map toLatin1)
    rw [lookedAt, pages]
    generalize hpage : page (metFrom b (plug c k) (path c) (env.query keyword) (targets.map toLatin1))
      (accepted b (plug c k) (path c) (env.query keyword) (targets.map toLatin1)) b.nextName (pageSize maxCount)
      (runPos b.firstNameOff c + treeSize k) (b.tail + 1) s (pageSize maxCount) = result
    obtain ⟨looked, s'⟩ := result
    obtain ⟨hfilter, hstart', hrest⟩ := hsource.page_spec (pageSize_pos maxCount) hstart (pageSize_pos maxCount)
      (by have := List.length_filter_le (s ≤ ·) (List.range b.tail); rw [List.length_range] at this; omega) hpage
    rw [SearchEnv.pagedSearch, parallelsearch_eq h hs hp hres htargets hmax hstart hle hprep hpage]
    simp only
    by_cases hlong : ∃ off ∈ looked, ¬ Short b root (plug c k) (path c) off
    · obtain ⟨off, hoff, hbad⟩ := hlong
      rw [checked_of ⟨off, hoff, hbad⟩, checked_of]
      · rfl
      · refine ⟨off, ?_, hbad⟩
        split
        · exact hoff
        · exact List.mem_append_left _ hoff
    rw [checked_of_not hlong]
    by_cases hempty : looked.filter
        (accepted b (plug c k) (path c) (env.query keyword) (targets.map toLatin1)) = []
    · rw [if_pos hempty, checked_of_not hlong, hempty]
      rfl
    rw [if_neg hempty]
    have hpos : 0 < s' ∧ 0 < runPos b.firstNameOff c + treeSize k ∧ s' ≤ b.tail := by
      have hfirst := h.first_pos
      have hbase := base_le_runPos b.firstNameOff c
      rcases hstart' with rfl | ⟨x, hx, rfl⟩
      · omega
      · have := hsearch.chain.range hx
        omega
    have hless : ((listing b (plug c k) (path c) (env.query keyword) (targets.map toLatin1)).filter
        (s' ≤ ·)).length < n := by
      rw [hrest, List.length_drop]
      have hne : (listing b (plug c k) (path c) (env.query keyword) (targets.map toLatin1)).filter (s ≤ ·) ≠ [] :=
        fun h0 => hempty (by rw [hfilter, h0, List.take_nil])
      have := List.length_pos_iff.mpr hne
      have := pageSize_pos maxCount
      omega
    have hmore := ih hstart' ⟨hpos.2.2, htail⟩ (prepareBuf_again hs (by omega) (by omega)) hless
    obtain ⟨x, xs, hcons⟩ := List.exists_cons_of_ne_nil hempty
    rw [hcons, List.map_cons]
    change (env.pagedSearch opath keyword (pageRules maxCount targets) n s'
      (runPos b.firstNameOff c + treeSize k) >>= fun rest =>
        Except.ok ((env.nameOf b x :: xs.map (env.nameOf b)) :: rest)) = _
    rw [hmore, lookedAt]
    by_cases hbad : ∃ off ∈ (pages (metFrom b (plug c k) (path c) (env.query keyword) (targets.map toLatin1))
        (accepted b (plug c k) (path c) (env.query keyword) (targets.map toLatin1)) b.nextName
        (pageSize maxCount) (runPos b.firstNameOff c + treeSize k) (b.tail + 1) n s').1,
        ¬ Short b root (plug c k) (path c) off
    · obtain ⟨off, hoff, hbad⟩ := hbad
      rw [checked_of ⟨off, hoff, hbad⟩, checked_of ⟨off, List.mem_append_right _ hoff, hbad⟩]
      rfl
    · rw [checked_of_not hbad, checked_of_not]
      · rfl
      · rintro ⟨off, hoff, hoffbad⟩
        rcases List.mem_append.mp hoff with hoff | hoff
        · exact hlong ⟨off, hoff, hoffbad⟩
        · exact hbad ⟨off, hoff, hoffbad⟩

end Loops

end Search

end DeepinAnything.Server
