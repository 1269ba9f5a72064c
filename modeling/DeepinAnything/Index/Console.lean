import Mathlib.Data.List.Sort
import DeepinAnything.Index.Stored

/-!
# Queries of any length (`console_test.c`)

The index has keywords of up to `MAX_KW_LEN` characters. `search_by_index` looks a longer query up by its beginning
and compares the names it gets with the whole of it, but only as long as it still prints: behind the last result that
is printed every name with the beginning of the query is counted.
-/

namespace DeepinAnything

open ByteMem OrderedForest OrderedForest.Forest

def maxResults : ℕ := 100

/-- The command without the newline at its end. -/
def chomp (cmd : Bytes) : Bytes := if cmd.getLast? = some 10 then cmd.dropLast else cmd

/-- `get_short_query`: the query and its beginning, or the code it returns. -/
def getShortQuery (cmd : Bytes) : Except ℤ (Bytes × Bytes) :=
  if cmd.length = 0 then .error (-1)
  else
    let cmd := chomp cmd
    if cmd.length = 0 then .error 1
    else
      match utf8ToWcharT cmd (4 * nameMax - 4) with
      | none => .error 2
      | some wquery =>
        let ws := if wquery.length > maxKwLen then wquery.take maxKwLen else wquery
        match wcharTToUtf8 ws nameMax with
        | none => .error 3
        | some shortCmd => .ok (cmd, shortCmd)

/-- The loop of `search_by_index` over the offsets of the keyword: what is printed, an offset behind its number, and
`n` at the end. -/
def searchByIndexLoop (b : FsBuf) (query : Bytes) (truncated : Bool) : List ℕ → ℕ → List (ℕ × ℕ) × ℕ
  | [], n => ([], n)
  | off :: offs, n =>
    if n ≤ maxResults then
      if truncated ∧ ¬ query <:+: b.strAt off then searchByIndexLoop b query truncated offs n
      else
        let rest := searchByIndexLoop b query truncated offs (n + 1)
        ((n, off) :: rest.1, rest.2)
    else searchByIndexLoop b query truncated offs (n + 1)

/-- `search_by_index`: the lines it prints, and the number it returns. -/
def searchByIndex (fsi : FsIndex) (b : FsBuf) (query : Bytes) : List (ℕ × ℕ) × ℕ :=
  match getShortQuery query with
  | .error _ => ([], 0)
  | .ok (query, shortQuery) =>
    let offs := (fsi.getIndexKeyword shortQuery).elim [] IndexKeyword.fsbufOffsets
    let found := searchByIndexLoop b query (shortQuery.length < query.length) offs 1
    (found.1, found.2 - 1)

/-! ## What is asked -/

/-- The index answers as one in memory that answers every query. -/
def FsIndex.Serves (fsi : FsIndex) (entries : List (Bytes × ℕ)) : Prop :=
  ∃ ami : AllmemIndex, AnswersQueries ami entries ∧
    ∀ query, (fsi.getIndexKeyword query).map IndexKeyword.answer =
      (ami.getIndexKeywordAllmem query).map IndexKeyword.answer

/-- An index that has been saved serves, loaded under either policy. -/
theorem SurvivesSaving.serves {ami : AllmemIndex} {entries : List (Bytes × ℕ)} (h : SurvivesSaving ami)
    (hami : AnswersQueries ami entries) : ∃ file, saveAllmemIndex ami = some file ∧
      ∀ fresh policy, ∃ fsi, loadFsIndex fresh policy file = .ok fsi ∧ fsi.Serves entries := by
  obtain ⟨file, hsave, hload⟩ := h
  refine ⟨file, hsave, fun fresh policy => ?_⟩
  obtain ⟨fsi, hfsi, hsame⟩ := hload fresh policy
  exact ⟨fsi, hfsi, ami, hami, hsame⟩

/-- The offsets of the names that contain a text, in the order of the names. -/
def FsBuf.namesWith (b : FsBuf) (query : Bytes) : List ℕ :=
  (b.indexEntries.filter fun e => query <:+: e.1).map Prod.snd

/-- The command is a text that fits. -/
def IsQuery (cmd : Bytes) (qs : List Char) : Prop :=
  Utf8.decode (chomp cmd) = some qs ∧ 1 ≤ qs.length ∧ qs.length < nameMax

theorem utf8ToWcharT_eq_some {text : Bytes} {qs : List Char} (hdec : Utf8.decode text = some qs)
    (hlen : qs.length < nameMax) : utf8ToWcharT text (4 * nameMax - 4) = some qs := by
  have hroom : 4 * qs.length ≤ 4 * nameMax - 4 := by
    simp only [nameMax] at hlen ⊢
    omega
  rw [utf8ToWcharT, hdec, Option.filter_some_pos (by simpa using hroom)]

theorem getShortQuery_eq {cmd : Bytes} {qs : List Char} (h : IsQuery cmd qs) :
    getShortQuery cmd = .ok (Utf8.encode qs, Utf8.encode (qs.take maxKwLen)) := by
  obtain ⟨hdec, hpos, hlen⟩ := h
  have henc : chomp cmd = Utf8.encode qs := Utf8.decode_eq_some_iff.mp hdec
  have hne : Utf8.encode qs ≠ [] := fun hnil => by
    rw [Utf8.encode_eq_nil_iff] at hnil
    simp [hnil] at hpos
  have hcmd : cmd ≠ [] := fun hnil => hne (by rw [← henc, hnil]; rfl)
  have hshort : (if qs.length > maxKwLen then qs.take maxKwLen else qs) = qs.take maxKwLen := by
    split
    · rfl
    · rename_i hle
      exact (List.take_of_length_le (Nat.le_of_not_lt hle)).symm
  have hfit : (Utf8.encode (qs.take maxKwLen)).length ≤ nameMax := by
    have hbytes := Utf8.length_encode_le (qs.take maxKwLen)
    have hchars : (qs.take maxKwLen).length ≤ 8 := List.length_take_le _ _
    simp only [nameMax]
    omega
  rw [getShortQuery, if_neg (by simpa using hcmd)]
  simp only [henc]
  rw [if_neg (by simpa using hne), utf8ToWcharT_eq_some (Utf8.decode_encode qs) hlen]
  simp only [hshort, wcharTToUtf8, if_pos hfit]

/-- Nothing is found for no text, nor for one that does not fit. -/
theorem searchByIndex_of_length {fsi : FsIndex} {b : FsBuf} {cmd : Bytes} {qs : List Char}
    (hdec : Utf8.decode (chomp cmd) = some qs) (hlen : qs.length = 0 ∨ nameMax ≤ qs.length) :
    searchByIndex fsi b cmd = ([], 0) := by
  have herror : ∃ code, getShortQuery cmd = .error code := by
    rw [getShortQuery]
    split
    · exact ⟨_, rfl⟩
    simp only
    split
    · exact ⟨_, rfl⟩
    rename_i hne
    have hpos : qs.length ≠ 0 := fun hzero => by
      obtain rfl := List.eq_nil_of_length_eq_zero hzero
      exact hne (by rw [Utf8.decode_eq_some_iff.mp hdec]; rfl)
    have hroom : ¬ 4 * qs.length ≤ 4 * nameMax - 4 := by
      simp only [nameMax] at hlen ⊢
      omega
    rw [utf8ToWcharT, hdec, Option.filter_some_neg (by simpa using hroom)]
    exact ⟨_, rfl⟩
  obtain ⟨code, hcode⟩ := herror
  rw [searchByIndex, hcode]

/-! ## The loop -/

section

variable {b : FsBuf} {query : Bytes} {truncated : Bool} {p : ℕ → Bool}
  (hp : ∀ off, p off = true ↔ (truncated = true → query <:+: b.strAt off))
include hp

theorem searchByIndexLoop_cons (off : ℕ) (offs : List ℕ) {n : ℕ} (hn : n ≤ maxResults) :
    searchByIndexLoop b query truncated (off :: offs) n =
      if p off then
        ((n, off) :: (searchByIndexLoop b query truncated offs (n + 1)).1,
          (searchByIndexLoop b query truncated offs (n + 1)).2)
      else searchByIndexLoop b query truncated offs n := by
  have hskip : (truncated = true ∧ ¬ query <:+: b.strAt off) ↔ ¬ p off = true := by
    rw [hp]
    exact Classical.not_imp.symm
  rw [searchByIndexLoop, if_pos hn]
  by_cases h : p off = true
  · rw [if_pos h, if_neg (fun hs => hskip.mp hs h)]
  · rw [if_neg h, if_pos (hskip.mpr h)]

/-- The first names that pass are printed, as long as the numbers go. -/
theorem searchByIndexLoop_fst (offs : List ℕ) (n : ℕ) :
    (searchByIndexLoop b query truncated offs n).1 =
      (((offs.filter p).take (maxResults + 1 - n)).zipIdx n).map Prod.swap := by
  induction offs generalizing n with
  | nil => simp [searchByIndexLoop]
  | cons off offs ih =>
    by_cases hn : n ≤ maxResults
    · obtain ⟨k, hk⟩ : ∃ k, maxResults + 1 - n = k + 1 := ⟨maxResults - n, by omega⟩
      rw [searchByIndexLoop_cons hp off offs hn]
      by_cases h : p off = true
      · have hk' : maxResults + 1 - (n + 1) = k := by omega
        rw [if_pos h, ih, hk', hk, List.filter_cons_of_pos h, List.take_succ_cons, List.zipIdx_cons, List.map_cons]
        rfl
      · rw [if_neg h, ih, List.filter_cons_of_neg h]
    · have hk : maxResults + 1 - n = 0 := by omega
      have hk' : maxResults + 1 - (n + 1) = 0 := by omega
      rw [searchByIndexLoop, if_neg hn, ih, hk, hk']
      simp

/-- Every name that passes is counted. -/
theorem le_searchByIndexLoop_snd (offs : List ℕ) (n : ℕ) :
    n + (offs.filter p).length ≤ (searchByIndexLoop b query truncated offs n).2 := by
  induction offs generalizing n with
  | nil => simp [searchByIndexLoop]
  | cons off offs ih =>
    by_cases hn : n ≤ maxResults
    · rw [searchByIndexLoop_cons hp off offs hn]
      by_cases h : p off = true
      · have hle := ih (n + 1)
        rw [if_pos h, List.filter_cons_of_pos h, List.length_cons]
        omega
      · rw [if_neg h, List.filter_cons_of_neg h]
        exact ih n
    · have hle := ih (n + 1)
      have hcons := List.length_filter_le p [off]
      rw [searchByIndexLoop, if_neg hn, ← List.singleton_append, List.filter_append, List.length_append]
      simp only [List.length_singleton] at hcons
      omega

/-- The count is right just when every name behind the last one that is printed passes. -/
theorem searchByIndexLoop_snd_eq_iff (offs : List ℕ) (n : ℕ) :
    (searchByIndexLoop b query truncated offs n).2 = n + (offs.filter p).length ↔
      ∀ front off back, offs = front ++ off :: back → maxResults + 1 - n ≤ (front.filter p).length →
        p off = true := by
  induction offs generalizing n with
  | nil => simp [searchByIndexLoop]
  | cons x offs ih =>
    -- the splits of a list are the one before its head and those of its tail
    have hsplit : ∀ k, (∀ front off back, x :: offs = front ++ off :: back → k ≤ (front.filter p).length →
        p off = true) ↔ (k = 0 → p x = true) ∧ ∀ front off back, offs = front ++ off :: back →
          k ≤ ((x :: front).filter p).length → p off = true := fun k => by
      constructor
      · refine fun h => ⟨fun hk => h [] x offs rfl (by omega), fun front off back heq hle => ?_⟩
        exact h (x :: front) off back (by rw [heq]; rfl) hle
      · rintro ⟨hhead, htail⟩ front off back heq hle
        cases front with
        | nil =>
          obtain ⟨rfl, -⟩ := List.cons.inj heq
          exact hhead (by simpa using hle)
        | cons y front =>
          obtain ⟨rfl, hrest⟩ := List.cons.inj heq
          exact htail front off back hrest hle
    rw [hsplit]
    by_cases hn : n ≤ maxResults
    · rw [searchByIndexLoop_cons hp x offs hn, and_iff_right (fun hk => absurd hk (by omega))]
      by_cases h : p x = true
      · simp only [if_pos h, List.filter_cons_of_pos h, List.length_cons]
        rw [show n + ((offs.filter p).length + 1) = n + 1 + (offs.filter p).length by omega, ih]
        have hk : ∀ front : List ℕ, maxResults + 1 - (n + 1) ≤ (front.filter p).length ↔
            maxResults + 1 - n ≤ (front.filter p).length + 1 := fun front => by omega
        simp only [hk]
      · simp only [if_neg h, List.filter_cons_of_neg h]
        exact ih n
    · have hk : maxResults + 1 - n = 0 := by omega
      have hk' : maxResults + 1 - (n + 1) = 0 := by omega
      have hih := ih (n + 1)
      rw [searchByIndexLoop, if_neg hn, hk]
      rw [hk'] at hih
      simp only [Nat.zero_le, forall_const] at hih ⊢
      by_cases h : p x = true
      · rw [List.filter_cons_of_pos h, List.length_cons, and_iff_right h, ← hih]
        omega
      · have hle := le_searchByIndexLoop_snd hp offs (n + 1)
        rw [List.filter_cons_of_neg h]
        exact iff_of_false (by omega) fun hall => h hall.1

end

/-! ## The names of an image -/

variable {b : FsBuf} {root : Bytes} {t : Tree} {fsi : FsIndex}

theorem FsBuf.strAt_of_mem_indexEntriesLoop {fuel off : ℕ} {e : Bytes × ℕ} (h : e ∈ b.indexEntriesLoop fuel off) :
    b.strAt e.2 = e.1 := by
  induction fuel generalizing off with
  | zero => cases h
  | succ fuel ih =>
    rw [indexEntriesLoop] at h
    split at h
    · rcases List.mem_append.mp h with h | h
      · split at h
        · rw [List.mem_singleton.mp h]
        · cases h
      · exact ih h
    · cases h

theorem FsBuf.mem_namesWith {query : Bytes} {off : ℕ} :
    off ∈ b.namesWith query ↔ ∃ e ∈ b.indexEntries, e.2 = off ∧ query <:+: e.1 := by
  simp only [namesWith, List.mem_map, List.mem_filter, decide_eq_true_eq]
  exact exists_congr fun e => by tauto

theorem Represents.namesWith_sorted (h : Represents b root t) (query : Bytes) :
    (b.namesWith query).Pairwise (· < ·) := by
  have hsorted : (b.indexEntries.map Prod.snd).Pairwise (· < ·) := by
    rw [h.indexEntries_eq, List.map_map]
    refine List.Pairwise.map _ (fun x y hxy => hxy) (h.searchable.chain.sorted.sublist List.filter_sublist)
  exact hsorted.sublist (List.filter_sublist.map _)

/-- The offsets that `search_by_index` goes through. -/
theorem Represents.offsets_eq (h : Represents b root t) (hfsi : fsi.Serves b.indexEntries) {qs : List Char}
    (hpos : 1 ≤ qs.length) (hle : qs.length ≤ maxKwLen) :
    (fsi.getIndexKeyword (Utf8.encode qs)).elim [] IndexKeyword.fsbufOffsets = b.namesWith (Utf8.encode qs) := by
  obtain ⟨ami, hami, hsame⟩ := hfsi
  obtain ⟨hnone, hsome⟩ := hami _ qs (Utf8.decode_encode qs) hpos hle
  have hanswer := hsame (Utf8.encode qs)
  cases hget : ami.getIndexKeywordAllmem (Utf8.encode qs) with
  | none =>
    rw [hget, Option.map_none, Option.map_eq_none_iff] at hanswer
    rw [hanswer]
    refine (List.eq_nil_iff_forall_not_mem.mpr fun off hoff => ?_).symm
    obtain ⟨e, he, -, hfound⟩ := FsBuf.mem_namesWith.mp hoff
    exact hnone.mp hget e he hfound
  | some inkw =>
    rw [hget, Option.map_some, Option.map_eq_some_iff] at hanswer
    obtain ⟨inkw', hget', heq⟩ := hanswer
    have hoffs : inkw'.fsbufOffsets = inkw.fsbufOffsets := (Prod.mk.inj heq).2
    rw [hget', Option.elim_some, hoffs]
    obtain ⟨hsorted, hmem⟩ := hsome inkw hget
    exact hsorted.eq_of_mem_iff (h.namesWith_sorted _) fun off => (hmem off).trans FsBuf.mem_namesWith.symm

/-- A split of increasing offsets is before and behind. -/
theorem countP_lt_of_split {p : ℕ → Bool} {front back : List ℕ} {off : ℕ}
    (h : (front ++ off :: back).Pairwise (· < ·)) :
    ((front ++ off :: back).filter p).countP (· < off) = (front.filter p).length := by
  obtain ⟨-, hback, hbefore⟩ := List.pairwise_append.mp h
  rw [List.filter_append, List.countP_append, List.countP_eq_length.mpr, List.countP_eq_zero.mpr, Nat.add_zero]
  · intro x hx
    rcases List.mem_cons.mp (List.mem_of_mem_filter hx) with rfl | hx
    · simp
    · have hlt := (List.pairwise_cons.mp hback).1 x hx
      simp only [decide_eq_true_eq]
      omega
  · intro x hx
    exact decide_eq_true (hbefore x (List.mem_of_mem_filter hx) off List.mem_cons_self)

/-- The names with the beginning of a query that pass are those with all of it. -/
theorem Represents.filter_namesWith (h : Represents b root t) {query shortQuery : Bytes} {p : ℕ → Bool}
    (hbegins : shortQuery <+: query)
    (hp : ∀ off, p off = true ↔ (decide (shortQuery.length < query.length) = true → query <:+: b.strAt off)) :
    (b.namesWith shortQuery).filter p = b.namesWith query := by
  have hsorted := (h.namesWith_sorted shortQuery).sublist (List.filter_sublist (p := p))
  refine hsorted.eq_of_mem_iff (h.namesWith_sorted query) fun off => ?_
  simp only [List.mem_filter, FsBuf.mem_namesWith, hp]
  constructor
  · rintro ⟨⟨e, he, rfl, hshort⟩, hpass⟩
    refine ⟨e, he, rfl, ?_⟩
    rw [FsBuf.strAt_of_mem_indexEntriesLoop he] at hpass
    by_cases htruncated : shortQuery.length < query.length
    · exact hpass (decide_eq_true htruncated)
    · rwa [← hbegins.eq_of_length_le (Nat.le_of_not_lt htruncated)]
  · rintro ⟨e, he, rfl, hfound⟩
    refine ⟨⟨e, he, rfl, hbegins.isInfix.trans hfound⟩, fun _ => ?_⟩
    rwa [FsBuf.strAt_of_mem_indexEntriesLoop he]

/-- Nothing is found for a text without characters or with too many. For a query the first names that contain it are
printed, and the number of all of them is returned just when each name behind those that contains the beginning of
the query contains all of it. -/
theorem searchByIndex_right_iff (h : Represents b root t) (hfsi : fsi.Serves b.indexEntries) (cmd : Bytes) :
    (∀ qs, Utf8.decode (chomp cmd) = some qs → qs.length = 0 ∨ nameMax ≤ qs.length →
      searchByIndex fsi b cmd = ([], 0)) ∧
    ∀ qs, IsQuery cmd qs →
      (searchByIndex fsi b cmd).1 =
        (((b.namesWith (Utf8.encode qs)).take maxResults).zipIdx 1).map Prod.swap ∧
      ((searchByIndex fsi b cmd).2 = (b.namesWith (Utf8.encode qs)).length ↔
        ∀ off ∈ b.namesWith (Utf8.encode (qs.take maxKwLen)),
          maxResults ≤ (b.namesWith (Utf8.encode qs)).countP (· < off) →
            off ∈ b.namesWith (Utf8.encode qs)) := by
  refine ⟨fun _ => searchByIndex_of_length, fun qs hq => ?_⟩
  have hbegins : Utf8.encode (qs.take maxKwLen) <+: Utf8.encode qs :=
    Utf8.prefix_encode_iff.mpr (List.take_prefix _ _)
  have hoffs := h.offsets_eq hfsi
    (show 1 ≤ (qs.take maxKwLen).length by rw [List.length_take]; exact le_min (by decide) hq.2.1)
    (List.length_take_le _ _)
  rw [searchByIndex, getShortQuery_eq hq]
  simp only [hoffs]
  generalize hquery : Utf8.encode qs = query at hbegins ⊢
  generalize hshort : Utf8.encode (qs.take maxKwLen) = shortQuery at hbegins ⊢
  obtain ⟨p, hp⟩ : ∃ p : ℕ → Bool, ∀ off, p off = true ↔
      (decide (shortQuery.length < query.length) = true → query <:+: b.strAt off) :=
    ⟨fun off => decide (decide (shortQuery.length < query.length) = true → query <:+: b.strAt off), fun off =>
      decide_eq_true_iff⟩
  have hfilter := h.filter_namesWith hbegins hp
  have hmem : ∀ off, off ∈ b.namesWith query ↔ off ∈ b.namesWith shortQuery ∧ p off = true := fun off => by
    rw [← hfilter, List.mem_filter]
  have hsorted := h.namesWith_sorted shortQuery
  refine ⟨?_, ?_⟩
  · rw [searchByIndexLoop_fst hp, hfilter, Nat.add_sub_cancel]
  have hcount := searchByIndexLoop_snd_eq_iff hp (b.namesWith shortQuery) 1
  have hle := le_searchByIndexLoop_snd hp (b.namesWith shortQuery) 1
  rw [hfilter] at hcount hle
  have htotal : ∀ total : ℕ, 1 + (b.namesWith query).length ≤ total →
      (total - 1 = (b.namesWith query).length ↔ total = 1 + (b.namesWith query).length) := fun total hle => by omega
  rw [htotal _ hle, hcount, Nat.add_sub_cancel]
  constructor
  · intro hbehind off hoff hlate
    obtain ⟨front, back, hsplit⟩ := List.append_of_mem hoff
    rw [← hfilter, hsplit, countP_lt_of_split (hsplit ▸ hsorted)] at hlate
    exact (hmem off).mpr ⟨hoff, hbehind front off back hsplit hlate⟩
  · intro hall front off back hsplit hlate
    have hoff : off ∈ b.namesWith shortQuery := by
      rw [hsplit]
      simp
    rw [← countP_lt_of_split (hsplit ▸ hsorted), ← hsplit, hfilter] at hlate
    exact ((hmem off).mp (hall off hoff hlate)).2

/-- The index of a file `a`. -/
theorem answersQueries_letter : AnswersQueries (fillIndex 1 [([97], 10)]) [([97], 10)] := by
  intro query qs hq hpos _
  have hlen : 1 ≤ query.length := by
    rw [Utf8.decode_eq_some_iff.mp hq]
    exact hpos.trans (Utf8.length_le_encode qs)
  have hinfix : query <:+: [97] ↔ [97] = query := by
    refine ⟨fun hfound => (hfound.eq_of_length ?_).symm, fun heq => heq ▸ List.infix_rfl⟩
    exact Nat.le_antisymm hfound.length_le hlen
  have hbucket : (fillIndex 1 [([97], 10)]).bucket query = 97 % 1 := by
    rw [AllmemIndex.bucket, count_fillIndex, Nat.mod_one]
  have hkeywords : ((fillIndex 1 [([97], 10)]).indice ((fillIndex 1 [([97], 10)]).bucket query)).keywords =
      [⟨.shortStr [97], [10], 3⟩] := by rw [hbucket, indice_letter]
  constructor
  · rw [AllmemIndex.getIndexKeywordAllmem_eq_none_iff, hkeywords]
    simp only [List.mem_singleton, forall_eq, hinfix]
    rfl
  · intro inkw hget
    obtain ⟨hmem, hstr⟩ := AllmemIndex.getIndexKeywordAllmem_eq_some hget
    rw [hkeywords, List.mem_singleton] at hmem
    subst hmem
    have hfound : query <:+: [97] := hinfix.mpr hstr
    refine ⟨List.pairwise_singleton _ _, fun off => ?_⟩
    simp [hfound, eq_comm]

/-- The command `a` with its newline. -/
theorem searchByIndex_right_iff_sample :
    searchByIndex (.allmem (fillIndex 1 [([97], 10)])) (sampleNameBuf [97]) [97, 10] = ([(1, 10)], 1) := by
  have hname : NameOk [97] := by decide
  have hentries := indexEntries_sampleNameBuf hname (by simp)
  have hserves : FsIndex.Serves (.allmem (fillIndex 1 [([97], 10)])) (sampleNameBuf [97]).indexEntries :=
    ⟨fillIndex 1 [([97], 10)], by rw [hentries]; exact answersQueries_letter, fun _ => rfl⟩
  have hquery : IsQuery [97, 10] ['a'] :=
    ⟨Utf8.decode_eq_some_iff.mpr (by decide), by decide, by decide⟩
  have hnames : (sampleNameBuf [97]).namesWith (Utf8.encode ['a']) = [10] := by
    rw [FsBuf.namesWith, hentries]
    decide
  obtain ⟨hlines, hcount⟩ :=
    (searchByIndex_right_iff (represents_sampleNameBuf hname (by simp)) hserves [97, 10]).2 ['a'] hquery
  rw [hnames] at hlines hcount
  exact Prod.ext hlines (hcount.mpr fun off hoff _ => by rwa [← hnames])

end DeepinAnything
