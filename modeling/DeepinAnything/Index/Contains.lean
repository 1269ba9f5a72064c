import DeepinAnything.FsBuf.SearchFiles
import DeepinAnything.Index.Fill

/-!
# The index of the names of a buffer

An index that has been filled with the names of a buffer answers a query with the entries whose name
contains it. `add_index` has room for 254 wide characters, one less than a name may have, so a name of
255 one-byte characters is left out; and a bucket can have less than `2 ^ 28` keywords. The offsets of
one keyword do not come to that number in a buffer of `2 ^ 30` bytes.
-/

namespace DeepinAnything

open ByteMem OrderedForest OrderedForest.Forest

/-- The keywords that `add_index` gets from a name. -/
def keywordsOf (name : Bytes) : List Bytes :=
  match utf8ToWcharT name (4 * nameMax - 4) with
  | none => []
  | some converted =>
    (kwBounds converted.length).filterMap fun (i, j) =>
      wcharTToUtf8 ((converted.drop i).take (j - i)) (nameMax - 1)

/-- The calls of `add_index_allmem` for the names `entries`. -/
def indexCalls (entries : List (Bytes × ℕ)) : List (Bytes × ℕ) :=
  entries.flatMap fun e => (keywordsOf e.1).map fun s => (s, e.2)

/-- A new index after `add_index` for each of the names. -/
def fillIndex (count : ℕ) (entries : List (Bytes × ℕ)) : AllmemIndex :=
  entries.foldl (fun fsi e => addIndex fsi e.1 e.2) (newAllmemIndex count)

/-- The loop in which `main.c` goes through the names of a buffer for the index. -/
def FsBuf.indexEntriesLoop (b : FsBuf) : ℕ → ℕ → List (Bytes × ℕ)
  | 0, _ => []
  | fuel + 1, nameOff =>
    if nameOff < b.tail then
      (if b.strlen nameOff > 0 then [(b.strAt nameOff, nameOff)] else []) ++
        indexEntriesLoop b fuel (b.nextName nameOff)
    else []

/-- The names of a buffer with their offsets. -/
def FsBuf.indexEntries (b : FsBuf) : List (Bytes × ℕ) := b.indexEntriesLoop b.tail b.firstNameOff

/-- The index gives for each query of up to `MAX_KW_LEN` characters the offsets of the names that contain
it, in increasing order, and nothing when there is none. -/
def AnswersQueries (ami : AllmemIndex) (entries : List (Bytes × ℕ)) : Prop :=
  ∀ query qs, Utf8.decode query = some qs → 1 ≤ qs.length → qs.length ≤ maxKwLen →
    (ami.getIndexKeywordAllmem query = none ↔ ∀ e ∈ entries, ¬ query <:+: e.1) ∧
    ∀ inkw, ami.getIndexKeywordAllmem query = some inkw →
      inkw.fsbufOffsets.Pairwise (· < ·) ∧
      ∀ off, off ∈ inkw.fsbufOffsets ↔ ∃ e ∈ entries, e.2 = off ∧ query <:+: e.1

/-- A query that one of the names contains. -/
def IsKeyword (entries : List (Bytes × ℕ)) (s : Bytes) : Prop :=
  ∃ e ∈ entries, s <:+: e.1 ∧ ∃ qs, Utf8.decode s = some qs ∧ 1 ≤ qs.length ∧ qs.length ≤ maxKwLen

/-- Every name has less than 255 characters, and less than `2 ^ 28` keywords go to one bucket. -/
structure Indexable (count : ℕ) (entries : List (Bytes × ℕ)) : Prop where
  chars : ∀ e ∈ entries, ∀ cs, Utf8.decode e.1 = some cs → cs.length < nameMax
  keywords : ∀ (i : ℕ) (keys : Finset Bytes),
    (∀ s ∈ keys, IsKeyword entries s ∧ (hash s).toNat % count = i) → keys.card < 2 ^ 28

/-! ## The keywords of a name -/

theorem mem_kwBounds {len i j : ℕ} : (i, j) ∈ kwBounds len ↔ i < j ∧ j ≤ len ∧ j ≤ i + maxKwLen := by
  simp only [kwBounds, List.mem_flatMap, List.mem_range, List.mem_map, List.mem_range'_1, Prod.mk.injEq]
  constructor
  · rintro ⟨i', hi, j', hj, rfl, rfl⟩
    omega
  · rintro ⟨h₁, h₂, h₃⟩
    exact ⟨i, by omega, j, by omega, rfl, rfl⟩

/-- A part of a text is a text between two bounds. -/
theorem infix_iff_bounds {α : Type} {xs ys : List α} (hxs : xs ≠ []) :
    xs <:+: ys ↔ ∃ i j, i < j ∧ j ≤ ys.length ∧ j - i = xs.length ∧ (ys.drop i).take (j - i) = xs := by
  constructor
  · rintro ⟨l, r, rfl⟩
    have := List.length_pos_of_ne_nil hxs
    refine ⟨l.length, l.length + xs.length, by omega, by simp, by omega, ?_⟩
    rw [List.append_assoc, List.drop_left, Nat.add_sub_cancel_left, List.take_left]
  · rintro ⟨i, j, -, -, -, rfl⟩
    exact (List.take_prefix _ _).isInfix.trans (List.drop_suffix _ _).isInfix

/-- A name with room for its characters gives its parts of up to `MAX_KW_LEN` characters. -/
theorem mem_keywordsOf {name s : Bytes} :
    s ∈ keywordsOf name ↔ ∃ cs, Utf8.decode name = some cs ∧ cs.length < nameMax ∧
      ∃ qs, 1 ≤ qs.length ∧ qs.length ≤ maxKwLen ∧ qs <:+: cs ∧ s = Utf8.encode qs := by
  have hmax : nameMax = 255 := rfl
  have hkw : maxKwLen = 8 := rfl
  rw [keywordsOf]
  cases hdec : Utf8.decode name with
  | none => simp [utf8ToWcharT, hdec]
  | some cs =>
    simp only [utf8ToWcharT, hdec, Option.some.injEq, exists_eq_left']
    by_cases hfit : 4 * cs.length ≤ 4 * nameMax - 4
    swap
    · rw [Option.filter_some_neg (by simpa using hfit)]
      simp only [List.not_mem_nil, false_iff]
      omega
    rw [Option.filter_some_pos (by simpa using hfit)]
    simp only [List.mem_filterMap, Prod.exists, mem_kwBounds]
    constructor
    · rintro ⟨i, j, ⟨hij, hlen, hmaxKw⟩, hs⟩
      rw [wcharTToUtf8] at hs
      split at hs
      · refine ⟨by omega, (cs.drop i).take (j - i), ?_, ?_, ?_, (Option.some.inj hs).symm⟩
        · rw [List.length_take, List.length_drop]; omega
        · rw [List.length_take]; omega
        · exact (List.take_prefix _ _).isInfix.trans (List.drop_suffix _ _).isInfix
      · simp at hs
    · rintro ⟨-, qs, hpos, hle, hfound, rfl⟩
      obtain ⟨i, j, hij, hj, hlen, rfl⟩ := (infix_iff_bounds (List.ne_nil_of_length_pos hpos)).mp hfound
      refine ⟨i, j, ⟨hij, hj, by omega⟩, ?_⟩
      have := Utf8.length_encode_le ((cs.drop i).take (j - i))
      rw [wcharTToUtf8, if_pos (by omega)]

theorem addIndex_eq (fsi : AllmemIndex) (name : Bytes) (off : ℕ) :
    addIndex fsi name off = fsi.addAll ((keywordsOf name).map fun s => (s, off)) := by
  rw [addIndex, keywordsOf, AllmemIndex.addAll, List.foldl_map]
  cases utf8ToWcharT name (4 * nameMax - 4) with
  | none => rfl
  | some converted =>
    simp only [List.foldl_filterMap]
    congr 1
    funext fsi ⟨i, j⟩
    simp only
    cases wcharTToUtf8 ((converted.drop i).take (j - i)) (nameMax - 1) <;> rfl

theorem fillIndex_eq (count : ℕ) (entries : List (Bytes × ℕ)) :
    fillIndex count entries = (newAllmemIndex count).addAll (indexCalls entries) := by
  rw [fillIndex, AllmemIndex.addAll, indexCalls, List.foldl_flatMap]
  congr 1
  funext fsi e
  exact addIndex_eq fsi e.1 e.2

theorem mem_indexCalls {entries : List (Bytes × ℕ)} {s : Bytes} {o : ℕ} :
    (s, o) ∈ indexCalls entries ↔ ∃ e ∈ entries, s ∈ keywordsOf e.1 ∧ e.2 = o := by
  simp [indexCalls]

/-- A query that is not too long is added for every name with room that contains it. -/
theorem mem_keywordsOf_iff_occurs {query name : Bytes} {qs cs : List Char} (hq : Utf8.decode query = some qs)
    (hpos : 1 ≤ qs.length) (hle : qs.length ≤ maxKwLen) (hname : Utf8.decode name = some cs)
    (hlen : cs.length < nameMax) : query ∈ keywordsOf name ↔ query <:+: name := by
  obtain rfl := Utf8.decode_eq_some_iff.mp hq
  obtain rfl := Utf8.decode_eq_some_iff.mp hname
  rw [mem_keywordsOf, Utf8.infix_encode_iff]
  constructor
  · rintro ⟨cs', hcs', -, qs', -, -, hfound, heq⟩
    rw [hname] at hcs'
    rwa [Option.some.inj hcs', Utf8.encode_injective heq]
  · exact fun hfound => ⟨cs, hname, hlen, qs, hpos, hle, hfound, rfl⟩

theorem infix_of_mem_keywordsOf {query name : Bytes} (h : query ∈ keywordsOf name) :
    query <:+: name ∧ ∃ qs, Utf8.decode query = some qs ∧ 1 ≤ qs.length ∧ qs.length ≤ maxKwLen := by
  obtain ⟨cs, hname, -, qs, hpos, hle, hfound, rfl⟩ := mem_keywordsOf.mp h
  refine ⟨?_, qs, Utf8.decode_encode qs, hpos, hle⟩
  rw [Utf8.decode_eq_some_iff.mp hname]
  exact Utf8.infix_encode_iff.mpr hfound

/-! ## The answers -/

/-- With all that was added, the index answers every query. -/
theorem answersQueries_of_complete {ami : AllmemIndex} {entries : List (Bytes × ℕ)}
    (hvalid : ∀ e ∈ entries, ∃ cs, Utf8.decode e.1 = some cs)
    (hchars : ∀ e ∈ entries, ∀ cs, Utf8.decode e.1 = some cs → cs.length < nameMax)
    (hs : ami.Sound (indexCalls entries)) (hc : ami.Complete (indexCalls entries)) :
    AnswersQueries ami entries := by
  intro query qs hq hpos hle
  have hadded : ∀ o, (query, o) ∈ indexCalls entries ↔ ∃ e ∈ entries, e.2 = o ∧ query <:+: e.1 := fun o => by
    rw [mem_indexCalls]
    refine exists_congr fun e => and_congr_right fun he => ?_
    obtain ⟨cs, hcs⟩ := hvalid e he
    rw [mem_keywordsOf_iff_occurs hq hpos hle hcs (hchars e he cs hcs), and_comm]
  constructor
  · rw [AllmemIndex.getIndexKeywordAllmem_eq_none_iff]
    constructor
    · intro hnone e he hfound
      obtain ⟨inkw, hmem, hstr, -⟩ := hc query e.2 ((hadded _).mpr ⟨e, he, rfl, hfound⟩)
      exact hnone inkw hmem hstr
    · intro hnone inkw hmem hstr
      obtain ⟨o, ho⟩ := ((hs _).keyword inkw hmem).known
      rw [hstr, hadded] at ho
      obtain ⟨e, he, -, hfound⟩ := ho
      exact hnone e he hfound
  · intro inkw hget
    obtain ⟨hmem, hstr⟩ := AllmemIndex.getIndexKeywordAllmem_eq_some hget
    have hsound := (hs _).keyword inkw hmem
    refine ⟨hsound.sorted, fun off => ?_⟩
    rw [← hadded]
    constructor
    · intro hoff
      rw [← hstr]
      exact hsound.added off hoff
    · intro hoff
      obtain ⟨inkw', hmem', hstr', hoff'⟩ := hc query off hoff
      rwa [List.inj_on_of_nodup_map (hs _).nodup hmem hmem' (hstr.trans hstr'.symm)]

/-- An index that answers every query has all that was added. -/
theorem complete_of_answersQueries {ami : AllmemIndex} {entries : List (Bytes × ℕ)}
    (h : AnswersQueries ami entries) : ami.Complete (indexCalls entries) := by
  intro s o hmem
  obtain ⟨e, he, hs, rfl⟩ := mem_indexCalls.mp hmem
  obtain ⟨hfound, qs, hq, hpos, hle⟩ := infix_of_mem_keywordsOf hs
  obtain ⟨hnone, hsome⟩ := h s qs hq hpos hle
  cases hget : ami.getIndexKeywordAllmem s with
  | none => exact absurd hfound (hnone.mp hget e he)
  | some inkw =>
    obtain ⟨hbucket, hstr⟩ := AllmemIndex.getIndexKeywordAllmem_eq_some hget
    exact ⟨inkw, hbucket, hstr, ((hsome inkw hget).2 e.2).mpr ⟨e, he, rfl, hfound⟩⟩

/-- A name with too many characters is not found by its first one. -/
theorem chars_of_answersQueries {ami : AllmemIndex} {entries : List (Bytes × ℕ)}
    (hoffs : (entries.map Prod.snd).Nodup) (hs : ami.Sound (indexCalls entries))
    (h : AnswersQueries ami entries) {e : Bytes × ℕ} (he : e ∈ entries) {cs : List Char}
    (hcs : Utf8.decode e.1 = some cs) : cs.length < nameMax := by
  cases cs with
  | nil => simp [nameMax]
  | cons c cs =>
    have hfound : Utf8.encode [c] <:+: e.1 := by
      rw [Utf8.decode_eq_some_iff.mp hcs]
      exact Utf8.infix_encode_iff.mpr (List.prefix_append [c] cs).isInfix
    obtain ⟨hnone, hsome⟩ := h (Utf8.encode [c]) [c] (Utf8.decode_encode _) le_rfl (by simp [maxKwLen])
    cases hget : ami.getIndexKeywordAllmem (Utf8.encode [c]) with
    | none => exact absurd hfound (hnone.mp hget e he)
    | some inkw =>
      obtain ⟨hbucket, -⟩ := AllmemIndex.getIndexKeywordAllmem_eq_some hget
      have hoff := ((hsome inkw hget).2 e.2).mpr ⟨e, he, rfl, hfound⟩
      -- the offset was added for a name with room, and it is the offset of this name only
      obtain ⟨e', he', hmem, heq⟩ := mem_indexCalls.mp (((hs _).keyword inkw hbucket).added _ hoff)
      obtain rfl := List.inj_on_of_nodup_map hoffs he' he heq
      obtain ⟨cs', hcs', hlen, -⟩ := mem_keywordsOf.mp hmem
      rw [hcs] at hcs'
      rwa [Option.some.inj hcs']

/-- The keywords that go to a bucket are those that are added there. -/
theorem keysIn_card_iff {count : ℕ} {entries : List (Bytes × ℕ)}
    (hvalid : ∀ e ∈ entries, ∃ cs, Utf8.decode e.1 = some cs)
    (hchars : ∀ e ∈ entries, ∀ cs, Utf8.decode e.1 = some cs → cs.length < nameMax) (i : ℕ) :
    (keysIn count (indexCalls entries) i).card < 2 ^ 28 ↔
      ∀ keys : Finset Bytes, (∀ s ∈ keys, IsKeyword entries s ∧ (hash s).toNat % count = i) →
        keys.card < 2 ^ 28 := by
  have hkey : ∀ s, (∃ o, (s, o) ∈ indexCalls entries) ↔ IsKeyword entries s := fun s => by
    simp only [mem_indexCalls]
    constructor
    · rintro ⟨-, e, he, hs, rfl⟩
      exact ⟨e, he, infix_of_mem_keywordsOf hs⟩
    · rintro ⟨e, he, hfound, qs, hq, hpos, hle⟩
      obtain ⟨cs, hcs⟩ := hvalid e he
      exact ⟨e.2, e, he, (mem_keywordsOf_iff_occurs hq hpos hle hcs (hchars e he cs hcs)).mpr hfound, rfl⟩
  constructor
  · intro hcard keys hkeys
    refine (Finset.card_le_card fun s hs => ?_).trans_lt hcard
    obtain ⟨hs, hi⟩ := hkeys s hs
    exact mem_keysIn.mpr ⟨(hkey s).mpr hs, hi⟩
  · intro hall
    refine hall _ fun s hs => ?_
    obtain ⟨hs, hi⟩ := mem_keysIn.mp hs
    exact ⟨(hkey s).mp hs, hi⟩

/-- Names whose offsets under one keyword have room are answered for just when they can be indexed. -/
theorem fillIndex_answers_iff (count : ℕ) {entries : List (Bytes × ℕ)}
    (hvalid : ∀ e ∈ entries, ∃ cs, Utf8.decode e.1 = some cs) (hoffs : (entries.map Prod.snd).Nodup)
    (hroom : ∀ s, (offsetsOf (indexCalls entries) s).card < 2 ^ 28) :
    AnswersQueries (fillIndex count entries) entries ↔ Indexable count entries := by
  have hs : (fillIndex count entries).Sound (indexCalls entries) := by
    rw [fillIndex_eq]
    simpa using (AllmemIndex.sound_new count).addAll (indexCalls entries)
  have hc : (fillIndex count entries).Complete (indexCalls entries) ↔ Room count (indexCalls entries) := by
    rw [fillIndex_eq]
    exact AllmemIndex.complete_iff_room count _
  constructor
  · intro h
    have hchars := fun e he cs => @chars_of_answersQueries _ _ hoffs hs h e he cs
    refine ⟨hchars, fun i => (keysIn_card_iff hvalid hchars i).mp ?_⟩
    exact (hc.mp (complete_of_answersQueries h)).keys i
  · rintro ⟨hchars, hkeys⟩
    refine answersQueries_of_complete hvalid hchars hs (hc.mpr ⟨fun i => ?_, hroom⟩)
    exact (keysIn_card_iff hvalid hchars i).mpr (hkeys i)

/-! ## The names of a buffer -/

section

variable {b : FsBuf} {root : Bytes} {t : Tree}

/-- The loop finds the entries among the items. -/
theorem Chain.indexEntriesLoop_eq {items : List Item} {off : ℕ} (h : Chain b off items b.tail) {fuel : ℕ}
    (hfuel : b.tail ≤ off + fuel) :
    b.indexEntriesLoop fuel off =
      (items.filter fun x => x.name ≠ []).map fun x => (x.name, x.off) := by
  induction items generalizing off fuel with
  | nil =>
    obtain rfl : off = b.tail := h
    cases fuel with
    | zero => rfl
    | succ fuel => rw [FsBuf.indexEntriesLoop, if_neg (lt_irrefl _)]; rfl
  | cons x xs ih =>
    have hoff : x.off = off := h.1
    have hstr : b.strAt off = x.name := h.2.1
    have hlt : off < b.nextName off := h.2.2.2.1
    have hxs : Chain b (b.nextName off) xs b.tail := h.2.2.2.2
    have htail := (h.range (List.mem_cons_self (a := x))).2
    obtain ⟨fuel, rfl⟩ : ∃ n, fuel = n + 1 := ⟨fuel - 1, by omega⟩
    rw [FsBuf.indexEntriesLoop, if_pos (by omega), ih hxs (by omega), FsBuf.strlen, hstr]
    by_cases hname : x.name = []
    · simp [hname]
    · rw [if_pos (List.length_pos_of_ne_nil hname), List.filter_cons_of_pos (by simpa using hname),
        List.map_cons, hoff, List.singleton_append]

theorem Represents.indexEntries_eq (h : Represents b root t) :
    b.indexEntries =
      ((treeItems b.firstNameOff [] t).filter fun x => x.name ≠ []).map fun x => (x.name, x.off) :=
  h.searchable.chain.indexEntriesLoop_eq (by omega)

theorem Represents.nodup_indexEntries (h : Represents b root t) : (b.indexEntries.map Prod.snd).Nodup := by
  rw [h.indexEntries_eq, List.map_map]
  refine List.Pairwise.map _ (fun x y hxy => ?_) (h.searchable.chain.sorted.sublist List.filter_sublist)
  exact Nat.ne_of_lt hxy

/-- The names of an image that contain a text. -/
def holders (s : Bytes) (items : List Item) : ℕ := items.countP fun x => s <:+: x.name

@[simp] theorem holders_append (s : Bytes) (xs ys : List Item) :
    holders s (xs ++ ys) = holders s xs + holders s ys :=
  List.countP_append

@[simp] theorem holders_cons (s : Bytes) (x : Item) (xs : List Item) :
    holders s (x :: xs) = holders s xs + if s <:+: x.name then 1 else 0 := by
  simp [holders, List.countP_cons]

theorem holders_treeItems {s : Bytes} (hs : s ≠ []) (off : ℕ) (p : List Bytes) {k : Tree} (hk : k ≠ .nil) :
    holders s (treeItems off p k) =
      holders s (runItems off (off + runSize k) p k) + holders s (belowItems (off + runSize k) p k) := by
  have hname : (tagItem off p k).name = [] := Item.name_mk _ _ _ _
  rw [treeItems, if_neg hk, holders_append, holders_cons, hname, if_neg (by simpa using hs), Nat.add_zero]

/-- An entry takes four bytes when its name contains the text and is not the text itself, and of those
that are there is one among siblings. -/
theorem holders_le {s : Bytes} (hs : s ≠ []) (t : Tree) (hv : t.Valid NameOk) (off below below' : ℕ)
    (p p' : List Bytes) :
    4 * (holders s (runItems off below p t) + holders s (belowItems below' p' t)) ≤
      entriesSize t + belowSize t + if s ∈ t.names then 1 else 0 := by
  have hlen : ∀ {n : Bytes}, s <:+: n → 1 ≤ n.length ∧ (n ≠ s → 2 ≤ n.length) := fun {n} hfound => by
    have hle := hfound.length_le
    have := List.length_pos_of_ne_nil hs
    refine ⟨by omega, fun hne => ?_⟩
    have : s.length ≠ n.length := fun heq => hne (hfound.eq_of_length heq).symm
    omega
  -- what one entry adds to the three sides
  have hentry : ∀ {n : Bytes} {r : Tree}, n ∉ r.names →
      4 * (if s <:+: n then 1 else 0) + (if s ∈ r.names then 1 else 0) ≤
        n.length + 2 + if s ∈ n :: r.names then 1 else 0 := fun {n r} hn => by
    by_cases hfound : s <:+: n
    · have := hlen hfound
      by_cases heq : n = s
      · subst heq
        simp only [hfound, hn, if_true, if_false, List.mem_cons, true_or]
        omega
      · have := this.2 heq
        have hmem : s ∈ n :: r.names ↔ s ∈ r.names := by simp [Ne.symm heq]
        simp only [hfound, if_true, hmem]
        omega
    · have hmem : s ∈ r.names → s ∈ n :: r.names := List.mem_cons_of_mem _
      split <;> split <;> simp_all
  induction t generalizing off below below' p p' with
  | nil => simp [runItems, belowItems, holders]
  | leaf n r ih =>
    have := ih hv.2.2 (off + n.length + 2) below below' p p'
    have := hentry hv.2.1
    rw [names_leaf]
    simp only [runItems, belowItems, holders_cons, Item.name_mk, entriesSize_leaf, belowSize_leaf]
    omega
  | node n k r ihk ih =>
    have := ih hv.2.2.2 (off + n.length + 5) (below + treeSize k) (below' + treeSize k) p p'
    have := hentry hv.2.1
    have hkids : 4 * holders s (treeItems below' (p' ++ [n]) k) ≤ treeSize k := by
      by_cases hk : k = .nil
      · simp [treeItems, hk, holders]
      · have := ihk hv.2.2.1 below' (below' + runSize k) (below' + runSize k) (p' ++ [n]) (p' ++ [n])
        rw [holders_treeItems hs _ _ hk, treeSize_of_ne_nil hk]
        split at this <;> omega
    rw [names_node]
    simp only [runItems, belowItems_node, holders_cons, holders_append, Item.name_mk, entriesSize_node,
      belowSize_node]
    omega

/-- Less than `2 ^ 28` names of a buffer contain a text. -/
theorem Represents.holders_lt (h : Represents b root t) {s : Bytes} (hs : s ≠ []) :
    holders s (treeItems b.firstNameOff [] t) < 2 ^ 28 := by
  have htail := h.tail_eq
  have hfirst := h.first_eq
  have hcap := h.sized.tail_le_max
  by_cases ht : t = .nil
  · simp [treeItems, ht, holders]
  · have := holders_le hs t h.valid b.firstNameOff (b.firstNameOff + runSize t) (b.firstNameOff + runSize t) [] []
    rw [holders_treeItems hs _ _ ht]
    rw [treeSize_of_ne_nil ht] at htail
    split at this <;> omega

theorem Represents.offsetsOf_lt (h : Represents b root t) {entries : List (Bytes × ℕ)}
    (hperm : entries.Perm b.indexEntries) (s : Bytes) :
    (offsetsOf (indexCalls entries) s).card < 2 ^ 28 := by
  by_cases hs : s = []
  · have : offsetsOf (indexCalls entries) s = ∅ := Finset.eq_empty_of_forall_notMem fun o ho => by
      obtain ⟨e, -, hmem, -⟩ := mem_indexCalls.mp (mem_offsetsOf.mp ho)
      obtain ⟨-, qs, hq, hpos, -⟩ := infix_of_mem_keywordsOf hmem
      rw [hs] at hq
      rw [Utf8.encode_eq_nil_iff.mp (Utf8.decode_eq_some_iff.mp hq).symm] at hpos
      simp at hpos
    simp [this]
  · refine Nat.lt_of_le_of_lt ?_ (h.holders_lt hs)
    rw [holders, List.countP_eq_length_filter, ← List.length_map (f := Item.off)]
    refine (Finset.card_le_card fun o ho => ?_).trans (List.toFinset_card_le _)
    obtain ⟨e, he, hmem, rfl⟩ := mem_indexCalls.mp (mem_offsetsOf.mp ho)
    rw [hperm.mem_iff, h.indexEntries_eq] at he
    obtain ⟨x, hx, rfl⟩ := List.mem_map.mp he
    rw [List.mem_toFinset]
    exact List.mem_map.mpr ⟨x, List.mem_filter.mpr ⟨(List.mem_filter.mp hx).1,
      decide_eq_true (infix_of_mem_keywordsOf hmem).1⟩, rfl⟩

theorem AnswersQueries.congr {ami : AllmemIndex} {entries entries' : List (Bytes × ℕ)}
    (h : AnswersQueries ami entries) (hmem : ∀ e, e ∈ entries ↔ e ∈ entries') :
    AnswersQueries ami entries' := by
  simpa only [AnswersQueries, hmem] using h

theorem Indexable.congr {count : ℕ} {entries entries' : List (Bytes × ℕ)} (h : Indexable count entries)
    (hmem : ∀ e, e ∈ entries ↔ e ∈ entries') : Indexable count entries' :=
  ⟨fun e he => h.chars e ((hmem e).mpr he), by simpa only [IsKeyword, hmem] using h.keywords⟩

/-- An index that `add_index` has filled with the names of a buffer, in any order, answers the queries
just when every name has less than 255 characters and no bucket comes to `2 ^ 28` keywords. -/
theorem Represents.fillIndex_answersQueries_iff (h : Represents b root t)
    (hutf8 : ∀ e ∈ b.indexEntries, (∃ cs, Utf8.decode e.1 = some cs) ∧ e.1.length ≤ nameMax)
    {entries : List (Bytes × ℕ)} (hperm : entries.Perm b.indexEntries) (count : ℕ) :
    AnswersQueries (fillIndex count entries) b.indexEntries ↔ Indexable count b.indexEntries := by
  have hmem : ∀ e, e ∈ entries ↔ e ∈ b.indexEntries := fun e => hperm.mem_iff
  have hoffs : (entries.map Prod.snd).Nodup := (hperm.map Prod.snd).nodup_iff.mpr h.nodup_indexEntries
  have hiff := fillIndex_answers_iff count (fun e he => (hutf8 e ((hmem e).mp he)).1) hoffs
    (h.offsetsOf_lt hperm)
  constructor
  · intro hans
    exact (hiff.mp (hans.congr fun e => (hmem e).symm)).congr hmem
  · intro hind
    exact (hiff.mpr (hind.congr fun e => (hmem e).symm)).congr hmem

/-- The image of one file. -/
def sampleNameBuf (name : Bytes) : FsBuf := imageBuf [47] (.leaf name .nil) 4096

theorem represents_sampleNameBuf {name : Bytes} (hname : NameOk name) (hlen : name.length ≤ 255) :
    Represents (sampleNameBuf name) [47] (.leaf name .nil) :=
  represents_imageBuf _ _ 4096 ⟨rfl, rfl, by decide⟩ ⟨hname, by simp, trivial⟩
    (by simp [dataStart, treeSize, runSize]; omega) (by decide)

theorem indexEntries_sampleNameBuf {name : Bytes} (hname : NameOk name) (hlen : name.length ≤ 255) :
    (sampleNameBuf name).indexEntries = [(name, 10)] := by
  rw [(represents_sampleNameBuf hname hlen).indexEntries_eq]
  have hne := hname.1
  simp [treeItems, runItems, belowItems, tagItem, sampleNameBuf, imageBuf, dataStart, Item.name, hne]

/-- A name of 255 letters is not found by its letter. -/
theorem not_fillIndex_answersQueries :
    Represents (sampleNameBuf (List.replicate 255 97)) [47] (.leaf (List.replicate 255 97) .nil) ∧
    (∀ e ∈ (sampleNameBuf (List.replicate 255 97)).indexEntries,
      (∃ cs, Utf8.decode e.1 = some cs) ∧ e.1.length ≤ nameMax) ∧
    (sampleNameBuf (List.replicate 255 97)).indexEntries = [(List.replicate 255 97, 10)] ∧
    ¬ AnswersQueries (fillIndex 1 [(List.replicate 255 97, 10)])
      (sampleNameBuf (List.replicate 255 97)).indexEntries := by
  have hname : NameOk (List.replicate 255 97) := by decide
  have hlength : (List.replicate 255 (97 : UInt8)).length = 255 := List.length_replicate
  have hentries := indexEntries_sampleNameBuf hname hlength.le
  have hdec : Utf8.decode (List.replicate 255 97) = some (List.replicate 255 'a') :=
    Utf8.decode_eq_some_iff.mpr (by decide +kernel)
  have hcalls : indexCalls [(List.replicate 255 97, 10)] = [] := by
    refine List.eq_nil_iff_forall_not_mem.mpr fun ⟨s, o⟩ hmem => ?_
    obtain ⟨e, he, hs, -⟩ := mem_indexCalls.mp hmem
    obtain ⟨cs, hcs, hlen, -⟩ := mem_keywordsOf.mp hs
    rw [List.mem_singleton.mp he, hdec] at hcs
    rw [← Option.some.inj hcs, List.length_replicate] at hlen
    exact absurd hlen (lt_irrefl _)
  rw [hentries]
  refine ⟨represents_sampleNameBuf hname hlength.le, fun e he => ?_, rfl, fun hans => ?_⟩
  · rw [List.mem_singleton.mp he]
    exact ⟨⟨_, hdec⟩, hlength.le⟩
  · have hquery : Utf8.decode [97] = some ['a'] := Utf8.decode_eq_some_iff.mpr (by decide)
    rw [fillIndex_eq, hcalls] at hans
    refine (hans [97] ['a'] hquery (by decide) (by decide)).1.mp rfl _ (List.mem_singleton_self _) ?_
    exact ⟨[], List.replicate 254 97, rfl⟩

/-- The index of a file `a` answers every query. -/
theorem Represents.fillIndex_answersQueries_iff_sample :
    AnswersQueries (fillIndex 1 [([97], 10)]) (sampleNameBuf [97]).indexEntries := by
  have hname : NameOk [97] := by decide
  have hentries := indexEntries_sampleNameBuf hname (by simp)
  have hdec : Utf8.decode [97] = some ['a'] := Utf8.decode_eq_some_iff.mpr (by decide)
  refine (fillIndex_answersQueries_iff (represents_sampleNameBuf hname (by simp)) (fun e he => ?_)
    (by rw [hentries]) 1).mpr ?_
  · rw [hentries, List.mem_singleton] at he
    exact he ▸ ⟨⟨_, hdec⟩, by simp [nameMax]⟩
  rw [hentries]
  refine ⟨fun e he cs hcs => ?_, fun i keys hkeys => ?_⟩
  · rw [List.mem_singleton.mp he, hdec] at hcs
    rw [← Option.some.inj hcs]
    decide
  · -- the name is its only keyword
    refine (Finset.card_le_card (t := {[97]}) fun s hs => ?_).trans_lt (by decide)
    obtain ⟨⟨e, he, hfound, qs, hqs, hpos, -⟩, -⟩ := hkeys s hs
    rw [List.mem_singleton.mp he] at hfound
    have hlen := hfound.length_le
    have hle := Utf8.length_le_encode qs
    rw [← Utf8.decode_eq_some_iff.mp hqs] at hle
    exact Finset.mem_singleton.mpr (hfound.eq_of_length (Nat.le_antisymm hlen (hpos.trans hle)))

end

end DeepinAnything
