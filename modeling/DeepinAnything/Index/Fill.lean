import DeepinAnything.Index.Basic
import Mathlib.Data.Finset.Card
import Mathlib.Data.Finset.Image

/-!
# What an index holds

After any calls of `add_index_allmem` every bucket has its own keywords, each once, and each keyword has
offsets that were added under it, in increasing order (`Sound`). It has all of them as long as no array has
come to `2 ^ 28` elements; an array that has come to that many has lost what it had (`complete_iff_room`).
-/

namespace DeepinAnything

open ByteMem

/-- The calls of `add_index_allmem`, one after the other. -/
def AllmemIndex.addAll (ami : AllmemIndex) (adds : List (Bytes × ℕ)) : AllmemIndex :=
  adds.foldl (fun ami add => ami.addIndexAllmem add.1 add.2) ami

@[simp] theorem AllmemIndex.addAll_nil (ami : AllmemIndex) : ami.addAll [] = ami := rfl

@[simp] theorem AllmemIndex.addAll_cons (ami : AllmemIndex) (add : Bytes × ℕ) (adds : List (Bytes × ℕ)) :
    ami.addAll (add :: adds) = (ami.addIndexAllmem add.1 add.2).addAll adds := rfl

/-- The keywords among the calls that go to a bucket. -/
def keysIn (count : ℕ) (adds : List (Bytes × ℕ)) (i : ℕ) : Finset Bytes :=
  ((adds.map Prod.fst).filter fun s => (hash s).toNat % count = i).toFinset

/-- The offsets that are added under a keyword. -/
def offsetsOf (adds : List (Bytes × ℕ)) (s : Bytes) : Finset ℕ :=
  ((adds.filter fun add => add.1 = s).map Prod.snd).toFinset

/-- No array comes to `2 ^ 28` elements. -/
structure Room (count : ℕ) (adds : List (Bytes × ℕ)) : Prop where
  keys : ∀ i, (keysIn count adds i).card < 2 ^ 28
  offsets : ∀ s, (offsetsOf adds s).card < 2 ^ 28

/-- What is true of a keyword after the calls `adds`. -/
structure IndexKeyword.Sound (adds : List (Bytes × ℕ)) (inkw : IndexKeyword) : Prop where
  sorted : inkw.fsbufOffsets.Pairwise (· < ·)
  short : inkw.fsbufOffsets.length < 2 ^ 28
  added : ∀ o ∈ inkw.fsbufOffsets, (inkw.str, o) ∈ adds
  known : ∃ o, (inkw.str, o) ∈ adds

/-- What is true of the keywords of a bucket. -/
structure BucketSound (count : ℕ) (adds : List (Bytes × ℕ)) (i : ℕ) (keywords : List IndexKeyword) :
    Prop where
  nodup : (keywords.map IndexKeyword.str).Nodup
  short : keywords.length < 2 ^ 28
  hashed : ∀ inkw ∈ keywords, (hash inkw.str).toNat % count = i
  keyword : ∀ inkw ∈ keywords, inkw.Sound adds

namespace AllmemIndex

/-- What is true of every index. -/
def Sound (ami : AllmemIndex) (adds : List (Bytes × ℕ)) : Prop :=
  ∀ i, BucketSound ami.count adds i (ami.indice i).keywords

/-- Everything that was added is there. -/
def Complete (ami : AllmemIndex) (adds : List (Bytes × ℕ)) : Prop :=
  ∀ s o, (s, o) ∈ adds →
    ∃ inkw ∈ (ami.indice (ami.bucket s)).keywords, inkw.str = s ∧ o ∈ inkw.fsbufOffsets

end AllmemIndex

@[simp] theorem mem_keysIn {count : ℕ} {adds : List (Bytes × ℕ)} {i : ℕ} {s : Bytes} :
    s ∈ keysIn count adds i ↔ (∃ o, (s, o) ∈ adds) ∧ (hash s).toNat % count = i := by
  simp [keysIn]

@[simp] theorem mem_offsetsOf {adds : List (Bytes × ℕ)} {s : Bytes} {o : ℕ} :
    o ∈ offsetsOf adds s ↔ (s, o) ∈ adds := by
  simp [offsetsOf]

theorem Room.mono {count : ℕ} {adds adds' : List (Bytes × ℕ)} (h : Room count adds') (hsub : adds ⊆ adds') :
    Room count adds := by
  refine ⟨fun i => (Finset.card_le_card fun s hs => ?_).trans_lt (h.keys i),
    fun s => (Finset.card_le_card fun o ho => ?_).trans_lt (h.offsets s)⟩
  · rw [mem_keysIn] at hs ⊢
    exact ⟨hs.1.imp fun o ho => hsub ho, hs.2⟩
  · rw [mem_offsetsOf] at ho ⊢
    exact hsub ho

/-- A list without repetitions is no longer than a set that has its elements. -/
theorem length_le_card {α : Type} [DecidableEq α] {xs : List α} {s : Finset α} (hxs : xs.Nodup)
    (h : ∀ x ∈ xs, x ∈ s) : xs.length ≤ s.card := by
  rw [← List.toFinset_card_of_nodup hxs]
  exact Finset.card_le_card fun x hx => h x (List.mem_toFinset.mp hx)

theorem counted28_sublist {α : Type} (xs : List α) : List.Sublist (counted28 xs) xs :=
  List.take_sublist _ _

/-! ## One keyword -/

namespace IndexKeyword

@[simp] theorem str_initIndexKeyword (s : Bytes) : (initIndexKeyword s).str = s :=
  getCsString_setCsString s

@[simp] theorem str_addOffset (inkw : IndexKeyword) (o : ℕ) : (inkw.addOffset o).str = inkw.str := by
  simp only [addOffset]
  split <;> rfl

/-- An offset that the keyword has is not added again; another one goes into its place. -/
theorem fsbufOffsets_addOffset {inkw : IndexKeyword} (hs : inkw.fsbufOffsets.Pairwise (· < ·)) (o : ℕ) :
    (inkw.addOffset o).fsbufOffsets =
      if o ∈ inkw.fsbufOffsets then inkw.fsbufOffsets
      else counted28 (inkw.fsbufOffsets.insertIdx (getInsertPos o inkw.fsbufOffsets true) o) := by
  have hsplit := getInsertPos_splitsAt o hs
  simp only [addOffset]
  by_cases hmem : o ∈ inkw.fsbufOffsets
  · rw [if_pos (hsplit.getD_of_mem hmem hs), if_pos hmem]
  · rw [if_neg hmem, if_neg fun h => hmem ?_]
    rw [List.getD_eq_getElem _ _ h.1] at h
    rw [← h.2]
    exact List.getElem_mem _

theorem mem_addOffset {inkw : IndexKeyword} (hs : inkw.fsbufOffsets.Pairwise (· < ·)) {o o' : ℕ}
    (h : o' ∈ (inkw.addOffset o).fsbufOffsets) : o' = o ∨ o' ∈ inkw.fsbufOffsets := by
  rw [fsbufOffsets_addOffset hs] at h
  split at h
  · exact .inr h
  · exact (List.mem_insertIdx (getInsertPos_splitsAt o hs).le).mp ((counted28_sublist _).subset h)

/-- With room for one more, nothing is lost. -/
theorem mem_addOffset_iff {inkw : IndexKeyword} (hs : inkw.fsbufOffsets.Pairwise (· < ·)) {o : ℕ}
    (hroom : o ∉ inkw.fsbufOffsets → inkw.fsbufOffsets.length + 1 < 2 ^ 28) (o' : ℕ) :
    o' ∈ (inkw.addOffset o).fsbufOffsets ↔ o' = o ∨ o' ∈ inkw.fsbufOffsets := by
  refine ⟨mem_addOffset hs, fun h => ?_⟩
  have hle := (getInsertPos_splitsAt o hs).le
  rw [fsbufOffsets_addOffset hs]
  split
  · rename_i hmem
    rcases h with rfl | h
    · exact hmem
    · exact h
  · rename_i hmem
    rw [counted28_of_lt (by rw [List.length_insertIdx_of_le_length hle]; exact hroom hmem),
      List.mem_insertIdx hle]
    exact h

theorem Sound.mono {adds adds' : List (Bytes × ℕ)} {inkw : IndexKeyword} (h : inkw.Sound adds)
    (hsub : adds ⊆ adds') : inkw.Sound adds' :=
  ⟨h.sorted, h.short, fun o ho => hsub (h.added o ho), h.known.imp fun _ ho => hsub ho⟩

theorem Sound.addOffset {adds : List (Bytes × ℕ)} {inkw : IndexKeyword} (h : inkw.Sound adds) {o : ℕ}
    (ho : (inkw.str, o) ∈ adds) : (inkw.addOffset o).Sound adds := by
  have hsplit := getInsertPos_splitsAt o h.sorted
  refine ⟨?_, ?_, fun o' ho' => ?_, ⟨o, by rwa [str_addOffset]⟩⟩
  · rw [fsbufOffsets_addOffset h.sorted]
    split
    · exact h.sorted
    · rename_i hmem
      exact (hsplit.insertIdx_sorted h.sorted hmem).sublist (counted28_sublist _)
  · rw [fsbufOffsets_addOffset h.sorted]
    split
    · exact h.short
    · exact length_counted28_lt _
  · rw [str_addOffset]
    rcases mem_addOffset h.sorted ho' with rfl | ho'
    · exact ho
    · exact h.added o' ho'

/-- A keyword that has just been made. -/
theorem Sound.init {adds : List (Bytes × ℕ)} {s : Bytes} {o : ℕ} (ho : (s, o) ∈ adds) :
    (initIndexKeyword s).Sound adds :=
  ⟨List.Pairwise.nil, by simp [initIndexKeyword], by simp [initIndexKeyword], ⟨o, by simpa using ho⟩⟩

end IndexKeyword

/-! ## One call -/

/-- The keyword is in the bucket, behind others, or it is not there. -/
theorem IndexHash.inkwPos_cases (ih : IndexHash) (s : Bytes) :
    (∃ pre inkw post, ih.keywords = pre ++ inkw :: post ∧ inkw.str = s ∧ ih.inkwPos s = pre.length) ∨
    ((∀ inkw ∈ ih.keywords, inkw.str ≠ s) ∧ ih.inkwPos s = ih.keywords.length) := by
  by_cases h : ∃ inkw ∈ ih.keywords, inkw.str = s
  · have hlt : ih.inkwPos s < ih.keywords.length :=
      List.findIdx_lt_length_of_exists (h.imp fun _ h => ⟨h.1, decide_eq_true h.2⟩)
    refine .inl ⟨ih.keywords.take (ih.inkwPos s), ih.keywords[ih.inkwPos s],
      ih.keywords.drop (ih.inkwPos s + 1), ?_, ?_, ?_⟩
    · rw [← List.drop_eq_getElem_cons, List.take_append_drop]
    · exact of_decide_eq_true (List.findIdx_getElem (w := hlt))
    · rw [List.length_take]
      omega
  · push Not at h
    exact .inr ⟨h, List.findIdx_eq_length_of_false fun x hx => decide_eq_false (h x hx)⟩

namespace AllmemIndex

variable {ami : AllmemIndex} {adds : List (Bytes × ℕ)}

@[simp] theorem count_setBucket (i : ℕ) (ih : IndexHash) : (ami.setBucket i ih).count = ami.count := rfl

@[simp] theorem indice_setBucket (i : ℕ) (ih : IndexHash) : (ami.setBucket i ih).indice i = ih := if_pos rfl

theorem indice_setBucket_of_ne {i j : ℕ} (ih : IndexHash) (h : j ≠ i) :
    (ami.setBucket i ih).indice j = ami.indice j :=
  if_neg h

/-- `get_index_keyword_allmem` finds the keyword of its bucket, if there is one. -/
theorem getIndexKeywordAllmem_eq_some {s : Bytes} {inkw : IndexKeyword}
    (h : ami.getIndexKeywordAllmem s = some inkw) :
    inkw ∈ (ami.indice (ami.bucket s)).keywords ∧ inkw.str = s := by
  have hpos := List.findIdx_of_getElem?_eq_some (p := fun x => decide (IndexKeyword.str x = s)) h
  exact ⟨List.mem_of_getElem? h, of_decide_eq_true hpos⟩

theorem getIndexKeywordAllmem_eq_none_iff {s : Bytes} :
    ami.getIndexKeywordAllmem s = none ↔ ∀ inkw ∈ (ami.indice (ami.bucket s)).keywords, inkw.str ≠ s := by
  rw [getIndexKeywordAllmem, List.getElem?_eq_none_iff]
  rcases (ami.indice (ami.bucket s)).inkwPos_cases s with ⟨pre, inkw, post, heq, hstr, hpos⟩ | ⟨hnone, hpos⟩
  · rw [hpos, heq]
    refine iff_of_false (by simp) fun h => h inkw (by simp) hstr
  · rw [hpos]
    exact iff_of_true le_rfl hnone

@[simp] theorem bucket_setBucket (i : ℕ) (ih : IndexHash) (s : Bytes) :
    (ami.setBucket i ih).bucket s = ami.bucket s := rfl

theorem setBucket_setBucket (i : ℕ) (ih ih' : IndexHash) :
    (ami.setBucket i ih).setBucket i ih' = ami.setBucket i ih' := by
  simp only [setBucket]
  congr 1
  funext j
  split <;> rfl

theorem addIndexAllmem_of_some {s : Bytes} {inkw : IndexKeyword} (h : ami.getIndexKeywordAllmem s = some inkw)
    (o : ℕ) :
    ami.addIndexAllmem s o = ami.setBucket (ami.bucket s)
      { ami.indice (ami.bucket s) with
        keywords := (ami.indice (ami.bucket s)).keywords.modify
          ((ami.indice (ami.bucket s)).inkwPos s) (·.addOffset o) } := by
  simp only [addIndexAllmem, getIndexKeywordForAppend, h]

theorem addIndexAllmem_of_none {s : Bytes} (h : ami.getIndexKeywordAllmem s = none) (o : ℕ) :
    ∃ empty, ami.addIndexAllmem s o = ami.setBucket (ami.bucket s)
      ⟨(counted28 ((ami.indice (ami.bucket s)).keywords ++ [initIndexKeyword s])).modify
        (ami.indice (ami.bucket s)).keywords.length (·.addOffset o), empty⟩ := by
  refine ⟨(if (ami.indice (ami.bucket s)).empty = 0 then idxKwBlk
    else (ami.indice (ami.bucket s)).empty) - 1, ?_⟩
  simp only [addIndexAllmem, getIndexKeywordForAppend, h, bucket_setBucket, indice_setBucket,
    setBucket_setBucket]

@[simp] theorem count_addIndexAllmem (s : Bytes) (o : ℕ) : (ami.addIndexAllmem s o).count = ami.count := by
  simp only [addIndexAllmem, getIndexKeywordForAppend]
  split <;> rfl

theorem bucket_addIndexAllmem (s s' : Bytes) (o : ℕ) :
    (ami.addIndexAllmem s o).bucket s' = ami.bucket s' := by
  rw [bucket, count_addIndexAllmem, bucket]

/-- Just the bucket of the keyword changes. -/
theorem indice_addIndexAllmem_of_ne {s : Bytes} {o i : ℕ} (h : i ≠ ami.bucket s) :
    (ami.addIndexAllmem s o).indice i = ami.indice i := by
  cases hget : ami.getIndexKeywordAllmem s with
  | some inkw => rw [addIndexAllmem_of_some hget, indice_setBucket_of_ne _ h]
  | none =>
    obtain ⟨_, heq⟩ := addIndexAllmem_of_none hget o
    rw [heq, indice_setBucket_of_ne _ h]

/-- The keyword gets the offset where it stands; a new keyword comes last. -/
theorem addIndexAllmem_cases (ami : AllmemIndex) (s : Bytes) (o : ℕ) :
    (∃ pre inkw post, (ami.indice (ami.bucket s)).keywords = pre ++ inkw :: post ∧ inkw.str = s ∧
      ((ami.addIndexAllmem s o).indice (ami.bucket s)).keywords = pre ++ inkw.addOffset o :: post) ∨
    ((∀ inkw ∈ (ami.indice (ami.bucket s)).keywords, inkw.str ≠ s) ∧
      ((ami.addIndexAllmem s o).indice (ami.bucket s)).keywords =
        counted28 ((ami.indice (ami.bucket s)).keywords ++ [(initIndexKeyword s).addOffset o])) := by
  generalize hih : ami.indice (ami.bucket s) = ih
  rcases ih.inkwPos_cases s with ⟨pre, inkw, post, heq, hstr, hpos⟩ | ⟨hnone, hpos⟩
  · have hget : ami.getIndexKeywordAllmem s = some inkw := by
      rw [getIndexKeywordAllmem, hih]
      simp [hpos, heq]
    refine .inl ⟨pre, inkw, post, heq, hstr, ?_⟩
    rw [addIndexAllmem_of_some hget, indice_setBucket]
    simp only [hih, hpos, heq]
    rw [List.modify_eq_take_cons_drop (by simp)]
    simp
  · have hget : ami.getIndexKeywordAllmem s = none :=
      getIndexKeywordAllmem_eq_none_iff.mpr (by rwa [hih])
    refine .inr ⟨hnone, ?_⟩
    obtain ⟨_, heq⟩ := addIndexAllmem_of_none hget o
    rw [heq, indice_setBucket]
    simp only [hih]
    by_cases hfit : ih.keywords.length + 1 < 2 ^ 28
    · rw [counted28_of_lt (by simpa using hfit), counted28_of_lt (by simpa using hfit),
        List.modify_eq_take_cons_drop (by simp)]
      simp
    · -- the count has gone over to 0 and the pointer leads behind the array
      have hcut : ∀ x, counted28 (ih.keywords ++ [x]) =
          ih.keywords.take ((ih.keywords.length + 1) % 2 ^ 28) := fun x => by
        rw [counted28, List.length_append, List.length_singleton,
          List.take_append_of_le_length (by omega)]
      rw [hcut, hcut, List.modify_eq_self]
      rw [List.length_take]
      omega

/-! ## What every index holds -/

/-- A new index is empty. -/
theorem sound_new (count : ℕ) : (newAllmemIndex count).Sound [] :=
  fun _ => ⟨List.nodup_nil, by simp [newAllmemIndex], by simp [newAllmemIndex], by simp [newAllmemIndex]⟩

theorem Sound.addIndexAllmem (h : ami.Sound adds) (s : Bytes) (o : ℕ) :
    (ami.addIndexAllmem s o).Sound (adds ++ [(s, o)]) := by
  have hsub : adds ⊆ adds ++ [(s, o)] := List.subset_append_left _ _
  have hnew : (s, o) ∈ adds ++ [(s, o)] := by simp
  intro i
  rw [count_addIndexAllmem]
  obtain ⟨hnodup, hshort, hhash, hkw⟩ := h i
  have hkw' : ∀ inkw ∈ (ami.indice i).keywords, inkw.Sound (adds ++ [(s, o)]) :=
    fun inkw hmem => (hkw inkw hmem).mono hsub
  by_cases hi : i = ami.bucket s
  swap
  · rw [indice_addIndexAllmem_of_ne hi]
    exact ⟨hnodup, hshort, hhash, hkw'⟩
  subst hi
  rcases ami.addIndexAllmem_cases s o with ⟨pre, inkw, post, heq, rfl, heq'⟩ | ⟨hnone, heq'⟩
  · rw [heq'] at *
    rw [heq] at hnodup hshort hhash hkw'
    refine ⟨by simpa using hnodup, by simpa using hshort, fun x hx => ?_, fun x hx => ?_⟩
    · rcases List.mem_append.mp hx with hx | hx
      · exact hhash x (by simp [hx])
      rcases List.mem_cons.mp hx with rfl | hx
      · rw [IndexKeyword.str_addOffset]
        exact hhash inkw (by simp)
      · exact hhash x (by simp [hx])
    · rcases List.mem_append.mp hx with hx | hx
      · exact hkw' x (by simp [hx])
      rcases List.mem_cons.mp hx with rfl | hx
      · exact (hkw' inkw (by simp)).addOffset hnew
      · exact hkw' x (by simp [hx])
  · rw [heq']
    have hall : ∀ x ∈ counted28 ((ami.indice (ami.bucket s)).keywords ++ [(initIndexKeyword s).addOffset o]),
        x ∈ (ami.indice (ami.bucket s)).keywords ∨ x = (initIndexKeyword s).addOffset o := fun x hx => by
      simpa using (counted28_sublist _).subset hx
    refine ⟨?_, length_counted28_lt _, fun x hx => ?_, fun x hx => ?_⟩
    · refine List.Nodup.sublist ((counted28_sublist _).map _) ?_
      rw [List.map_append, List.map_singleton, List.nodup_append]
      refine ⟨hnodup, List.nodup_singleton _, fun x hx y hy => ?_⟩
      obtain ⟨inkw, hmem, rfl⟩ := List.mem_map.mp hx
      rw [List.mem_singleton.mp hy, IndexKeyword.str_addOffset, IndexKeyword.str_initIndexKeyword]
      exact hnone inkw hmem
    · rcases hall x hx with hx | rfl
      · exact hhash x hx
      · rw [IndexKeyword.str_addOffset, IndexKeyword.str_initIndexKeyword]
        rfl
    · rcases hall x hx with hx | rfl
      · exact hkw' x hx
      · refine IndexKeyword.Sound.addOffset (.init hnew) ?_
        rw [IndexKeyword.str_initIndexKeyword]
        exact hnew

/-- A call with room keeps everything and adds the offset. -/
theorem Complete.addIndexAllmem (h : ami.Sound adds) (hc : ami.Complete adds) {s : Bytes} {o : ℕ}
    (hroom : Room ami.count (adds ++ [(s, o)])) : (ami.addIndexAllmem s o).Complete (adds ++ [(s, o)]) := by
  intro s' o' hmem
  rw [bucket_addIndexAllmem]
  have hold : (s', o') = (s, o) ∨ ∃ inkw ∈ (ami.indice (ami.bucket s')).keywords,
      inkw.str = s' ∧ o' ∈ inkw.fsbufOffsets := by
    rcases List.mem_append.mp hmem with hmem | hmem
    · exact .inr (hc s' o' hmem)
    · exact .inl (List.mem_singleton.mp hmem)
  by_cases hi : ami.bucket s' = ami.bucket s
  swap
  · rw [indice_addIndexAllmem_of_ne hi]
    refine hold.resolve_left fun heq => hi ?_
    rw [(Prod.mk.inj heq).1]
  rw [hi] at hold ⊢
  obtain ⟨hnodup, hshort, hhash, hkw⟩ := h (ami.bucket s)
  rcases ami.addIndexAllmem_cases s o with ⟨pre, inkw, post, heq, rfl, heq'⟩ | ⟨hnone, heq'⟩
  · rw [heq']
    have hsound : inkw.Sound adds := hkw inkw (by simp [heq])
    have hiff := IndexKeyword.mem_addOffset_iff hsound.sorted (o := o) fun hnot => by
      -- the keyword's offsets and the new one are among those added under it
      refine Nat.lt_of_le_of_lt ?_ (hroom.offsets inkw.str)
      refine @length_le_card _ _ (o :: inkw.fsbufOffsets) _ (List.nodup_cons.mpr ⟨hnot, ?_⟩) fun x hx => ?_
      · exact hsound.sorted.imp fun h => h.ne
      · rw [mem_offsetsOf]
        rcases List.mem_cons.mp hx with rfl | hx
        · simp
        · exact List.mem_append_left _ (hsound.added x hx)
    rcases hold with hold | ⟨inkw', hmem', hstr, ho'⟩
    · obtain ⟨rfl, rfl⟩ := Prod.mk.inj hold
      exact ⟨inkw.addOffset o', by simp, by simp, (hiff o').mpr (.inl rfl)⟩
    · rw [heq, List.mem_append, List.mem_cons] at hmem'
      rcases hmem' with hmem' | rfl | hmem'
      · exact ⟨inkw', by simp [hmem'], hstr, ho'⟩
      · exact ⟨inkw'.addOffset o, by simp, by simpa using hstr, (hiff o').mpr (.inr ho')⟩
      · exact ⟨inkw', by simp [hmem'], hstr, ho'⟩
  · have hfit : (ami.indice (ami.bucket s)).keywords.length + 1 < 2 ^ 28 := by
      -- the keywords of the bucket and the new one are among those added there
      refine Nat.lt_of_le_of_lt ?_ (hroom.keys (ami.bucket s))
      have := @length_le_card _ _ (s :: (ami.indice (ami.bucket s)).keywords.map IndexKeyword.str)
        (keysIn ami.count (adds ++ [(s, o)]) (ami.bucket s)) (List.nodup_cons.mpr ⟨?_, hnodup⟩) ?_
      · simpa using this
      · rw [List.mem_map]
        rintro ⟨inkw, hmem, hstr⟩
        exact hnone inkw hmem hstr
      · intro x hx
        rw [mem_keysIn]
        rcases List.mem_cons.mp hx with rfl | hx
        · exact ⟨⟨o, by simp⟩, rfl⟩
        · obtain ⟨inkw, hmem, rfl⟩ := List.mem_map.mp hx
          exact ⟨(hkw inkw hmem).known.imp fun _ h => List.mem_append_left _ h, hhash inkw hmem⟩
    rw [heq', counted28_of_lt (by simpa using hfit)]
    rcases hold with hold | ⟨inkw', hmem', hstr, ho'⟩
    · obtain ⟨rfl, rfl⟩ := Prod.mk.inj hold
      refine ⟨(initIndexKeyword s').addOffset o', by simp, by simp, ?_⟩
      exact (IndexKeyword.mem_addOffset_iff List.Pairwise.nil (fun _ => by simp [initIndexKeyword]) o').mpr
        (.inl rfl)
    · exact ⟨inkw', by simp [hmem'], hstr, ho'⟩

@[simp] theorem count_addAll (ami : AllmemIndex) (adds : List (Bytes × ℕ)) :
    (ami.addAll adds).count = ami.count := by
  induction adds generalizing ami with
  | nil => rfl
  | cons a adds ih => exact (ih _).trans (count_addIndexAllmem _ _)

theorem Sound.addAll (h : ami.Sound adds) (more : List (Bytes × ℕ)) :
    (ami.addAll more).Sound (adds ++ more) := by
  induction more generalizing ami adds with
  | nil => simpa using h
  | cons a more ih => simpa using ih (h.addIndexAllmem a.1 a.2)

theorem Complete.addAll (h : ami.Sound adds) (hc : ami.Complete adds) {more : List (Bytes × ℕ)}
    (hroom : Room ami.count (adds ++ more)) : (ami.addAll more).Complete (adds ++ more) := by
  induction more generalizing ami adds with
  | nil => simpa using hc
  | cons a more ih =>
    have hstep := hc.addIndexAllmem h (s := a.1) (o := a.2)
      (hroom.mono (by simp))
    simpa using ih (h.addIndexAllmem a.1 a.2) hstep (by simpa using hroom)

/-- An index that has everything has had room for it. -/
theorem Sound.room_of_complete (h : ami.Sound adds) (hc : ami.Complete adds) : Room ami.count adds := by
  refine ⟨fun i => ?_, fun s => ?_⟩
  · obtain ⟨hnodup, hshort, hhash, hkw⟩ := h i
    refine Nat.lt_of_le_of_lt (m := ((ami.indice i).keywords.map IndexKeyword.str).toFinset.card)
      (Finset.card_le_card fun s hs => ?_) ?_
    · obtain ⟨⟨o, ho⟩, rfl⟩ := mem_keysIn.mp hs
      obtain ⟨inkw, hmem, rfl, -⟩ := hc s o ho
      rw [List.mem_toFinset]
      exact List.mem_map_of_mem hmem
    · rw [List.toFinset_card_of_nodup hnodup, List.length_map]
      exact hshort
  · by_cases hs : ∃ o, (s, o) ∈ adds
    · obtain ⟨o, ho⟩ := hs
      obtain ⟨inkw, hmem, rfl, -⟩ := hc s o ho
      obtain ⟨hnodup, -, -, hkw⟩ := h (ami.bucket inkw.str)
      have hsound := hkw inkw hmem
      refine Nat.lt_of_le_of_lt (m := inkw.fsbufOffsets.toFinset.card)
        (Finset.card_le_card fun o' ho' => ?_) ?_
      · obtain ⟨inkw', hmem', hstr, ho''⟩ := hc _ o' (mem_offsetsOf.mp ho')
        obtain rfl := List.inj_on_of_nodup_map hnodup hmem' hmem hstr
        exact List.mem_toFinset.mpr ho''
      · exact (List.toFinset_card_le _).trans_lt hsound.short
    · push Not at hs
      have : offsetsOf adds s = ∅ := Finset.eq_empty_of_forall_notMem fun o ho => hs o (mem_offsetsOf.mp ho)
      simp [this]

/-- The index has all that was added just when no array came to `2 ^ 28` elements. -/
theorem complete_iff_room (count : ℕ) (adds : List (Bytes × ℕ)) :
    ((newAllmemIndex count).addAll adds).Complete adds ↔ Room count adds := by
  have hsound := (sound_new count).addAll adds
  constructor
  · intro hc
    simpa [newAllmemIndex] using Sound.room_of_complete (by simpa using hsound) hc
  · intro hroom
    have := @Complete.addAll _ [] (sound_new count) (by simp [Complete]) adds hroom
    simpa using this

end AllmemIndex

end DeepinAnything
