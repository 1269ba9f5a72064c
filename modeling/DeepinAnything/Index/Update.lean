import Mathlib.Order.Monotone.Basic
import DeepinAnything.FsBuf.Change
import DeepinAnything.Index.Contains

/-!
# An index that follows insertions (`index.c`, `index_allmem.c`)

`insert_path` reports what it has moved. Who holds an index of the names gives the report to `add_fsbuf_offsets`, and
the new name to `add_index`. Offsets that are moved keep their order, so that it makes no difference to an index
whether they are moved before or after they are added: the index is the one that the names of the buffer as it is now
fill.
-/

namespace DeepinAnything

open ByteMem OrderedForest OrderedForest.Forest

/-- The offsets of a keyword are replaced. -/
def IndexKeyword.withOffsets (f : List ℕ → List ℕ) (inkw : IndexKeyword) : IndexKeyword :=
  { inkw with fsbufOffsets := f inkw.fsbufOffsets }

/-- `add_fsbuf_offsets`, `add_fsbuf_offsets_allmem` -/
def AllmemIndex.addFsbufOffsets (ami : AllmemIndex) (startOff : ℕ) (delta : ℤ) : AllmemIndex :=
  { ami with indice := fun i =>
      if i < ami.count then
        { ami.indice i with
          keywords := (ami.indice i).keywords.map
            (·.withOffsets fun offsets => (addInkwFsbufOffsets offsets startOff delta).2) }
      else ami.indice i }

/-- All offsets of an index are replaced. -/
def AllmemIndex.mapOffsets (f : ℕ → ℕ) (ami : AllmemIndex) : AllmemIndex :=
  { ami with indice := fun i =>
      { ami.indice i with keywords := (ami.indice i).keywords.map (·.withOffsets (List.map f)) } }

/-! ## Offsets that keep their order -/

section

variable {f : ℕ → ℕ} {S : Set ℕ} (hf : StrictMonoOn f S)

/-- The position of a value is the number of smaller ones. -/
theorem getInsertPos_eq_countP (value : ℕ) {sorted : List ℕ} (h : sorted.Pairwise (· < ·)) :
    getInsertPos value sorted true = sorted.countP (· < value) := by
  have hsplit := getInsertPos_splitsAt value h
  conv_rhs => rw [← List.take_append_drop (getInsertPos value sorted true) sorted]
  rw [List.countP_append, List.countP_eq_length.mpr fun x hx => by simpa using hsplit.before x hx,
    List.countP_eq_zero.mpr fun x hx => by simpa using hsplit.behind x hx, List.length_take, Nat.add_zero,
    Nat.min_eq_left hsplit.le]

theorem counted28_map {α β : Type} (g : α → β) (xs : List α) : counted28 (xs.map g) = (counted28 xs).map g := by
  rw [counted28, counted28, List.length_map, List.map_take]

include hf

theorem pairwise_map_of_strictMonoOn {xs : List ℕ} (h : xs.Pairwise (· < ·)) (hS : ∀ x ∈ xs, x ∈ S) :
    (xs.map f).Pairwise (· < ·) :=
  List.pairwise_map.mpr (h.imp_of_mem fun hx hy hlt => hf (hS _ hx) (hS _ hy) hlt)

theorem getInsertPos_map {value : ℕ} {sorted : List ℕ} (h : sorted.Pairwise (· < ·)) (hS : ∀ x ∈ sorted, x ∈ S)
    (hvalue : value ∈ S) : getInsertPos (f value) (sorted.map f) true = getInsertPos value sorted true := by
  rw [getInsertPos_eq_countP _ (pairwise_map_of_strictMonoOn hf h hS), getInsertPos_eq_countP _ h, List.countP_map]
  refine List.countP_congr fun x hx => ?_
  simpa using hf.lt_iff_lt (hS x hx) hvalue

namespace IndexKeyword

theorem withOffsets_addOffset {inkw : IndexKeyword} {o : ℕ} (hs : inkw.fsbufOffsets.Pairwise (· < ·))
    (hS : ∀ x ∈ inkw.fsbufOffsets, x ∈ S) (ho : o ∈ S) :
    (inkw.addOffset o).withOffsets (List.map f) = (inkw.withOffsets (List.map f)).addOffset (f o) := by
  have hpos := getInsertPos_map hf hs hS ho
  have hthere : ∀ pos, (inkw.fsbufOffsets.length > pos ∧ inkw.fsbufOffsets.getD pos 0 = o) ↔
      ((inkw.fsbufOffsets.map f).length > pos ∧ (inkw.fsbufOffsets.map f).getD pos 0 = f o) := fun pos => by
    rw [List.length_map]
    refine and_congr_right fun hlt => ?_
    rw [List.getD_eq_getElem _ _ hlt, List.getD_eq_getElem _ _ (by rwa [List.length_map]), List.getElem_map]
    exact (hf.eq_iff_eq (hS _ (List.getElem_mem hlt)) ho).symm
  simp only [addOffset, withOffsets, hpos]
  rw [if_congr (hthere _) rfl rfl]
  split
  · rfl
  · simp only [← List.map_insertIdx, counted28_map]
    rfl

end IndexKeyword

end

namespace AllmemIndex

variable {f : ℕ → ℕ} {S : Set ℕ} {ami : AllmemIndex} {adds : List (Bytes × ℕ)}

theorem mapOffsets_setBucket (i : ℕ) (ih : IndexHash) :
    (ami.setBucket i ih).mapOffsets f = (ami.mapOffsets f).setBucket i
      { ih with keywords := ih.keywords.map (·.withOffsets (List.map f)) } := by
  simp only [mapOffsets, setBucket]
  congr 1
  funext j
  by_cases hj : j = i
  · simp only [hj, if_true]
  · simp only [hj, if_false]

theorem bucket_mapOffsets (s : Bytes) : (ami.mapOffsets f).bucket s = ami.bucket s := rfl

theorem inkwPos_mapOffsets (i : ℕ) (s : Bytes) :
    ((ami.mapOffsets f).indice i).inkwPos s = (ami.indice i).inkwPos s := by
  rw [IndexHash.inkwPos, IndexHash.inkwPos, mapOffsets, List.findIdx_map]
  rfl

theorem getIndexKeywordAllmem_mapOffsets (s : Bytes) : (ami.mapOffsets f).getIndexKeywordAllmem s =
    (ami.getIndexKeywordAllmem s).map (·.withOffsets (List.map f)) := by
  simp only [getIndexKeywordAllmem]
  rw [bucket_mapOffsets, inkwPos_mapOffsets, mapOffsets, List.getElem?_map]

theorem getIndexKeywordForAppend_mapOffsets (s : Bytes) : (ami.mapOffsets f).getIndexKeywordForAppend s =
    ((ami.getIndexKeywordForAppend s).1.mapOffsets f, (ami.getIndexKeywordForAppend s).2) := by
  simp only [getIndexKeywordForAppend, getIndexKeywordAllmem_mapOffsets, bucket_mapOffsets, inkwPos_mapOffsets]
  cases ami.getIndexKeywordAllmem s with
  | some inkw => rfl
  | none =>
    simp only [Option.map_none, mapOffsets_setBucket, ← counted28_map, List.map_append, List.map_singleton]
    simp only [mapOffsets, List.length_map]
    rfl

/-- The keywords among which the one for a string is, old ones and perhaps one without offsets. -/
theorem mem_keywords_append {s : Bytes} {inkw : IndexKeyword}
    (h : inkw ∈ ((ami.getIndexKeywordForAppend s).1.indice (ami.bucket s)).keywords) :
    inkw ∈ (ami.indice (ami.bucket s)).keywords ∨ inkw.fsbufOffsets = [] := by
  simp only [getIndexKeywordForAppend] at h
  cases hget : ami.getIndexKeywordAllmem s with
  | some inkw' =>
    rw [hget] at h
    exact .inl h
  | none =>
    rw [hget] at h
    simp only [indice_setBucket] at h
    refine (List.mem_append.mp ((counted28_sublist _).subset h)).imp id fun hnew => ?_
    rw [List.mem_singleton.mp hnew]
    rfl

theorem bucket_append (s : Bytes) : (ami.getIndexKeywordForAppend s).1.bucket s = ami.bucket s := by
  simp only [getIndexKeywordForAppend]
  cases ami.getIndexKeywordAllmem s <;> rfl

theorem map_modify {α β : Type} {g : α → α} {g' : β → β} {h : α → β} {xs : List α} (n : ℕ)
    (hx : ∀ x ∈ xs, h (g x) = g' (h x)) : (xs.modify n g).map h = (xs.map h).modify n g' := by
  refine List.ext_getElem? fun i => ?_
  rw [List.getElem?_map, List.getElem?_modify, List.getElem?_modify, List.getElem?_map]
  cases hget : xs[i]? with
  | none => rfl
  | some x =>
    by_cases hi : n = i
    · simp [hi, hx x (List.mem_of_getElem? hget)]
    · simp [hi]

/-- It makes no difference whether the offsets are replaced before or after one more is added. -/
theorem Sound.mapOffsets_addIndexAllmem (hf : StrictMonoOn f S) (h : ami.Sound adds) (hS : ∀ a ∈ adds, a.2 ∈ S)
    (s : Bytes) {o : ℕ} (ho : o ∈ S) :
    (ami.addIndexAllmem s o).mapOffsets f = (ami.mapOffsets f).addIndexAllmem s (f o) := by
  simp only [AllmemIndex.addIndexAllmem, getIndexKeywordForAppend_mapOffsets, mapOffsets_setBucket]
  rw [map_modify _ fun inkw hmem => ?_]
  · rfl
  rw [bucket_append] at hmem
  rcases mem_keywords_append hmem with hmem | hnew
  · have hsound := (h _).keyword inkw hmem
    exact IndexKeyword.withOffsets_addOffset hf hsound.sorted (fun x hx => hS _ (hsound.added x hx)) ho
  · exact IndexKeyword.withOffsets_addOffset hf (by rw [hnew]; exact .nil) (by simp [hnew]) ho

theorem addAll_append (adds' : List (Bytes × ℕ)) : ami.addAll (adds ++ adds') = (ami.addAll adds).addAll adds' :=
  List.foldl_append

/-- The index of offsets that have been replaced. -/
theorem mapOffsets_addAll (hf : StrictMonoOn f S) (count : ℕ) (hS : ∀ a ∈ adds, a.2 ∈ S) :
    ((newAllmemIndex count).addAll adds).mapOffsets f =
      (newAllmemIndex count).addAll (adds.map (Prod.map id f)) := by
  induction adds using List.reverseRecOn with
  | nil => rfl
  | append_singleton adds a ih =>
    have hadds : ∀ x ∈ adds, x.2 ∈ S := fun x hx => hS x (List.mem_append_left _ hx)
    have hsound := (sound_new count).addAll adds
    rw [List.nil_append] at hsound
    rw [List.map_append, addAll_append, addAll_append, ← ih hadds]
    exact hsound.mapOffsets_addIndexAllmem hf hadds a.1 (hS a (by simp))

/-- In an index that has been filled `add_fsbuf_offsets` applies a change to every offset. -/
theorem Sound.addFsbufOffsets_eq (hcount : 0 < ami.count) (h : ami.Sound adds) (change : FsChange) :
    ami.addFsbufOffsets change.startOff change.delta = ami.mapOffsets change.apply := by
  simp only [addFsbufOffsets, mapOffsets]
  congr 1
  funext i
  split
  · congr 1
    refine List.map_congr_left fun inkw hmem => ?_
    have hle := ((h i).keyword inkw hmem).sorted.imp fun hlt => hlt.le
    rw [IndexKeyword.withOffsets, addInkwFsbufOffsets_eq hle]
    rfl
  · -- no string goes to a bucket behind the last one
    rename_i hi
    have hnil : (ami.indice i).keywords = [] := List.eq_nil_iff_forall_not_mem.mpr fun inkw hmem => by
      have hhash := (h i).hashed inkw hmem
      exact hi (hhash ▸ Nat.mod_lt _ hcount)
    cases hih : ami.indice i with
    | mk keywords empty =>
      rw [hih] at hnil
      obtain rfl : keywords = [] := hnil
      rfl

end AllmemIndex

/-! ## The names of an image -/

variable {b b' : FsBuf} {root : Bytes} {t : Tree}

/-- The names that are indexed are those of the entries, each where its entry stands. -/
theorem Represents.mem_indexEntries (h : Represents b root t) {n : Bytes} {o : ℕ} :
    (n, o) ∈ b.indexEntries ↔
      ∃ q, (t.kindAt (q ++ [n])).isSome ∧ offAt b.firstNameOff t (q ++ [n]) = o := by
  have h' : Represents b root (plug [] t) := h
  rw [h.indexEntries_eq, List.mem_map]
  constructor
  · rintro ⟨x, hx, heq⟩
    obtain ⟨hx, hname⟩ := List.mem_filter.mp hx
    have hname : x.name ≠ [] := by simpa using hname
    obtain ⟨rfl, rfl⟩ := Prod.mk.inj heq
    obtain ⟨hoff, hentry⟩ := h'.off_eq hx hname
    have hpath : x.path = x.path.dropLast ++ [x.name] := by
      rcases List.eq_nil_or_concat' x.path with hnil | ⟨q, m, hqm⟩
      · exact absurd (by rw [Item.name, hnil]; rfl) hname
      · rw [Item.name, hqm]
        simp
    rw [hpath] at hoff hentry
    exact ⟨_, by rwa [isSome_kindAt], hoff.symm⟩
  · rintro ⟨q, hsome, rfl⟩
    rw [isSome_kindAt] at hsome
    obtain ⟨x, hx, hname, hpath⟩ := (h'.mem_items_iff (q ++ [n])).mpr ⟨by simp, hsome⟩
    have hpath : x.path = q ++ [n] := hpath
    refine ⟨x, List.mem_filter.mpr ⟨hx, by simpa using hname⟩, Prod.ext ?_ ?_⟩
    · rw [Item.name, hpath]
      simp
    · rw [(h'.off_eq hx hname).1, hpath]
      rfl

theorem treeSize_snoc {k : Tree} {n : Bytes} {e : Entry Bytes} (he : e.kids = .nil) :
    treeSize (k ++ cons n e .nil) = treeSize k + gapSize n e k := by
  have hbelow := belowSize_single he n
  rw [gapSize, treeSize_of_ne_nil (append_cons_ne_nil k .nil n e), entriesSize_append, belowSize_append, hbelow]
  by_cases hk : k = .nil
  · rw [hk, if_pos rfl, treeSize_nil, entriesSize_nil, belowSize_nil]
    omega
  · rw [if_neg hk, treeSize_of_ne_nil hk]
    omega

theorem gapSize_pos (n : Bytes) (e : Entry Bytes) (k : Tree) : 0 < gapSize n e k := by
  rw [gapSize]
  cases e with
  | leaf =>
    rw [cons_leaf, entriesSize_leaf]
    omega
  | node _ =>
    rw [cons_node, entriesSize_node]
    omega

/-- A gap that fits moves what is behind it. -/
theorem FsChange.apply_of_fits {start size tail o : ℕ} (hfit : tail + size ≤ 2 ^ 32) (ho : o < tail) :
    FsChange.apply ⟨start, (size : ℕ)⟩ o = if start ≤ o then o + size else o := by
  have hadd := addDelta_of_nonneg o (size : ℤ) (by omega) (by omega)
  simp only [FsChange.apply]
  split <;> omega

theorem FsChange.strictMonoOn_apply {start size tail : ℕ} (hfit : tail + size ≤ 2 ^ 32) :
    StrictMonoOn (FsChange.apply ⟨start, (size : ℕ)⟩) {o | o < tail} := by
  intro o ho o' ho' hlt
  rw [FsChange.apply_of_fits hfit ho, FsChange.apply_of_fits hfit ho']
  split <;> split <;> omega

/-- After an insertion the names are the ones before it, where the change says, and the new one. -/
theorem Represents.perm_indexEntries_insert {c : List (Frame Bytes)} {k : Tree} {n : Bytes} {e : Entry Bytes}
    (h : Represents b root (plug c k)) (hc : Fits c) (he : e.kids = .nil) (hn : n ∉ k.names)
    (h' : Represents b' root (plug c (k ++ cons n e .nil))) {change : FsChange}
    (hchange : change = ⟨runPos b.firstNameOff c + entriesSize k, (gapSize n e k : ℕ)⟩) :
    StrictMonoOn change.apply {o | o < b.tail} ∧ (∀ e ∈ b.indexEntries, e.2 < b.tail) ∧
      (b.indexEntries.map (Prod.map id change.apply) ++ [(n, change.startOff)]).Perm b'.indexEntries := by
  have hfirst : b'.firstNameOff = b.firstNameOff := h'.first_eq.trans h.first_eq.symm
  have hfollows := follows_insert h hc he hn h'
  rw [← hchange] at hfollows
  have hfit : b.tail + gapSize n e k ≤ 2 ^ 32 := by
    have hcap := h.sized.tail_le_max
    have hcap' := h'.sized.tail_le_max
    have hin := runPos_add_le b'.firstNameOff c (treeSize (k ++ cons n e .nil))
    rw [← treeSize_plug, ← h'.tail_eq, treeSize_snoc he] at hin
    omega
  have hmono : StrictMonoOn change.apply {o | o < b.tail} := by
    rw [hchange]
    exact FsChange.strictMonoOn_apply hfit
  have hlt : ∀ e ∈ b.indexEntries, e.2 < b.tail := fun x hx => by
    obtain ⟨q, hsome, hoff⟩ := h.mem_indexEntries.mp hx
    rw [isSome_kindAt] at hsome
    obtain ⟨e', he'⟩ := Option.isSome_iff_exists.mp hsome
    rw [← hoff, h.tail_eq]
    exact DeepinAnything.offAt_lt _ he' (by simp)
  refine ⟨hmono, hlt, (List.perm_ext_iff_of_nodup ?_ h'.nodup_indexEntries.of_map).mpr fun x => ?_⟩
  · -- no offset is moved to where the gap begins
    have hgap : ∀ o < b.tail, change.apply o ≠ change.startOff := fun o ho => by
      have hpos := gapSize_pos n e k
      rw [hchange, FsChange.apply_of_fits hfit ho]
      split <;> simp only <;> omega
    refine List.Nodup.of_map Prod.snd ?_
    rw [List.map_append, List.map_map, List.map_singleton, List.nodup_append]
    refine ⟨?_, List.nodup_singleton _, fun o ho o' ho' => ?_⟩
    · have hsnd : Prod.snd ∘ Prod.map id change.apply = change.apply ∘ (Prod.snd : Bytes × ℕ → ℕ) := rfl
      rw [hsnd, ← List.map_map]
      refine h.nodup_indexEntries.map_on fun o ho o' ho' heq => ?_
      obtain ⟨x, hx, rfl⟩ := List.mem_map.mp ho
      obtain ⟨y, hy, rfl⟩ := List.mem_map.mp ho'
      exact hmono.injOn (hlt x hx) (hlt y hy) heq
    · obtain ⟨x, hx, rfl⟩ := List.mem_map.mp ho
      rw [List.mem_singleton.mp ho']
      exact hgap _ (hlt x hx)
  obtain ⟨m, o⟩ := x
  rw [h'.mem_indexEntries, hfirst, List.mem_append, List.mem_singleton, List.mem_map]
  constructor
  · rintro (⟨⟨m', o'⟩, hmem, heq⟩ | heq)
    · obtain ⟨q, hsome, rfl⟩ := h.mem_indexEntries.mp hmem
      obtain ⟨rfl, rfl⟩ := Prod.mk.inj heq
      obtain ⟨hsome', hoff⟩ := hfollows (q ++ [m']) (by simp) hsome trivial
      exact ⟨q, hsome', hoff.symm⟩
    · obtain ⟨rfl, rfl⟩ := Prod.mk.inj heq
      refine ⟨path c, by rw [kindAt_plug_snoc hc hn he, if_pos rfl]; rfl, ?_⟩
      rw [offAt_plug_cons hc _ hn, hchange]
  · rintro ⟨q, hsome, rfl⟩
    rw [kindAt_plug_snoc hc hn he] at hsome
    by_cases hq : q ++ [m] = path c ++ [n]
    · obtain ⟨rfl, hm⟩ := List.append_inj' hq rfl
      obtain rfl : m = n := by simpa using hm
      right
      rw [offAt_plug_cons hc _ hn, hchange]
    · rw [if_neg hq] at hsome
      left
      refine ⟨(m, _), h.mem_indexEntries.mpr ⟨q, hsome, rfl⟩, Prod.ext rfl ?_⟩
      exact (hfollows (q ++ [m]) (by simp) hsome trivial).2

/-! ## Runs of insertions -/

/-- A buffer, and the index of its names that is kept by the reports of `insert_path`. -/
inductive Maintained (count : ℕ) (root : Bytes) : FsBuf → AllmemIndex → Prop
  | fill {b : FsBuf} {t : Tree} (h : Represents b root t) (ht : t ≠ .nil) :
      Maintained count root b (fillIndex count b.indexEntries)
  | insert {b b' : FsBuf} {ami : AllmemIndex} (hm : Maintained count root b ami) {realloc : ℕ → Bool} {path : CPath}
      {isDir : Bool} {slot change : FsChange} {parent name : Bytes}
      (hret : b.insertPath realloc path.bytes isDir slot = some (.ok, b', change))
      (hsplit : strrchrSlash path.bytes = some (parent, name)) :
      Maintained count root b' (addIndex (ami.addFsbufOffsets change.startOff change.delta) name change.startOff)
  | refused {b b' : FsBuf} {ami : AllmemIndex} (hm : Maintained count root b ami) {realloc : ℕ → Bool} {path : CPath}
      {isDir : Bool} {slot change : FsChange} {ret : Ret} (hne : ret ≠ .ok)
      (hret : b.insertPath realloc path.bytes isDir slot = some (ret, b', change)) : Maintained count root b' ami

/-- What an insertion that succeeds does to the names. -/
theorem insertPath_indexEntries (h : Represents b root t) (ht : t ≠ .nil) {realloc : ℕ → Bool} {path : CPath}
    {isDir : Bool} {slot change : FsChange} {parent name : Bytes}
    (hret : b.insertPath realloc path.bytes isDir slot = some (.ok, b', change))
    (hsplit : strrchrSlash path.bytes = some (parent, name)) :
    (∃ t', Represents b' root t' ∧ t' ≠ .nil) ∧
      StrictMonoOn change.apply {o | o < b.tail} ∧ (∀ e ∈ b.indexEntries, e.2 < b.tail) ∧
      (b.indexEntries.map (Prod.map id change.apply) ++ [(name, change.startOff)]).Perm b'.indexEntries := by
  cases htarget : insertTarget root t path.bytes with
  | error ret =>
    rw [FsBuf.insertPath_error h htarget, Option.some.injEq, Prod.mk.injEq] at hret
    exact absurd hret.1 (FsBuf.insertTarget_error_ne_ok htarget)
  | ok target =>
    obtain ⟨q, k, name'⟩ := target
    obtain ⟨parent', hsplit', hname, hres, hentry, hnew⟩ := insertTarget_eq_ok htarget
    obtain ⟨rfl, rfl⟩ := Prod.mk.inj (Option.some.inj (hsplit'.symm.trans hsplit))
    obtain ⟨hok, hlen⟩ := path.nameOk hsplit hname
    obtain ⟨c, rfl, rfl, hc, hparent⟩ := h.exists_plug_of_resolve hres hentry
    have hkids : (newEntry isDir).kids = .nil := by cases isDir <;> rfl
    rcases (FsBuf.doInsertPath_dir h (fun hroot => by simpa [hroot] using ht) hsplit hok hlen hparent realloc isDir
      slot).2 hnew with ⟨-, heq⟩ | ⟨-, b'', heq, hrep⟩
    · rw [FsBuf.insertPath, heq, Option.some.injEq, Prod.mk.injEq] at hret
      exact absurd hret.1 (by decide)
    · rw [FsBuf.insertPath, heq, Option.some.injEq, Prod.mk.injEq, Prod.mk.injEq] at hret
      obtain ⟨-, rfl, rfl⟩ := hret
      refine ⟨⟨_, hrep, ?_⟩, h.perm_indexEntries_insert hc hkids hnew hrep ?_⟩
      · intro hnil
        have hkind := kindAt_plug_snoc hc hnew hkids (Forest.path c ++ [name'])
        rw [hnil, if_pos rfl] at hkind
        cases hpath : Forest.path c ++ [name'] with
        | nil => simp at hpath
        | cons x xs =>
          rw [hpath] at hkind
          simp [kindAt_cons, find?] at hkind
      · rw [FsBuf.gapSize_eq, show (newEntry isDir).isNode = isDir by cases isDir <;> rfl]

theorem fillIndex_concat (count : ℕ) (entries : List (Bytes × ℕ)) (e : Bytes × ℕ) :
    fillIndex count (entries ++ [e]) = addIndex (fillIndex count entries) e.1 e.2 := by
  rw [fillIndex, List.foldl_append]
  rfl

theorem indexCalls_map (f : ℕ → ℕ) (entries : List (Bytes × ℕ)) :
    indexCalls (entries.map (Prod.map id f)) = (indexCalls entries).map (Prod.map id f) := by
  rw [indexCalls, indexCalls, List.flatMap_map, List.map_flatMap]
  refine List.flatMap_congr fun e _ => ?_
  rw [List.map_map]
  rfl

/-- To apply a change to an index is to fill it with the entries that have been moved. -/
theorem fillIndex_relocated {count tail : ℕ} (hcount : 0 < count) {change : FsChange}
    (hmono : StrictMonoOn change.apply {o | o < tail}) {entries : List (Bytes × ℕ)}
    (hlt : ∀ e ∈ entries, e.2 < tail) :
    fillIndex count (entries.map (Prod.map id change.apply)) =
      (fillIndex count entries).addFsbufOffsets change.startOff change.delta := by
  have hsound := (AllmemIndex.sound_new count).addAll (indexCalls entries)
  rw [List.nil_append] at hsound
  have hcalls : ∀ a ∈ indexCalls entries, a.2 ∈ {o | o < tail} := fun a ha => by
    obtain ⟨e, he, -, hoff⟩ := mem_indexCalls.mp (show (a.1, a.2) ∈ indexCalls entries from ha)
    exact hoff ▸ hlt e he
  rw [fillIndex_eq, fillIndex_eq, indexCalls_map, ← AllmemIndex.mapOffsets_addAll hmono count hcalls,
    hsound.addFsbufOffsets_eq (by rwa [AllmemIndex.count_addAll])]

/-- An index that is kept is one that has been filled with the names as they are now. -/
theorem Maintained.exists_fill {count : ℕ} (hcount : 0 < count) {ami : AllmemIndex}
    (h : Maintained count root b ami) :
    (∃ t, Represents b root t ∧ t ≠ .nil) ∧
      ∃ entries, entries.Perm b.indexEntries ∧ ami = fillIndex count entries := by
  induction h with
  | fill h ht => exact ⟨⟨_, h, ht⟩, _, .refl _, rfl⟩
  | @refused b b' ami hm realloc path isDir slot change ret hne hret ih =>
    rcases FsBuf.doInsertPath_slot hret with ⟨hok, -⟩ | ⟨-, rfl, -⟩
    · exact absurd hok hne
    · exact ih
  | @insert b b' ami hm realloc path isDir slot change parent name hret hsplit ih =>
    obtain ⟨⟨t, h, ht⟩, entries, hperm, rfl⟩ := ih
    obtain ⟨htree, hmono, hlt, hperm'⟩ := insertPath_indexEntries h ht hret hsplit
    refine ⟨htree, entries.map (Prod.map id change.apply) ++ [(name, change.startOff)],
      ((hperm.map _).append_right _).trans hperm', ?_⟩
    rw [fillIndex_concat, fillIndex_relocated hcount hmono fun e he => hlt e (hperm.mem_iff.mp he)]

/-- Whatever has been inserted, the index that is kept is one that the names of the buffer fill, in the order in which
they came. It answers every query just when they can be indexed. -/
theorem maintained_answersQueries_iff {count : ℕ} (hcount : 0 < count) {ami : AllmemIndex}
    (h : Maintained count root b ami) :
    (∃ entries, entries.Perm b.indexEntries ∧ ami = fillIndex count entries) ∧
      ((∀ e ∈ b.indexEntries, (∃ cs, Utf8.decode e.1 = some cs) ∧ e.1.length ≤ nameMax) →
        (AnswersQueries ami b.indexEntries ↔ Indexable count b.indexEntries)) := by
  obtain ⟨⟨t, hrep, -⟩, entries, hperm, rfl⟩ := h.exists_fill hcount
  refine ⟨⟨entries, hperm, rfl⟩, fun hutf8 => ?_⟩
  have hmem : ∀ e, e ∈ entries ↔ e ∈ b.indexEntries := fun e => hperm.mem_iff
  have hoffs : (entries.map Prod.snd).Nodup := (hperm.map Prod.snd).nodup_iff.mpr hrep.nodup_indexEntries
  have hiff := fillIndex_answers_iff count (fun e he => (hutf8 e ((hmem e).mp he)).1) hoffs
    (hrep.offsetsOf_lt hperm)
  exact ⟨fun hans => (hiff.mp (hans.congr fun e => (hmem e).symm)).congr hmem,
    fun hind => (hiff.mpr (hind.congr fun e => (hmem e).symm)).congr hmem⟩

/-- `/c` is inserted beside `/a` and `/b`. -/
theorem maintained_answersQueries_iff_sample : ∃ b' change,
    (imageBuf [47] FsBuf.twoFiles 64).insertPath (fun _ => true) FsBuf.pathC.bytes false ⟨0, 0⟩ =
      some (.ok, b', change) ∧
    ∃ entries, entries.Perm b'.indexEntries ∧
      addIndex ((fillIndex 1 (imageBuf [47] FsBuf.twoFiles 64).indexEntries).addFsbufOffsets change.startOff
        change.delta) [99] change.startOff = fillIndex 1 entries := by
  have hok : ((imageBuf [47] FsBuf.twoFiles 64).insertPath (fun _ => true) FsBuf.pathC.bytes false ⟨0, 0⟩).map
      (·.1) = some .ok := rfl
  obtain ⟨⟨ret, b', change⟩, heq, rfl⟩ := Option.map_eq_some_iff.mp hok
  have hsplit : strrchrSlash FsBuf.pathC.bytes = some ([], [99]) := by decide
  have hfill : Maintained 1 [47] (imageBuf [47] FsBuf.twoFiles 64) _ := .fill FsBuf.represents_twoFiles (by decide)
  exact ⟨b', change, heq, (maintained_answersQueries_iff (by decide) (hfill.insert heq hsplit)).1⟩

end DeepinAnything
