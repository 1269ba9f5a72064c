import Mathlib.Algebra.GroupWithZero.Nat
import DeepinAnything.FsBuf.File
import DeepinAnything.Index.Contains
import DeepinAnything.Lib.Table

/-!
# Saving and loading an index (`index.c`, `index_allmem.c`, `index_allfile.c`)

A saved index has a header with the number of buckets, a table with the number of keywords and the file
offset of each bucket, and the records of the keywords. `LOAD_ALL` reads the records one after the other;
`LOAD_NONE` keeps the file and goes to a bucket through the table. The table has 12 bytes for a bucket and
is written and read with a size of type `uint32_t`.
-/

namespace DeepinAnything

open ByteMem

/-- `index_magic` with its terminator. -/
def indexMagic : Bytes := [70, 83, 73, 0]

/-- `sizeof(inkw_count_off)` -/
def icoSize : ℕ := 12

/-! ## Saving -/

/-- `write_file` at the end of a file that takes all that is written. -/
def appendFile (m : Mem) (size : ℕ) (file : Bytes) : Bytes :=
  (writeFileLoop (fun _ n => n) m size size 0 file).2

/-- The size of a record, as `save_allmem_index` computes it. -/
def inkwSize (inkw : IndexKeyword) : ℕ := 4 * 2 + inkw.str.length + 1 + 4 * inkw.fsbufOffsets.length

/-- The loop that fills the table, for `n` buckets from `i` on. -/
def countOffs (ami : AllmemIndex) : ℕ → ℕ → ℕ → List (ℕ × ℕ)
  | 0, _, _ => []
  | n + 1, i, offset =>
    ((ami.indice i).keywords.length, offset) ::
      countOffs ami n (i + 1) (offset + ((ami.indice i).keywords.map inkwSize).sum)

/-- The bytes of an `inkw_count_off`. -/
def icoBytes (ico : ℕ × ℕ) : Bytes := le32 ico.1 ++ le64 ico.2

/-- `save_index_keyword`, with the file so far. `none` is a write behind the end of `buf`. -/
def saveIndexKeyword (file : Bytes) (inkw : IndexKeyword) : Option Bytes :=
  let s := inkw.str
  let len := inkw.fsbufOffsets.length
  let buf := le32 (u32 (4 + (s.length + 1) + 4 * len)) ++ (le32 len ++ (s ++ [0]))
  if buf.length > nameMax then none
  else
    let offsets := Mem.store ⟨fun _ => 0⟩ 0 (inkw.fsbufOffsets.flatMap le32)
    some (appendFile offsets (u32 (len * 4)) (file ++ buf))

/-- `save_allmem_index`: the file. -/
def saveAllmemIndex (ami : AllmemIndex) : Option Bytes :=
  let file := indexMagic ++ le32 ami.count
  let offset := 4 + 4 + icoSize * ami.count
  let icos := Mem.store ⟨fun _ => 0⟩ 0 ((countOffs ami ami.count 0 offset).flatMap icoBytes)
  let file := appendFile icos (u32 (icoSize * ami.count)) file
  (List.range ami.count).foldlM
    (fun file i => (ami.indice i).keywords.foldlM saveIndexKeyword file) file

/-! ## Loading -/

/-- What `load_index_keyword` comes to, with what is left of the file: the keyword, another keyword than
the one that was asked for, or a failure. -/
inductive LoadKeyword where
  | loaded (inkw : IndexKeyword) (file : Bytes)
  | other (file : Bytes)
  | failed (code : ℕ)

/-- `load_index_keyword` at the start of `file`. -/
def loadIndexKeyword (file : Bytes) (query : Option Bytes) : LoadKeyword :=
  if file.length < 8 then .failed 1
  else
    let size1 := wordOf ((file.drop 4).take 4)
    let size0 := subU32 (wordOf (file.take 4)) 4
    let size0 := subU32 size0 (size1 * 4)
    let file := file.drop 8
    if file.length < size0 then .failed 2
    else
      let s := (file.take size0).takeWhile (· ≠ 0)
      let file := file.drop size0
      if query.any (· ≠ s) then .other (file.drop (4 * size1))
      else
        match readFile file 0 (u32 (size1 * 4)) ⟨fun _ => 0⟩ with
        | none => .failed 7
        | some offsets =>
          .loaded { keyword := setCsString s, fsbufOffsets := offsets.words 0 (size1 % 2 ^ 28), empty := 0 }
            (file.drop (u32 (size1 * 4)))

/-- The inner loop of `load_allmem_index`. -/
def loadKeywords : ℕ → Bytes → Option (List IndexKeyword × Bytes)
  | 0, file => some ([], file)
  | n + 1, file =>
    match loadIndexKeyword file none with
    | .loaded inkw file => (loadKeywords n file).map fun r => (inkw :: r.1, r.2)
    | _ => none

/-- The outer loop of `load_allmem_index`, for `n` buckets from `i` on. -/
def loadHashes (icos : Mem) : ℕ → ℕ → Bytes → Option (List IndexHash)
  | 0, _, _ => some []
  | n + 1, i, file =>
    match loadKeywords (icos.load32 (icoSize * i) % 2 ^ 28) file with
    | none => none
    | some (keywords, file) => (loadHashes icos n (i + 1) file).map (⟨keywords, 0⟩ :: ·)

/-- An index that has been loaded: in memory, or as a file. -/
inductive FsIndex where
  | allmem (ami : AllmemIndex)
  | allfile (count : ℕ) (file : Bytes)

/-- `load_allmem_index` of what is behind the header. `fresh` is what stands in the block that `malloc`
returns for the table. -/
def loadAllmemIndex (fresh : Mem) (file : Bytes) (count : ℕ) : Except ℕ FsIndex :=
  match readFile file 0 (u32 (icoSize * count)) fresh with
  | none => .error 12
  | some icos =>
    match loadHashes icos count 0 (file.drop (u32 (icoSize * count))) with
    | none => .error 14
    | some indice => .ok (.allmem { count := count, indice := fun i => indice.getD i ⟨[], 0⟩ })

/-- `LOAD_ALL` and `LOAD_NONE` -/
inductive LoadPolicy where
  | loadAll
  | loadNone

/-- `load_fs_index` of a file that can be opened: the index, or the code it returns. -/
def loadFsIndex (fresh : Mem) (policy : LoadPolicy) (file : Bytes) : Except ℕ FsIndex :=
  if file.length < 4 ∨ file.take 4 ≠ indexMagic then .error 2
  else if file.length < 8 then .error 3
  else
    let len := wordOf ((file.drop 4).take 4)
    match policy with
    | .loadAll => loadAllmemIndex fresh (file.drop 8) len
    | .loadNone => .ok (.allfile len file)

/-- The loop of `get_index_keyword_allfile`. -/
def getIndexKeywordAllfileLoop (query : Bytes) : ℕ → Bytes → Option IndexKeyword
  | 0, _ => none
  | n + 1, file =>
    match loadIndexKeyword file (some query) with
    | .loaded inkw _ => some inkw
    | .other file => getIndexKeywordAllfileLoop query n file
    | .failed _ => none

/-- `get_index_keyword_allfile` -/
def getIndexKeywordAllfile (count : ℕ) (file query : Bytes) : Option IndexKeyword :=
  let ih := (hash query).toNat % count
  let ico := (file.drop (2 * 4 + ih * icoSize)).take icoSize
  if ico.length < icoSize then none
  else
    let len := wordOf (ico.take 4)
    let off := wordOf ((ico.drop 4).take 4) + 2 ^ 32 * wordOf ((ico.drop 8).take 4)
    if len = 0 then none else getIndexKeywordAllfileLoop query len (file.drop off)

/-- `get_index_keyword` -/
def FsIndex.getIndexKeyword (fsi : FsIndex) (query : Bytes) : Option IndexKeyword :=
  match fsi with
  | .allmem ami => ami.getIndexKeywordAllmem query
  | .allfile count file => getIndexKeywordAllfile count file query

/-- What a caller sees of a keyword: its string and its offsets. -/
def IndexKeyword.answer (inkw : IndexKeyword) : Bytes × List ℕ := (inkw.str, inkw.fsbufOffsets)

/-- The index is saved, and loaded under either policy it answers every query as it did. -/
def SurvivesSaving (ami : AllmemIndex) : Prop :=
  ∃ file, saveAllmemIndex ami = some file ∧ ∀ fresh policy, ∃ fsi,
    loadFsIndex fresh policy file = .ok fsi ∧
    ∀ query, (fsi.getIndexKeyword query).map IndexKeyword.answer =
      (ami.getIndexKeywordAllmem query).map IndexKeyword.answer

/-! ## The file -/

/-- What the format can hold of a keyword. -/
structure Storable (inkw : IndexKeyword) : Prop where
  length_le : inkw.str.length ≤ 32
  zero : (0 : UInt8) ∉ inkw.str
  offset : ∀ o ∈ inkw.fsbufOffsets, o < 2 ^ 32
  short : inkw.fsbufOffsets.length < 2 ^ 28

/-- The record of a keyword. -/
def recordBytes (inkw : IndexKeyword) : Bytes :=
  le32 (4 + (inkw.str.length + 1) + 4 * inkw.fsbufOffsets.length) ++
    (le32 inkw.fsbufOffsets.length ++ (inkw.str ++ ([0] ++ inkw.fsbufOffsets.flatMap le32)))

/-- The records of a bucket. -/
def bucketBytes (ih : IndexHash) : Bytes := ih.keywords.flatMap recordBytes

/-- The table of a file. -/
def tableBytes (ami : AllmemIndex) : Bytes :=
  (countOffs ami ami.count 0 (4 + 4 + icoSize * ami.count)).flatMap icoBytes

/-- The records of a file. -/
def recordsBytes (ami : AllmemIndex) : Bytes :=
  (List.range ami.count).flatMap fun i => bucketBytes (ami.indice i)

/-- The file of an index. -/
def indexFile (ami : AllmemIndex) : Bytes :=
  indexMagic ++ (le32 ami.count ++
    ((tableBytes ami).take (u32 (icoSize * ami.count)) ++ recordsBytes ami))

theorem appendFile_eq (m : Mem) (size : ℕ) (file : Bytes) : appendFile m size file = file ++ m.load 0 size := by
  obtain ⟨n, -, hfile, hok, htrue⟩ := writeFileLoop_spec (fun _ n => n) m 0 file (Nat.le_refl size)
  rw [appendFile, hfile, hok (htrue fun _ _ => Nat.le_refl _)]

theorem length_offsets (xs : List ℕ) : (xs.flatMap le32).length = 4 * xs.length :=
  length_flatMap_const length_le32 xs

theorem length_recordBytes (inkw : IndexKeyword) : (recordBytes inkw).length = inkwSize inkw := by
  simp only [recordBytes, inkwSize, List.length_append, length_le32, length_offsets, List.length_singleton]
  omega

theorem load_store (bs : Bytes) {n : ℕ} (h : n ≤ bs.length) :
    (Mem.store ⟨fun _ => 0⟩ 0 bs).load 0 n = bs.take n := by
  have hall := (Mem.holds_store (m := ⟨fun _ => 0⟩) 0 bs).load_eq
  conv_rhs => rw [← hall, show bs.length = n + (bs.length - n) by omega, Mem.load_add]
  rw [List.take_left' (Mem.length_load _ _)]

theorem saveIndexKeyword_eq {inkw : IndexKeyword} (h : Storable inkw) (file : Bytes) :
    saveIndexKeyword file inkw = some (file ++ recordBytes inkw) := by
  have hlen := h.length_le
  have hshort := h.short
  have hmax : nameMax = 255 := rfl
  have hoffs := length_offsets inkw.fsbufOffsets
  simp only [saveIndexKeyword]
  rw [if_neg (by simp only [List.length_append, length_le32, List.length_singleton]; omega), appendFile_eq,
    u32_of_lt (by omega), u32_of_lt (by omega), load_store _ (by omega), List.take_of_length_le (by omega)]
  simp only [recordBytes, List.append_assoc]

/-- A fold that writes behind the file writes all one after the other. -/
theorem foldlM_writes {α : Type} {f : Bytes → α → Option Bytes} {g : α → Bytes} {xs : List α}
    (h : ∀ x ∈ xs, ∀ file, f file x = some (file ++ g x)) (file : Bytes) :
    xs.foldlM f file = some (file ++ xs.flatMap g) := by
  induction xs generalizing file with
  | nil => simp
  | cons x xs ih =>
    rw [List.foldlM_cons, h x List.mem_cons_self, Option.bind_eq_bind, Option.bind_some,
      ih fun y hy => h y (List.mem_cons_of_mem _ hy)]
    simp

theorem length_countOffs (ami : AllmemIndex) (n i offset : ℕ) : (countOffs ami n i offset).length = n := by
  induction n generalizing i offset with
  | zero => rfl
  | succ n ih => rw [countOffs, List.length_cons, ih]

theorem length_icoBytes (ico : ℕ × ℕ) : (icoBytes ico).length = icoSize := by
  rw [icoBytes, List.length_append, length_le32, length_le64]
  rfl

theorem length_tableBytes (ami : AllmemIndex) : (tableBytes ami).length = icoSize * ami.count := by
  rw [tableBytes, length_flatMap_const length_icoBytes, length_countOffs]

theorem saveAllmemIndex_eq {ami : AllmemIndex} (h : ∀ i, ∀ inkw ∈ (ami.indice i).keywords, Storable inkw) :
    saveAllmemIndex ami = some (indexFile ami) := by
  have hle : u32 (icoSize * ami.count) ≤ (tableBytes ami).length := by
    rw [length_tableBytes]
    exact Nat.mod_le _ _
  rw [saveAllmemIndex, appendFile_eq]
  refine (foldlM_writes (g := fun i => bucketBytes (ami.indice i)) (fun i _ file => ?_) _).trans ?_
  · exact foldlM_writes (fun inkw hmem file => saveIndexKeyword_eq (h i inkw hmem) file) file
  · rw [← tableBytes, load_store _ hle]
    simp only [indexFile, recordsBytes, List.append_assoc]

/-! ## Reading records -/

/-- The keyword that is made from a record. -/
def IndexKeyword.reloaded (inkw : IndexKeyword) : IndexKeyword :=
  { keyword := setCsString inkw.str, fsbufOffsets := inkw.fsbufOffsets, empty := 0 }

@[simp] theorem IndexKeyword.str_reloaded (inkw : IndexKeyword) : inkw.reloaded.str = inkw.str :=
  getCsString_setCsString _

@[simp] theorem IndexKeyword.answer_reloaded (inkw : IndexKeyword) : inkw.reloaded.answer = inkw.answer := by
  rw [answer, str_reloaded, answer, reloaded]

theorem loadIndexKeyword_recordBytes {inkw : IndexKeyword} (h : Storable inkw) (rest : Bytes)
    (query : Option Bytes) :
    loadIndexKeyword (recordBytes inkw ++ rest) query =
      if query.any (· ≠ inkw.str) then .other rest else .loaded inkw.reloaded rest := by
  have hlen := h.length_le
  have hshort := h.short
  have hoffs := length_offsets inkw.fsbufOffsets
  generalize hsize : 4 + (inkw.str.length + 1) + 4 * inkw.fsbufOffsets.length = size
  generalize hn : inkw.fsbufOffsets.length = n at *
  have hrecord : recordBytes inkw ++ rest =
      le32 size ++ (le32 n ++ ((inkw.str ++ [0]) ++ (inkw.fsbufOffsets.flatMap le32 ++ rest))) := by
    simp only [recordBytes, hn, hsize, List.append_assoc]
  have htake : (recordBytes inkw ++ rest).take 4 = le32 size := by rw [hrecord]; rfl
  have htake' : ((recordBytes inkw ++ rest).drop 4).take 4 = le32 n := by rw [hrecord]; rfl
  have hdrop : (recordBytes inkw ++ rest).drop 8 =
      (inkw.str ++ [0]) ++ (inkw.fsbufOffsets.flatMap le32 ++ rest) := by rw [hrecord]; rfl
  have hsize0 : subU32 (subU32 size 4) (n * 4) = inkw.str.length + 1 := by
    have hfirst : subU32 size 4 = size - 4 := subU32_of_le (by omega) (by omega)
    rw [hfirst, subU32_of_le (by omega) (by omega)]
    omega
  have hstr : ((inkw.str ++ [0]).takeWhile fun c => decide (c ≠ 0)) = inkw.str := by
    rw [List.takeWhile_append_of_pos fun c hc => by simpa using fun h0 : c = 0 => h.zero (h0 ▸ hc)]
    simp
  simp only [loadIndexKeyword, htake, htake', hdrop]
  rw [if_neg (by rw [hrecord]; simp; omega), wordOf_le32 (by omega), wordOf_le32 (by omega), hsize0,
    if_neg (by simp), List.take_left' (by simp), List.drop_left' (by simp), hstr]
  split
  · rw [List.drop_left' hoffs]
  · rw [u32_of_lt (by omega), readFile, readFileLoop_eq _ _ _ (Nat.le_refl _), if_pos (by simp; omega),
      List.take_left' (by omega), List.drop_left' (by omega), Nat.mod_eq_of_lt hshort, ← hn]
    simp only [Mem.words_of_holds (Mem.holds_store 0 _) h.offset]
    rfl

theorem loadKeywords_eq {keywords : List IndexKeyword} (h : ∀ inkw ∈ keywords, Storable inkw) (rest : Bytes) :
    loadKeywords keywords.length (keywords.flatMap recordBytes ++ rest) =
      some (keywords.map IndexKeyword.reloaded, rest) := by
  induction keywords with
  | nil => rfl
  | cons inkw keywords ih =>
    rw [List.length_cons, loadKeywords, List.flatMap_cons, List.append_assoc,
      loadIndexKeyword_recordBytes (h inkw List.mem_cons_self)]
    simp [ih fun x hx => h x (List.mem_cons_of_mem _ hx)]

theorem getIndexKeywordAllfileLoop_eq {keywords : List IndexKeyword} (h : ∀ inkw ∈ keywords, Storable inkw)
    (query rest : Bytes) :
    getIndexKeywordAllfileLoop query keywords.length (keywords.flatMap recordBytes ++ rest) =
      (keywords.find? (·.str = query)).map IndexKeyword.reloaded := by
  induction keywords with
  | nil => rfl
  | cons inkw keywords ih =>
    rw [List.length_cons, getIndexKeywordAllfileLoop, List.flatMap_cons, List.append_assoc,
      loadIndexKeyword_recordBytes (h inkw List.mem_cons_self)]
    by_cases heq : inkw.str = query
    · simp [heq]
    · simp [heq, Ne.symm heq, ih fun x hx => h x (List.mem_cons_of_mem _ hx)]

/-! ## Reading the table -/

/-- The records of the buckets from `i` on. -/
def bucketsBytes (ami : AllmemIndex) (i n : ℕ) : Bytes :=
  (List.range' i n).flatMap fun k => bucketBytes (ami.indice k)

theorem recordsBytes_eq (ami : AllmemIndex) : recordsBytes ami = bucketsBytes ami 0 ami.count := by
  rw [recordsBytes, bucketsBytes, List.range_eq_range']

theorem bucketsBytes_succ (ami : AllmemIndex) (i n : ℕ) :
    bucketsBytes ami i (n + 1) = bucketBytes (ami.indice i) ++ bucketsBytes ami (i + 1) n := by
  rw [bucketsBytes, List.range'_succ, List.flatMap_cons, bucketsBytes]

theorem bucketsBytes_add (ami : AllmemIndex) (i n m : ℕ) :
    bucketsBytes ami i (n + m) = bucketsBytes ami i n ++ bucketsBytes ami (i + n) m := by
  rw [bucketsBytes, ← List.range'_append_1, List.flatMap_append, bucketsBytes, bucketsBytes]

theorem length_bucketBytes (ih : IndexHash) : (bucketBytes ih).length = (ih.keywords.map inkwSize).sum := by
  rw [bucketBytes, List.length_flatMap]
  simp only [length_recordBytes]

/-- A row of the table has the number of keywords of its bucket and where its records start. -/
theorem countOffs_getElem (ami : AllmemIndex) {n k : ℕ} (i offset : ℕ) (hk : k < n) :
    getElem (countOffs ami n i offset) k (by rwa [length_countOffs]) =
      ((ami.indice (i + k)).keywords.length, offset + (bucketsBytes ami i k).length) := by
  induction n generalizing i offset k with
  | zero => omega
  | succ n ih =>
    cases k with
    | zero => simp [countOffs, bucketsBytes]
    | succ k =>
      simp only [countOffs, List.getElem_cons_succ]
      rw [ih (i + 1) _ (by omega), bucketsBytes_succ, List.length_append, length_bucketBytes, Nat.add_assoc i,
        Nat.add_comm 1 k, Nat.add_assoc offset]

/-- The bucket that is made from the records of a bucket. -/
def IndexHash.reloaded (ih : IndexHash) : IndexHash := ⟨ih.keywords.map IndexKeyword.reloaded, 0⟩

/-- Buckets whose lengths stand in the table are read back, and the next ones are read behind them. -/
theorem loadHashes_add {ami : AllmemIndex} (h : ∀ i, ∀ inkw ∈ (ami.indice i).keywords, Storable inkw)
    (hshort : ∀ i, (ami.indice i).keywords.length < 2 ^ 28) {icos : Mem} {n : ℕ} (m i : ℕ)
    (hlen : ∀ k, k < n → icos.load32 (icoSize * (i + k)) = (ami.indice (i + k)).keywords.length)
    (rest : Bytes) :
    loadHashes icos (n + m) i (bucketsBytes ami i n ++ rest) =
      (loadHashes icos m (i + n) rest).map
        ((List.range' i n).map (fun k => (ami.indice k).reloaded) ++ ·) := by
  induction n generalizing i with
  | zero => simp [bucketsBytes]
  | succ n ih =>
    have hfirst := hlen 0 (by omega)
    rw [Nat.add_zero] at hfirst
    rw [show n + 1 + m = n + m + 1 by omega, loadHashes, hfirst, Nat.mod_eq_of_lt (hshort i),
      bucketsBytes_succ, List.append_assoc, bucketBytes, loadKeywords_eq (h i)]
    simp only
    rw [ih (i + 1) fun k hk => by
      have := hlen (k + 1) (by omega)
      rwa [← Nat.add_assoc, Nat.add_right_comm] at this]
    rw [show i + 1 + n = i + (n + 1) by omega]
    cases loadHashes icos m (i + (n + 1)) rest <;> simp [List.range'_succ, IndexHash.reloaded]

/-- A bucket that is read back answers as it did. -/
theorem getElem?_inkwPos (ih : IndexHash) (query : Bytes) :
    ih.keywords[ih.inkwPos query]? = ih.keywords.find? (·.str = query) :=
  List.find?_eq_getElem?_findIdx.symm

theorem find?_reloaded (ih : IndexHash) (query : Bytes) :
    (ih.reloaded.keywords.find? (·.str = query)).map IndexKeyword.answer =
      (ih.keywords.find? (·.str = query)).map IndexKeyword.answer := by
  rw [IndexHash.reloaded, List.find?_map, Option.map_map]
  congr 1
  · funext inkw
    exact inkw.answer_reloaded
  · congr 1
    funext inkw
    simp

/-! ## What add_index can leave -/

/-- Every index that `add_index` fills from C strings can be stored. -/
theorem storable_fillIndex {count : ℕ} {calls : List (Bytes × ℕ)}
    (hcalls : ∀ e ∈ calls, (0 : UInt8) ∉ e.1 ∧ e.2 < 2 ^ 32) (i : ℕ) :
    BucketSound count (indexCalls calls) i ((fillIndex count calls).indice i).keywords ∧
    ∀ inkw ∈ ((fillIndex count calls).indice i).keywords, Storable inkw := by
  have hs : BucketSound count (indexCalls calls) i ((fillIndex count calls).indice i).keywords := by
    have := (AllmemIndex.sound_new count).addAll (indexCalls calls) i
    rw [← fillIndex_eq] at this
    rwa [List.nil_append, fillIndex_eq, AllmemIndex.count_addAll, ← fillIndex_eq] at this
  refine ⟨hs, fun inkw hmem => ?_⟩
  have hkw := hs.keyword inkw hmem
  obtain ⟨o, ho⟩ := hkw.known
  obtain ⟨e, he, hstr, -⟩ := mem_indexCalls.mp ho
  obtain ⟨hfound, qs, hqs, -, hle⟩ := infix_of_mem_keywordsOf hstr
  refine ⟨?_, fun h0 => (hcalls e he).1 (hfound.subset h0), fun o' ho' => ?_, hkw.short⟩
  · rw [Utf8.decode_eq_some_iff.mp hqs]
    have := Utf8.length_encode_le qs
    rw [maxKwLen] at hle
    omega
  · obtain ⟨e', he', -, rfl⟩ := mem_indexCalls.mp (hkw.added o' ho')
    exact (hcalls e' he').2

@[simp] theorem count_fillIndex (count : ℕ) (calls : List (Bytes × ℕ)) : (fillIndex count calls).count = count := by
  rw [fillIndex_eq, AllmemIndex.count_addAll]
  rfl

/-! ## Loading a saved index -/

section

variable {ami : AllmemIndex} (hcount : ami.count < 2 ^ 32)
include hcount

theorem loadFsIndex_indexFile (fresh : Mem) (policy : LoadPolicy) :
    loadFsIndex fresh policy (indexFile ami) =
      match policy with
      | .loadAll =>
        loadAllmemIndex fresh ((tableBytes ami).take (u32 (icoSize * ami.count)) ++ recordsBytes ami) ami.count
      | .loadNone => .ok (.allfile ami.count (indexFile ami)) := by
  have hmagic : (indexFile ami).take 4 = indexMagic := rfl
  have hword : ((indexFile ami).drop 4).take 4 = le32 ami.count := rfl
  have hdrop : (indexFile ami).drop 8 =
      (tableBytes ami).take (u32 (icoSize * ami.count)) ++ recordsBytes ami := rfl
  have hlen : 8 ≤ (indexFile ami).length := by simp [indexFile, indexMagic]
  rw [loadFsIndex, if_neg (by rw [not_or, hmagic]; exact ⟨by omega, not_not.mpr rfl⟩), if_neg (by omega)]
  simp only [hword, hdrop, wordOf_le32 hcount]

omit hcount in
/-- The table is read as far as it was written; what `malloc` has put behind it stays. -/
theorem loadAllmemIndex_eq (fresh : Mem) :
    loadAllmemIndex fresh ((tableBytes ami).take (u32 (icoSize * ami.count)) ++ recordsBytes ami) ami.count =
      match loadHashes (fresh.store 0 ((tableBytes ami).take (u32 (icoSize * ami.count)))) ami.count 0
        (recordsBytes ami) with
      | none => .error 14
      | some indice => .ok (.allmem { count := ami.count, indice := fun i => indice.getD i ⟨[], 0⟩ }) := by
  have hle : u32 (icoSize * ami.count) ≤ (tableBytes ami).length := by
    rw [length_tableBytes]
    exact Nat.mod_le _ _
  have hlen : ((tableBytes ami).take (u32 (icoSize * ami.count))).length = u32 (icoSize * ami.count) := by
    rw [List.length_take, Nat.min_eq_left hle]
  rw [loadAllmemIndex, readFile, readFileLoop_eq _ _ _ (Nat.le_refl _),
    if_pos (by rw [List.length_append]; omega), List.take_left' hlen, List.drop_left' hlen]

end

theorem wordOf_le32_mod (n : ℕ) : wordOf (le32 n) = n % 2 ^ 32 :=
  Mem.load32_of_holds_mod (Mem.holds_store 0 (le32 n))

/-- The first word of a row that stands in memory. -/
theorem load32_of_row {icos : Mem} {rows : List (ℕ × ℕ)} (h : icos.Holds 0 (rows.flatMap icoBytes)) {k : ℕ}
    (hk : k < rows.length) (hlt : rows[k].1 < 2 ^ 32) : icos.load32 (icoSize * k) = rows[k].1 := by
  have hrow := h.row length_icoBytes hk
  rw [Nat.zero_add, icoBytes, Mem.holds_append] at hrow
  exact Mem.load32_of_holds hrow.1 hlt

section

variable {ami : AllmemIndex} (hst : ∀ i, ∀ inkw ∈ (ami.indice i).keywords, Storable inkw)
  (hshort : ∀ i, (ami.indice i).keywords.length < 2 ^ 28)
include hst hshort

/-- With the whole table, `LOAD_ALL` brings every bucket back. -/
theorem loadAll_answers (hpos : 0 < ami.count) (htable : icoSize * ami.count < 2 ^ 32) (fresh : Mem) :
    ∃ fsi, loadAllmemIndex fresh ((tableBytes ami).take (u32 (icoSize * ami.count)) ++ recordsBytes ami)
        ami.count = .ok fsi ∧
      ∀ query, (fsi.getIndexKeyword query).map IndexKeyword.answer =
        (ami.getIndexKeywordAllmem query).map IndexKeyword.answer := by
  have hwhole : (tableBytes ami).take (u32 (icoSize * ami.count)) = tableBytes ami :=
    List.take_of_length_le (by rw [length_tableBytes, u32_of_lt htable])
  have hrows : (fresh.store 0 (tableBytes ami)).Holds 0 (tableBytes ami) := Mem.holds_store _ _
  have hload := @loadHashes_add ami hst hshort (fresh.store 0 (tableBytes ami)) ami.count 0 0
    (fun k hk => ?_) []
  swap
  · have hk' : k < (countOffs ami ami.count 0 (4 + 4 + icoSize * ami.count)).length := by
      rwa [length_countOffs]
    have hrow := countOffs_getElem ami 0 (4 + 4 + icoSize * ami.count) hk
    have := hshort k
    rw [Nat.zero_add] at hrow ⊢
    rw [load32_of_row hrows hk' (by rw [hrow]; simp only; omega), hrow]
  rw [Nat.add_zero, List.append_nil, ← recordsBytes_eq] at hload
  rw [loadAllmemIndex_eq, hwhole, hload]
  refine ⟨_, rfl, fun query => ?_⟩
  -- the bucket of the query is one of those that were read
  have hlt : (hash query).toNat % ami.count < ami.count := Nat.mod_lt _ hpos
  simp only [FsIndex.getIndexKeyword, AllmemIndex.getIndexKeywordAllmem, AllmemIndex.bucket,
    List.append_nil, getElem?_inkwPos]
  rw [List.getD_eq_getElem _ _ (by simpa using hlt)]
  simp only [List.getElem_map, List.getElem_range', Nat.zero_add, Nat.one_mul]
  exact find?_reloaded _ query

/-- With the whole table, `LOAD_NONE` finds every bucket. -/
theorem loadNone_answers (hpos : 0 < ami.count) (htable : icoSize * ami.count < 2 ^ 32)
    (hfile : (indexFile ami).length < 2 ^ 63) (query : Bytes) :
    (getIndexKeywordAllfile ami.count (indexFile ami) query).map IndexKeyword.answer =
      (ami.getIndexKeywordAllmem query).map IndexKeyword.answer := by
  have hico : icoSize = 12 := rfl
  have hwhole : (tableBytes ami).take (u32 (icoSize * ami.count)) = tableBytes ami :=
    List.take_of_length_le (by rw [length_tableBytes, u32_of_lt htable])
  generalize hi : (hash query).toNat % ami.count = i
  have hlt : i < ami.count := hi ▸ Nat.mod_lt _ hpos
  have hbytes : indexFile ami = (indexMagic ++ le32 ami.count) ++ (tableBytes ami ++ recordsBytes ami) := by
    rw [indexFile, hwhole, List.append_assoc]
  have hhead : (indexMagic ++ le32 ami.count).length = 8 := rfl
  -- the row of the bucket
  generalize hrows : countOffs ami ami.count 0 (4 + 4 + icoSize * ami.count) = rows
  have hlen : rows.length = ami.count := by rw [← hrows, length_countOffs]
  have hrow : getElem rows i (by omega) = ((ami.indice i).keywords.length,
      4 + 4 + icoSize * ami.count + (bucketsBytes ami 0 i).length) := by
    subst hrows
    rw [countOffs_getElem ami 0 _ hlt, Nat.zero_add]
  have htab : tableBytes ami = rows.flatMap icoBytes := by rw [tableBytes, hrows]
  have hread : ((indexFile ami).drop (2 * 4 + i * icoSize)).take icoSize = icoBytes rows[i] := by
    rw [hbytes, ← List.drop_drop, List.drop_left' hhead, List.drop_append_of_le_length
      (by rw [length_tableBytes, Nat.mul_comm]; exact Nat.mul_le_mul_left _ hlt.le), htab, Nat.mul_comm i,
      drop_flatMap_const length_icoBytes (by omega), List.append_assoc, List.take_left' (length_icoBytes _)]
  -- the records of the bucket
  have hsplit : recordsBytes ami = bucketsBytes ami 0 i ++
      (bucketBytes (ami.indice i) ++ bucketsBytes ami (i + 1) (ami.count - i - 1)) := by
    have hadd := bucketsBytes_add ami 0 i (ami.count - i)
    rw [Nat.zero_add, Nat.add_sub_cancel' hlt.le] at hadd
    rw [← bucketsBytes_succ, recordsBytes_eq, hadd, show ami.count - i - 1 + 1 = ami.count - i by omega]
  generalize hoff : 4 + 4 + icoSize * ami.count + (bucketsBytes ami 0 i).length = off at *
  have hoff' : (indexMagic ++ le32 ami.count ++ (tableBytes ami ++ bucketsBytes ami 0 i)).length = off := by
    rw [List.length_append, hhead, List.length_append, length_tableBytes]
    omega
  have hbytes' : indexFile ami = (indexMagic ++ le32 ami.count ++ (tableBytes ami ++ bucketsBytes ami 0 i)) ++
      (bucketBytes (ami.indice i) ++ bucketsBytes ami (i + 1) (ami.count - i - 1)) := by
    rw [hbytes, hsplit]
    simp only [List.append_assoc]
  have hofflt : off < 2 ^ 63 := by
    rw [hbytes', List.length_append] at hfile
    omega
  have hshort' := hshort i
  simp only [getIndexKeywordAllfile, hi, hread, hrow, length_icoBytes, lt_irrefl, if_false]
  have hword : wordOf ((icoBytes ((ami.indice i).keywords.length, off)).take 4) =
      (ami.indice i).keywords.length := wordOf_le32 (by omega)
  have hlow : wordOf (((icoBytes ((ami.indice i).keywords.length, off)).drop 4).take 4) = off % 2 ^ 32 :=
    wordOf_le32_mod off
  have hhigh : wordOf (((icoBytes ((ami.indice i).keywords.length, off)).drop 8).take 4) = off / 2 ^ 32 :=
    wordOf_le32 (by omega)
  rw [hword, hlow, hhigh, Nat.mod_add_div, AllmemIndex.getIndexKeywordAllmem, AllmemIndex.bucket, hi]
  simp only [getElem?_inkwPos]
  by_cases hzero : (ami.indice i).keywords.length = 0
  · rw [if_pos hzero, List.length_eq_zero_iff.mp hzero]
    rfl
  · rw [if_neg hzero, hbytes', List.drop_left' hoff', bucketBytes, getIndexKeywordAllfileLoop_eq (hst i),
      Option.map_map]
    congr 1
    funext inkw
    exact inkw.answer_reloaded

end

/-! ## A table that is not written as a whole -/

/-- A memory that has the table of the file but for the last row. -/
def tableBut (ami : AllmemIndex) (len : ℕ) : Mem :=
  Mem.store ⟨fun _ => 0⟩ 0
    (((countOffs ami ami.count 0 (4 + 4 + icoSize * ami.count)).take (ami.count - 1) ++ [(len, 0)]).flatMap
      icoBytes)

/-- When the last row is not written, `LOAD_ALL` takes the length that it finds in the block. -/
theorem loadAll_tableBut {ami : AllmemIndex} (hst : ∀ i, ∀ inkw ∈ (ami.indice i).keywords, Storable inkw)
    (hshort : ∀ i, (ami.indice i).keywords.length < 2 ^ 28) (hcount : ami.count < 2 ^ 32)
    (htable : ¬ icoSize * ami.count < 2 ^ 32) {len : ℕ} (hlen : len < 2 ^ 28) :
    loadHashes ((tableBut ami len).store 0 ((tableBytes ami).take (u32 (icoSize * ami.count)))) ami.count 0
        (recordsBytes ami) =
      match loadKeywords len (bucketBytes (ami.indice (ami.count - 1))) with
      | none => none
      | some (keywords, _) =>
        some ((List.range' 0 (ami.count - 1)).map (fun k => (ami.indice k).reloaded) ++ [⟨keywords, 0⟩]) := by
  have hico : icoSize = 12 := rfl
  have hpos : 0 < ami.count := by
    rw [hico] at htable
    omega
  generalize hrows : countOffs ami ami.count 0 (4 + 4 + icoSize * ami.count) = rows
  have hlength : rows.length = ami.count := by rw [← hrows, length_countOffs]
  have hlast : (rows.take (ami.count - 1)).length = ami.count - 1 := by
    rw [List.length_take]
    omega
  -- the rows that are written are the same in the block
  have hsame : (tableBytes ami).take (u32 (icoSize * ami.count)) =
      ((rows.take (ami.count - 1) ++ [(len, 0)]).flatMap icoBytes).take (u32 (icoSize * ami.count)) := by
    have hle : u32 (icoSize * ami.count) ≤ ((rows.take (ami.count - 1)).flatMap icoBytes).length := by
      rw [length_flatMap_const length_icoBytes, hlast, u32]
      rw [hico] at htable ⊢
      omega
    have hsplit : tableBytes ami =
        (rows.take (ami.count - 1)).flatMap icoBytes ++ (rows.drop (ami.count - 1)).flatMap icoBytes := by
      rw [← List.flatMap_append, List.take_append_drop, tableBytes, hrows]
    rw [hsplit, List.flatMap_append, List.take_append_of_le_length hle, List.take_append_of_le_length hle]
  have hholds : ((tableBut ami len).store 0 ((tableBytes ami).take (u32 (icoSize * ami.count)))).Holds 0
      ((rows.take (ami.count - 1) ++ [(len, 0)]).flatMap icoBytes) := by
    rw [hsame, tableBut, hrows]
    exact (Mem.holds_store _ _).store_take _
  generalize (tableBut ami len).store 0 ((tableBytes ami).take (u32 (icoSize * ami.count))) = icos at hholds
  have hload := @loadHashes_add ami hst hshort icos (ami.count - 1) 1 0 (fun k hk => ?_)
    (bucketBytes (ami.indice (ami.count - 1)))
  swap
  · have hget : getElem (rows.take (ami.count - 1) ++ [(len, 0)]) k (by simp; omega) =
        ((ami.indice k).keywords.length,
          4 + 4 + icoSize * ami.count + (bucketsBytes ami 0 k).length) := by
      subst hrows
      rw [List.getElem_append_left (by rw [hlast]; exact hk), List.getElem_take,
        countOffs_getElem ami 0 _ (by omega), Nat.zero_add]
    have := hshort k
    rw [Nat.zero_add, load32_of_row hholds (by simp; omega) (by rw [hget]; simp only; omega), hget]
  have hrow : icos.load32 (icoSize * (ami.count - 1)) = len := by
    have hget : getElem (rows.take (ami.count - 1) ++ [(len, 0)]) (ami.count - 1) (by simp; omega) = (len, 0) := by
      rw [List.getElem_append_right (by rw [hlast])]
      simp
    rw [load32_of_row hholds (by simp; omega) (by rw [hget]; simp only; omega), hget]
  have hrecords : recordsBytes ami =
      bucketsBytes ami 0 (ami.count - 1) ++ bucketBytes (ami.indice (ami.count - 1)) := by
    have hadd := bucketsBytes_add ami 0 (ami.count - 1) 1
    rw [Nat.zero_add, show ami.count - 1 + 1 = ami.count by omega, bucketsBytes_succ] at hadd
    simpa [recordsBytes_eq, bucketsBytes] using hadd
  rw [show ami.count - 1 + 1 = ami.count by omega, ← hrecords, Nat.zero_add] at hload
  rw [hload, loadHashes, hrow, Nat.mod_eq_of_lt hlen]
  cases loadKeywords len (bucketBytes (ami.indice (ami.count - 1))) with
  | none => rfl
  | some r => rfl

/-- A table of `2 ^ 32` bytes or more is not written as a whole. What the last row then says is a matter of
the block: with another length there, the index is not loaded or has lost its last bucket. -/
theorem not_survivesSaving {ami : AllmemIndex} (hst : ∀ i, ∀ inkw ∈ (ami.indice i).keywords, Storable inkw)
    (hshort : ∀ i, (ami.indice i).keywords.length < 2 ^ 28)
    (hhash : ∀ i, ∀ inkw ∈ (ami.indice i).keywords, ami.bucket inkw.str = i)
    (hcount : ami.count < 2 ^ 32) (htable : ¬ icoSize * ami.count < 2 ^ 32) : ¬ SurvivesSaving ami := by
  rintro ⟨file, hsave, hall⟩
  rw [saveAllmemIndex_eq hst, Option.some.injEq] at hsave
  subst hsave
  cases hlast : (ami.indice (ami.count - 1)).keywords with
  | nil =>
    -- one keyword too many is read at the end of the file
    obtain ⟨fsi, hload, -⟩ := hall (tableBut ami 1) .loadAll
    have hend : loadKeywords 1 (bucketBytes (ami.indice (ami.count - 1))) = none := by
      rw [bucketBytes, hlast]
      rfl
    rw [loadFsIndex_indexFile hcount] at hload
    simp only at hload
    rw [loadAllmemIndex_eq, loadAll_tableBut hst hshort hcount htable (by omega), hend] at hload
    simp at hload
  | cons inkw keywords =>
    -- the keywords of the last bucket are not read
    obtain ⟨fsi, hload, hanswers⟩ := hall (tableBut ami 0) .loadAll
    rw [loadFsIndex_indexFile hcount] at hload
    simp only at hload
    rw [loadAllmemIndex_eq, loadAll_tableBut hst hshort hcount htable (by omega)] at hload
    obtain rfl := Except.ok.inj hload
    have hbucket := hhash _ inkw (by rw [hlast]; exact List.mem_cons_self)
    have hanswer := hanswers inkw.str
    have hlost : ((List.range' 0 (ami.count - 1)).map (fun k => (ami.indice k).reloaded) ++
        [(⟨[], 0⟩ : IndexHash)]).getD (ami.count - 1) ⟨[], 0⟩ = ⟨[], 0⟩ := by
      rw [List.getD_eq_getElem _ _ (by simp), List.getElem_append_right (by simp)]
      simp
    simp only [FsIndex.getIndexKeyword, AllmemIndex.getIndexKeywordAllmem, getElem?_inkwPos,
      AllmemIndex.bucket] at hanswer hbucket
    simp only [hbucket, hlost, hlast] at hanswer
    simp at hanswer

/-- An index that `add_index` has filled is saved and loaded as it was just when its table has less than
`2 ^ 32` bytes. -/
theorem fillIndex_survivesSaving_iff {count : ℕ} (hpos : 0 < count) (hcount : count < 2 ^ 32)
    {calls : List (Bytes × ℕ)} (hcalls : ∀ e ∈ calls, (0 : UInt8) ∉ e.1 ∧ e.2 < 2 ^ 32)
    (hfile : ∀ file, saveAllmemIndex (fillIndex count calls) = some file → file.length < 2 ^ 63) :
    SurvivesSaving (fillIndex count calls) ↔ icoSize * count < 2 ^ 32 := by
  have hst := fun i => (@storable_fillIndex count _ hcalls i).2
  have hshort := fun i => (@storable_fillIndex count _ hcalls i).1.short
  have hc := count_fillIndex count calls
  constructor
  · intro hsurvives
    by_contra htable
    refine not_survivesSaving hst hshort (fun i inkw hmem => ?_) (by rwa [hc]) (by rwa [hc]) hsurvives
    rw [AllmemIndex.bucket, hc]
    exact (storable_fillIndex hcalls i).1.hashed inkw hmem
  · intro htable
    rw [← hc] at hpos hcount htable
    have hsave := saveAllmemIndex_eq hst
    refine ⟨_, hsave, fun fresh policy => ?_⟩
    rw [loadFsIndex_indexFile hcount]
    cases policy with
    | loadAll => exact loadAll_answers hst hshort hpos htable fresh
    | loadNone => exact ⟨_, rfl, loadNone_answers hst hshort hpos htable (hfile _ hsave)⟩

/-! ## An index with one keyword -/

theorem keywordsOf_letter : keywordsOf [97] = [[97]] := by
  have hdec : Utf8.decode [97] = some ['a'] := Utf8.decode_eq_some_iff.mpr (by decide)
  rw [keywordsOf, utf8ToWcharT, hdec]
  decide

theorem fillIndex_letter (count : ℕ) :
    fillIndex count [([97], 10)] = (newAllmemIndex count).addIndexAllmem [97] 10 := by
  rw [fillIndex_eq, indexCalls, List.flatMap_singleton, keywordsOf_letter]
  rfl

/-- The bucket of the letter has one keyword. -/
theorem indice_letter (count : ℕ) :
    ((fillIndex count [([97], 10)]).indice (97 % count)).keywords = [⟨.shortStr [97], [10], 3⟩] := by
  have hbucket : (newAllmemIndex count).bucket [97] = 97 % count := rfl
  obtain ⟨empty, heq⟩ := @AllmemIndex.addIndexAllmem_of_none (newAllmemIndex count) [97] rfl 10
  rw [fillIndex_letter, heq, hbucket, AllmemIndex.indice_setBucket]
  rfl

theorem indice_letter_of_ne {count i : ℕ} (hi : i ≠ 97 % count) :
    ((fillIndex count [([97], 10)]).indice i).keywords = [] := by
  rw [fillIndex_letter, AllmemIndex.indice_addIndexAllmem_of_ne hi]
  rfl

theorem length_indexFile_letter {count : ℕ} (hpos : 0 < count) :
    (indexFile (fillIndex count [([97], 10)])).length = 8 + u32 (icoSize * count) + 14 := by
  have hlt : 97 % count < count := Nat.mod_lt _ hpos
  have hempty : ∀ i n, 97 % count < i ∨ i + n ≤ 97 % count →
      bucketsBytes (fillIndex count [([97], 10)]) i n = [] := fun i n hrange => by
    refine List.flatMap_eq_nil_iff.mpr fun k hk => ?_
    rw [List.mem_range'_1] at hk
    rw [bucketBytes, indice_letter_of_ne (by omega)]
    rfl
  have hadd := bucketsBytes_add (fillIndex count [([97], 10)]) 0 (97 % count) (count - 97 % count - 1 + 1)
  rw [bucketsBytes_succ, Nat.zero_add, hempty 0 (97 % count) (.inr (by omega)),
    hempty (97 % count + 1) _ (.inl (by omega)),
    show 97 % count + (count - 97 % count - 1 + 1) = count by omega, bucketBytes, indice_letter,
    List.nil_append, List.append_nil] at hadd
  have hrecords := recordsBytes_eq (fillIndex count [([97], 10)])
  rw [count_fillIndex, hadd] at hrecords
  have hle : u32 (icoSize * count) ≤ icoSize * count := Nat.mod_le _ _
  rw [indexFile, hrecords]
  simp only [List.length_append, length_le32, List.length_take, length_tableBytes, count_fillIndex,
    Nat.min_eq_left hle]
  have hmagic : indexMagic.length = 4 := rfl
  have hrecord : ([⟨.shortStr [97], [10], 3⟩].flatMap recordBytes).length = 14 := rfl
  omega

/-- With 357913942 buckets the table has `2 ^ 32 + 8` bytes, of which 8 are written. The keyword is not
found in the file. -/
theorem fillIndex_not_survivesSaving :
    ∃ file, saveAllmemIndex (fillIndex 357913942 [([97], 10)]) = some file ∧ file.length = 30 ∧
      (∀ fresh, loadFsIndex fresh .loadNone file = .ok (.allfile 357913942 file)) ∧
      getIndexKeywordAllfile 357913942 file [97] = none ∧
      ((fillIndex 357913942 [([97], 10)]).getIndexKeywordAllmem [97]).map IndexKeyword.answer =
        some ([97], [10]) ∧
      ¬ SurvivesSaving (fillIndex 357913942 [([97], 10)]) := by
  have hst := fun i => (@storable_fillIndex 357913942 [([97], 10)] (by decide) i).2
  have hsave := saveAllmemIndex_eq hst
  have hlen : (indexFile (fillIndex 357913942 [([97], 10)])).length = 30 :=
    length_indexFile_letter (by decide)
  have hload : ∀ fresh, loadFsIndex fresh .loadNone (indexFile (fillIndex 357913942 [([97], 10)])) =
      .ok (.allfile 357913942 (indexFile (fillIndex 357913942 [([97], 10)]))) := fun fresh => by
    rw [loadFsIndex_indexFile (by rw [count_fillIndex]; decide), count_fillIndex]
  have hnone : getIndexKeywordAllfile 357913942 (indexFile (fillIndex 357913942 [([97], 10)])) [97] = none := by
    have hbucket : (hash [97]).toNat % 357913942 = 97 := by decide
    simp only [getIndexKeywordAllfile, hbucket]
    rw [if_pos]
    rw [List.length_take, List.length_drop, hlen]
    decide
  have hsome : ((fillIndex 357913942 [([97], 10)]).getIndexKeywordAllmem [97]).map IndexKeyword.answer =
      some ([97], [10]) := by
    have hbucket : (fillIndex 357913942 [([97], 10)]).bucket [97] = 97 % 357913942 := by
      rw [AllmemIndex.bucket, count_fillIndex]
      rfl
    simp only [AllmemIndex.getIndexKeywordAllmem, hbucket, indice_letter]
    rfl
  refine ⟨_, hsave, hlen, hload, hnone, hsome, ?_⟩
  rintro ⟨file, hfile, hall⟩
  rw [hsave, Option.some.injEq] at hfile
  subst hfile
  obtain ⟨fsi, hfsi, hanswers⟩ := hall ⟨fun _ => 0⟩ .loadNone
  rw [hload] at hfsi
  obtain rfl := Except.ok.inj hfsi
  have hanswer := hanswers [97]
  rw [hsome, FsIndex.getIndexKeyword, hnone] at hanswer
  simp at hanswer

/-- An index with two buckets is saved and loaded as it was. -/
theorem fillIndex_survivesSaving_iff_sample : SurvivesSaving (fillIndex 2 [([97], 10)]) := by
  refine (fillIndex_survivesSaving_iff (by decide) (by decide) (by decide) fun file hfile => ?_).mpr (by decide)
  have hst := fun i => (@storable_fillIndex 2 [([97], 10)] (by decide) i).2
  rw [saveAllmemIndex_eq hst, Option.some.injEq] at hfile
  rw [← hfile, length_indexFile_letter (by decide)]
  decide

end DeepinAnything
