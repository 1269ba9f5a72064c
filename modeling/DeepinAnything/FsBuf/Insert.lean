import DeepinAnything.FsBuf.Repair
import DeepinAnything.FsBuf.Lookup

/-!
# Insertion refines insertion into the tree

`insert_path` puts a new entry behind the last kid of its parent. Either the parent has a run
already, which gets longer by the entry, or a run of one entry is made at the place that
`get_insert_offset` finds. In both cases the bytes behind the new ones move up and the offsets
that span them are repaired.
-/

namespace DeepinAnything

open ByteMem OrderedForest OrderedForest.Forest

/-! ## Growing the buffer -/

/-- The bytes by which `add_capacity` grows the buffer for `size` more. -/
def wholeBlocks (size : ℕ) : ℕ :=
  if size / fsNewBlkSize * fsNewBlkSize < size then size / fsNewBlkSize * fsNewBlkSize + fsNewBlkSize
  else size / fsNewBlkSize * fsNewBlkSize

/-- The buffer is too small for `size` more bytes and cannot be made larger: it would pass
`MAX_FSBUF_SIZE`, or `realloc` has no block of the new size. -/
def GrowthFails (b : FsBuf) (realloc : ℕ → Bool) (size : ℕ) : Prop :=
  b.capacity ≤ b.tail + size ∧
    (maxFsbufSize < b.capacity + wholeBlocks size ∨ realloc (b.capacity + wholeBlocks size) = false)

instance (b : FsBuf) (realloc : ℕ → Bool) (size : ℕ) : Decidable (GrowthFails b realloc size) :=
  inferInstanceAs (Decidable (_ ∧ (_ ∨ _)))

theorem le_wholeBlocks (size : ℕ) : size ≤ wholeBlocks size := by
  have := Nat.lt_div_mul_add (a := size) (b := fsNewBlkSize) (by simp [fsNewBlkSize])
  unfold wholeBlocks
  split <;> omega

theorem wholeBlocks_lt (size : ℕ) : wholeBlocks size < size + fsNewBlkSize := by
  have := Nat.div_mul_le_self size fsNewBlkSize
  have : 0 < fsNewBlkSize := by simp [fsNewBlkSize]
  unfold wholeBlocks
  split <;> omega

namespace FsBuf

variable {b : FsBuf}

theorem addCapacity_eq (hb : b.Sized) (realloc : ℕ → Bool) {size : ℕ} (hsize : size < 2 ^ 31 + 16) :
    b.addCapacity realloc size =
      if b.capacity + wholeBlocks size ≤ maxFsbufSize ∧ realloc (b.capacity + wholeBlocks size) then
        some { b with capacity := b.capacity + wholeBlocks size }
      else none := by
  have hcap := hb.capacity_le
  have hlt := wholeBlocks_lt size
  have hmaxSize : maxFsbufSize = 2 ^ 30 := rfl
  have hblk : fsNewBlkSize = 2 ^ 20 := rfl
  have halloc : (if size / fsNewBlkSize * fsNewBlkSize < size then
      u32 (size / fsNewBlkSize * fsNewBlkSize + fsNewBlkSize)
      else size / fsNewBlkSize * fsNewBlkSize) = wholeBlocks size := by
    rw [wholeBlocks]
    split
    · rename_i h
      rw [wholeBlocks, if_pos h] at hlt
      exact u32_of_lt (by omega)
    · rfl
  rw [addCapacity, halloc]
  simp only [u32_of_lt (show b.capacity + wholeBlocks size < 2 ^ 32 by omega)]
  by_cases hmax : b.capacity + wholeBlocks size ≤ maxFsbufSize
  · simp [hmax, Nat.not_lt_of_le hmax]
  · simp [hmax, Nat.lt_of_not_le hmax]

/-- Before new bytes are put in, the buffer is large enough for them or growing it fails. -/
theorem grow_cases (hb : b.Sized) (realloc : ℕ → Bool) (size : ℕ) (hsize : size < 2 ^ 31 + 16) :
    (GrowthFails b realloc size ∧
      (if u32 (size + b.tail) ≥ b.capacity then b.addCapacity realloc size else some b) = none) ∨
    (¬ GrowthFails b realloc size ∧ ∃ capacity, b.capacity ≤ capacity ∧ b.tail + size ≤ capacity ∧
      capacity ≤ maxFsbufSize ∧
      (if u32 (size + b.tail) ≥ b.capacity then b.addCapacity realloc size else some b) =
        some { b with capacity := capacity }) := by
  have hmax := hb.tail_le_max
  have hle := le_wholeBlocks size
  have htail := hb.tail_le
  rw [u32_of_lt (by omega), addCapacity_eq hb realloc hsize]
  by_cases hroom : b.capacity ≤ b.tail + size
  · rw [if_pos (by omega)]
    by_cases hfail : maxFsbufSize < b.capacity + wholeBlocks size ∨
        realloc (b.capacity + wholeBlocks size) = false
    · refine .inl ⟨⟨hroom, hfail⟩, if_neg ?_⟩
      rintro ⟨h, h'⟩
      rcases hfail with hfail | hfail
      · omega
      · simp [hfail] at h'
    · push Not at hfail
      refine .inr ⟨fun h => ?_, b.capacity + wholeBlocks size, by omega, by omega, hfail.1,
        if_pos ⟨hfail.1, ?_⟩⟩
      · rcases h.2 with h | h
        · exact absurd hfail.1 (by omega)
        · exact hfail.2 h
      · simpa using hfail.2
  · rw [if_neg (by omega)]
    exact .inr ⟨fun h => hroom h.1, b.capacity, le_rfl, by omega, hb.capacity_le, rfl⟩

/-- A buffer that has been grown for `size` bytes is as before but for the capacity, which has room for them. -/
theorem exists_capacity_of_grown (hb : b.Sized) {realloc : ℕ → Bool} {size : ℕ} (hsize : size < 2 ^ 31 + 16)
    {grown : FsBuf}
    (h : (if u32 (size + b.tail) ≥ b.capacity then b.addCapacity realloc size else some b) = some grown) :
    ∃ capacity, b.capacity ≤ capacity ∧ b.tail + size ≤ capacity ∧ capacity ≤ maxFsbufSize ∧
      grown = { b with capacity := capacity } := by
  rcases grow_cases hb realloc size hsize with ⟨-, hgrow⟩ | ⟨-, capacity, hle, hroom, hcap, hgrow⟩
  · cases h.symm.trans hgrow
  · exact ⟨capacity, hle, hroom, hcap, Option.some.inj (h.symm.trans hgrow)⟩

theorem roomExact (hb : b.Sized) {size : ℕ} (hsize : size < 2 ^ 31 + 16) : b.RoomExact size := by
  have hcap : b.capacity ≤ 2 ^ 30 := hb.capacity_le
  have hmax := hb.tail_le_max
  have hdiv := Nat.div_mul_le_self size fsNewBlkSize
  have hblk : fsNewBlkSize = 2 ^ 20 := rfl
  refine ⟨sumExact_of_lt (by omega), fun _ => ?_⟩
  rw [AddCapacityExact]
  generalize size / fsNewBlkSize * fsNewBlkSize = allocSize at hdiv ⊢
  refine ⟨sumExact_of_lt (by omega), sumExact_of_lt ?_, sumExact_of_lt ?_⟩
  · split <;> omega
  · split <;> omega

/-- The bytes of a new entry. -/
def newEntrySize (name : Bytes) (isDir : Bool) : ℕ := name.length + 1 + if isDir then 4 else 1

@[simp] theorem length_entryBytes (name : Bytes) (isDir : Bool) :
    (entryBytes name isDir).length = newEntrySize name isDir := by
  cases isDir <;> simp [entryBytes, newEntrySize]

/-- The bytes `bs` stand at `off`, what was before them stays and what was behind has moved up by
`size`. -/
structure Inserted (b b' : FsBuf) (off size : ℕ) (bs : Bytes) : Prop where
  sized : b'.Sized
  first_eq : b'.firstNameOff = b.firstNameOff
  tail_eq : b'.tail = b.tail + size
  capacity_le : b.capacity ≤ b'.capacity
  before : ∀ i < off, b'.head.get i = b.head.get i
  entry : b'.head.Holds off bs
  behind : SameBytes b.head b'.head off (off + size) (b.tail - off)

/-- Making room for `size` bytes with `memmove` and copying `bs` there. -/
theorem inserted_of_room (off : ℕ) {size capacity : ℕ} {bs : Bytes} (hbs : bs.length ≤ size)
    (hle : b.capacity ≤ capacity) (hroom : b.tail + size ≤ capacity) (hcap : capacity ≤ maxFsbufSize) :
    Inserted b
      { b with
        head := (if b.tail > off then b.head.move (off + size) off (b.tail - off) else b.head).store
          off bs
        capacity := capacity
        tail := b.tail + size } off size bs := by
  refine ⟨⟨hroom, hcap⟩, rfl, rfl, hle, fun i hi => ?_, Mem.holds_store _ _, fun i hi => ?_⟩
  · simp only
    rw [Mem.store_get_of_not_mem (by omega)]
    split
    · rw [Mem.move_get_of_not_mem (by omega)]
    · rfl
  · simp only
    rw [Mem.store_get_of_not_mem (by omega), if_pos (by omega), Mem.move_get_of_mem hi]

/-- `insert_new_name` fails when the buffer cannot grow and puts the entry in otherwise. -/
theorem insertNewName_cases (hb : b.Sized) (realloc : ℕ → Bool) (off : ℕ) {name : Bytes}
    (isDir createParentTag : Bool) (hname : name.length < 2 ^ 31) :
    (GrowthFails b realloc (newEntrySize name isDir + if createParentTag then 5 else 0) ∧
      b.insertNewName realloc off name isDir createParentTag = none) ∨
    (¬ GrowthFails b realloc (newEntrySize name isDir + if createParentTag then 5 else 0) ∧
      ∃ b', b.insertNewName realloc off name isDir createParentTag = some b' ∧
        Inserted b b' off (newEntrySize name isDir + if createParentTag then 5 else 0)
          (entryBytes name isDir)) := by
  set size := newEntrySize name isDir + if createParentTag then 5 else 0 with hsize
  have hlt : size < 2 ^ 31 + 16 := by
    rw [hsize, newEntrySize]; split <;> split <;> omega
  have hentry : newEntrySize name isDir ≤ size := by omega
  have hextra : u32 (name.length + 1 + (if isDir = true then 4 else 1) +
      if createParentTag = true then 1 + 4 else 0) = size :=
    u32_of_lt (hlt.trans (by decide))
  have hmax := hb.tail_le_max
  rw [insertNewName]
  simp only [hextra]
  rcases grow_cases hb realloc _ hlt with ⟨hfail, hgrow⟩ | ⟨hfail, capacity, hle, hroom, hcap, hgrow⟩
  · exact .inl ⟨hfail, by rw [hgrow]; rfl⟩
  · have htail : u32 (b.tail + size) = b.tail + size := u32_of_lt (by omega)
    rw [hgrow, Option.map_some]
    refine .inr ⟨hfail, _, rfl, ?_⟩
    simp only [htail]
    exact inserted_of_room _ (by rwa [length_entryBytes]) hle hroom hcap

/-- The arithmetic and the writes of `insert_new_name`, at an offset that is not behind the tail. -/
theorem insertNewNameExact (hb : b.Sized) (realloc : ℕ → Bool) {off : ℕ} (hoff : off ≤ b.tail) {name : Bytes}
    (isDir createParentTag : Bool) (hname : name.length < 2 ^ 31) :
    b.InsertNewNameExact realloc off name isDir createParentTag := by
  set size := newEntrySize name isDir + if createParentTag then 5 else 0 with hsize
  have hlt : size < 2 ^ 31 + 16 := by
    rw [hsize, newEntrySize]; split <;> split <;> omega
  have hextra : (name.length + 1 + (if isDir = true then 4 else 1) +
      if createParentTag = true then 1 + 4 else 0) = size := rfl
  have hentry : newEntrySize name isDir ≤ size := by omega
  have hmax := hb.tail_le_max
  simp only [InsertNewNameExact, hextra]
  refine ⟨sumExact_of_lt (by omega), roomExact hb hlt, fun grown hgrown => ?_⟩
  obtain ⟨capacity, -, hroom, hcap, rfl⟩ := exists_capacity_of_grown hb hlt hgrown
  have hcap' : capacity ≤ 2 ^ 30 := hcap
  refine ⟨⟨sumExact_of_lt (by simp only; omega), by simp only; omega, fun _ => by simpa using hroom⟩, ?_⟩
  intro b' hsome hdir
  rcases insertNewName_cases hb realloc off isDir createParentTag hname with ⟨-, hnone⟩ | ⟨-, b'', hsome', hins⟩
  · cases hsome.symm.trans hnone
  obtain rfl := Option.some.inj (hsome.symm.trans hsome')
  subst hdir
  have hbytes := hins.entry
  simp only [entryBytes, if_true, List.append_assoc, Mem.holds_append, List.length_singleton] at hbytes
  refine tagExact_of_holds (by omega) ?_ hbytes.2.2
  simp only [newEntrySize, if_true] at hentry ⊢
  omega

end FsBuf

/-- A new entry has nothing below it. -/
def newEntry (isDir : Bool) : Entry Bytes := if isDir then .node .nil else .leaf

/-- The offset of the directory whose listing is in a context, as the edits know it. -/
def dirOff (base : ℕ) : List (Frame Bytes) → ℕ
  | [] => dataStart
  | f :: c => ownerPos base f c

theorem entriesSize_newEntry (name : Bytes) (isDir : Bool) :
    entriesSize (cons name (newEntry isDir) .nil) = FsBuf.newEntrySize name isDir := by
  cases isDir <;> simp [newEntry, FsBuf.newEntrySize]

theorem belowSize_newEntry (name : Bytes) (isDir : Bool) :
    belowSize (cons name (newEntry isDir) .nil) = 0 := by
  cases isDir <;> simp [newEntry]

theorem entriesAt_newEntry {m : Mem} {off : ℕ} {name : Bytes} {isDir : Bool}
    (h : m.Holds off (FsBuf.entryBytes name isDir)) (d : ℕ) :
    EntriesAt m off d (cons name (newEntry isDir) .nil) := by
  cases isDir with
  | false => exact ⟨by simpa [FsBuf.entryBytes, FileAt] using h, trivial⟩
  | true => exact ⟨by simpa [FsBuf.entryBytes, DirAt] using h, trivial⟩

theorem belowAt_newEntry {m : Mem} (off d : ℕ) (name : Bytes) (isDir : Bool) :
    BelowAt m off d (cons name (newEntry isDir) .nil) := by
  cases isDir with
  | false => trivial
  | true => exact ⟨fun h => absurd rfl h, trivial, trivial⟩

theorem valid_newEntry {name : Bytes} (hname : NameOk name) (isDir : Bool) :
    (cons name (newEntry isDir) .nil : Tree).Valid NameOk := by
  cases isDir <;> simp [newEntry, Valid, hname]

namespace FsBuf

variable {b : FsBuf}

/-- The parent tag that closes a run of `e` bytes is written anew, unless it is the root's. -/
theorem setParentOffset_dirOff {base off e e₀ : ℕ} (c : List (Frame Bytes))
    (hup : UpAt b.head off (upRel base e₀ c)) (hoff : off = runPos base c + e)
    (hbase : dataStart < base) (hlt : off < 2 ^ 30) :
    ∃ m', (if dataStart ≠ dirOff base c then b.setParentOffset off (dirOff base c) else b) =
        { b with head := m' } ∧
      UpAt m' off (upRel base e c) ∧ ∀ i, i < off ∨ off + 5 ≤ i → m'.get i = b.head.get i := by
  cases c with
  | nil => exact ⟨b.head, by simp [dirOff], hup, fun _ _ => rfl⟩
  | cons f c =>
    have hle := base_le_runPos base c
    have howner : ownerPos base f c = runPos base c + entriesSize f.left := rfl
    rw [dirOff, if_pos (by omega)]
    exact setParentOffset_owner _ hoff (by omega) hlt

theorem setParentOffsetExact_dirOff {base off e : ℕ} (c : List (Frame Bytes))
    (hoff : off = runPos base c + e) (hbase : 0 < base) (hlt : off < 2 ^ 30) (hin : off + 5 ≤ b.capacity)
    (hroot : dataStart ≠ dirOff base c) : b.SetParentOffsetExact off (dirOff base c) := by
  cases c with
  | nil => exact absurd rfl hroot
  | cons f c => exact setParentOffsetExact_owner _ hoff hbase hlt hin

/-- The image of a tree with the listing `k` in the context `c`, behind whose last entry a new one of `x`
bytes has just been put, at `off`: the bytes stand where they belong, the offsets are from before but for
the parent tag of the listing. -/
structure Lengthened (b : FsBuf) (root : Bytes) (c : List (Frame Bytes)) (k : Tree) (name : Bytes)
    (isDir : Bool) (off x : ℕ) : Prop where
  sized : b.Sized
  root_ok : RootOk root
  root_at : b.head.Holds dataStart (root ++ [0])
  first_eq : b.firstNameOff = dataStart + root.length + 1
  tail_eq : b.tail = b.firstNameOff + plugSize c (treeSize k + x)
  valid : (plug c (k ++ cons name (newEntry isDir) .nil)).Valid NameOk
  ctx : ContextAt b.head b.firstNameOff c true (treeSize k + x) (treeSize k)
  entries : EntriesAt b.head (runPos b.firstNameOff c) 0 k
  entry : ∀ d, EntriesAt b.head off d (cons name (newEntry isDir) .nil)
  up : UpAt b.head (off + x) (upRel b.firstNameOff (entriesSize k + x) c)
  below : BelowAt b.head (off + 5 + x) 0 k

/-- Repairing the offsets after a run has got a new entry. -/
theorem Lengthened.repair {root : Bytes} {c : List (Frame Bytes)} {k : Tree} {name : Bytes} {isDir : Bool}
    {off x : ℕ} (h : Lengthened b root c k name isDir off x) (hk : k ≠ .nil)
    (hoff : off = runPos b.firstNameOff c + entriesSize k) (hx : newEntrySize name isDir = x) :
    ∃ b', (b.updateOffsets off x true = some b' ∧ b.UpdateOffsetsExact off x true) ∧
      Represents b' root (plug c (k ++ cons name (newEntry isDir) .nil)) := by
  have hfirst := h.first_eq
  have htail := h.tail_eq
  have hmax := h.sized.tail_le_max
  have hle := base_le_runPos b.firstNameOff c
  have hin := runPos_add_le b.firstNameOff c (treeSize k)
  have hsize := treeSize_of_ne_nil hk
  rw [plugSize_add] at htail
  obtain ⟨m', hupd, hctx', hent', hbelow', hframe'⟩ := updateOffsets_run x h.sized x hoff h.ctx h.valid
    h.entries h.below (h.entry 0) (by simpa [entriesSize_newEntry, hx] using h.up)
    (by simp) (by simp) (by omega) (by omega) (by rw [entriesSize_newEntry, hx]) rfl
    (by omega) (by rw [plugSize_add]; omega) (by omega)
  rw [plugSize_add] at hframe'
  have hsame : ∀ {a l : ℕ}, off ≤ a → a + l ≤ off + 5 + x → SameBytes b.head m' a a l := fun ha hl i hi =>
    hframe' _ (by omega)
  have htree : treeSize (k ++ cons name (newEntry isDir) .nil) = treeSize k + x := by
    rw [treeSize_of_ne_nil (append_cons_ne_nil _ _ _ _), entriesSize_append, belowSize_append,
      entriesSize_newEntry, belowSize_newEntry, hx]
    omega
  refine ⟨{ b with head := m' }, hupd, h.root_ok, ?_, hfirst, ?_, h.sized.with_head m', ?_, h.valid⟩
  · refine h.root_at.congr fun i hi => hframe' _ ?_
    simp only [List.length_append, List.length_singleton] at hi
    omega
  · rw [treeSize_plug, htree, plugSize_add]
    exact htail
  · refine treeAt_of_run (append_cons_ne_nil _ _ _ _) (by rwa [htree]) ?_ ?_ ?_
    · rw [entriesAt_append, entriesSize_newEntry, hx, ← hoff, Nat.zero_add]
      exact ⟨hent', (h.entry _).congr (hsame le_rfl (by rw [entriesSize_newEntry]; omega))⟩
    · rw [entriesSize_append, entriesSize_newEntry, hx, ← Nat.add_assoc, ← hoff]
      exact h.up.congr (hsame (by omega) (by omega))
    · rw [entriesSize_append, entriesSize_newEntry, hx, belowAt_append, entriesSize_newEntry, hx,
        ← Nat.add_assoc, ← hoff, Nat.zero_add, Nat.add_right_comm off x 5]
      exact ⟨hbelow', belowAt_newEntry _ _ _ _⟩

/-- What has been put in behind the last entry of a run is found there, and the parent tag of the run is
written anew behind it. -/
theorem Inserted.lengthened {b₁ : FsBuf} {root : Bytes} {c : List (Frame Bytes)} {k : Tree} {name : Bytes}
    {isDir : Bool} {base off x : ℕ} (hins : Inserted b b₁ off x (entryBytes name isDir))
    (h : Represents b root (plug c k)) (hk : k ≠ .nil) (hname : NameOk name) (hnew : name ∉ k.names)
    (hbase : b.firstNameOff = base) (hoff : off = runPos base c + entriesSize k)
    (hx : newEntrySize name isDir = x) :
    b₁.getFolderTailOffset off = off + x ∧
      (dataStart ≠ dirOff base c → b₁.SetParentOffsetExact (off + x) (dirOff base c)) ∧
      ∃ m, (if dataStart ≠ dirOff base c then b₁.setParentOffset (off + x) (dirOff base c) else b₁) =
          { b₁ with head := m } ∧
        Lengthened { b₁ with head := m } root c k name isDir off x := by
  have hpos := h.first_pos
  have hle := base_le_runPos base c
  have hfit := h.fits
  have htail := h.tail_eq
  obtain ⟨hctx, hent, hup, hbelow⟩ := h.image.run hk
  rw [hbase] at hpos hfit htail hctx hent hup hbelow
  rw [treeSize_plug] at hfit htail
  have hin := runPos_add_le base c (treeSize k)
  have hsize := treeSize_of_ne_nil hk
  have hsized := hins.sized
  have hfirst := hins.first_eq
  have htail₁ := hins.tail_eq
  have hcap := hsized.tail_le
  have hlt := hsized.tail_le_max
  -- the run with the new entry, its parent tag moved but not repaired
  have hup₁ : UpAt b₁.head (off + x) (upRel base (entriesSize k) c) := by
    rw [← hoff] at hup
    exact hup.congr (hins.behind.mono (by omega))
  have htailOff : b₁.getFolderTailOffset off = off + x := by
    have := getFolderTailOffset_eq hsized (entriesAt_newEntry hins.entry 0)
      (by rw [entriesSize_newEntry, hx]; exact hup₁.1) (valid_newEntry hname isDir)
      (by rw [entriesSize_newEntry]; omega)
    rwa [entriesSize_newEntry, hx] at this
  have hend : off + x = runPos base c + (entriesSize k + x) := by omega
  obtain ⟨m₂, hset, hup₂, hframe₂⟩ := setParentOffset_dirOff c hup₁ hend hpos (by omega)
  refine ⟨htailOff, setParentOffsetExact_dirOff c hend (by omega) (by omega) (by omega), m₂, hset, ?_⟩
  have hbefore : SameBytes b.head m₂ 0 0 off := fun i hi => by
    rw [hframe₂ _ (by omega), hins.before _ (by omega)]
  have hbehind : SameBytes b.head m₂ (off + 5) (off + 5 + x) (b.tail - off - 5) := fun i hi => by
    rw [hframe₂ _ (by omega), ← hins.behind.sub (k := 5) (l := b.tail - off - 5) (by omega) i hi]
    congr 1
    omega
  refine ⟨hsized.with_head m₂, h.root_ok, ?_, hfirst.trans h.first_eq, ?_, ?_, ?_, ?_, fun d => ?_, ?_, ?_⟩
  · have hfirst' := h.first_eq
    refine h.root_at.congr fun i hi => ?_
    simp only [List.length_append, List.length_singleton] at hi
    simpa using hbefore (dataStart + i) (by omega)
  · simp only [plugSize_add, hfirst]
    omega
  · refine h.valid.replug ((valid_append _ _).mpr ⟨Valid.of_plug h.valid, valid_newEntry hname isDir, ?_⟩)
    intro n hn
    simpa using fun he : n = name => hnew (he ▸ hn)
  · simp only [hfirst, hbase]
    refine hctx.congr ?_ ?_ (n := b.tail - (runPos base c + treeSize k)) (by omega)
    · simpa using hbefore.sub (k := base) (l := runPos base c - base) (by omega)
    · have := hbehind.sub (k := belowSize k) (l := b.tail - (runPos base c + treeSize k)) (by omega)
      convert this using 1 <;> omega
  · simp only [hfirst, hbase]
    exact hent.congr (by simpa using hbefore.sub (k := runPos base c) (l := entriesSize k) (by omega))
  · refine (entriesAt_newEntry hins.entry d).congr fun i hi => hframe₂ _ ?_
    rw [entriesSize_newEntry, hx] at hi
    omega
  · simpa only [hfirst, hbase] using hup₂
  · rw [← hoff] at hbelow
    exact hbelow.congr (hbehind.mono (by omega))

theorem toInt32_newEntrySize {name : Bytes} {isDir : Bool} {x : ℕ} (hx : newEntrySize name isDir = x)
    (hlt : x < 2 ^ 31) : toInt32 (name.length + 1 + if isDir then 4 else 1) = x := by
  subst hx
  exact toInt32_of_lt hlt

/-- `insert_path` puts the entry behind the kids that the parent has. -/
theorem insertEntry_run {root : Bytes} {c : List (Frame Bytes)} {k : Tree} {name : Bytes}
    {isDir : Bool} {base off x : ℕ} (h : Represents b root (plug c k)) (hk : k ≠ .nil)
    (hname : NameOk name) (hnew : name ∉ k.names) (hlen : name.length < 2 ^ 31)
    (hbase : b.firstNameOff = base) (hoff : off = runPos base c + entriesSize k)
    (hx : newEntrySize name isDir = x) (realloc : ℕ → Bool) (change : FsChange) :
    (GrowthFails b realloc x ∧
      b.insertEntry realloc (dirOff base c) off name isDir false change = some (.noMem, b, change)) ∨
    (¬ GrowthFails b realloc x ∧ ∃ b',
      b.insertEntry realloc (dirOff base c) off name isDir false change = some (.ok, b', ⟨off, x⟩) ∧
      Represents b' root (plug c (k ++ cons name (newEntry isDir) .nil))) := by
  have hins := insertNewName_cases h.sized realloc off isDir false hlen
  simp only [Bool.false_eq_true, if_false, Nat.add_zero, hx] at hins
  rcases hins with ⟨hfail, hnone⟩ | ⟨hfail, b₁, hsome, hins⟩
  · exact .inl ⟨hfail, by rw [insertEntry, hnone]⟩
  refine .inr ⟨hfail, ?_⟩
  have hmax := hins.sized.tail_le_max
  have htail := hins.tail_eq
  obtain ⟨htailOff, -, m, hset, hlengthened⟩ := hins.lengthened h hk hname hnew hbase hoff hx
  obtain ⟨b', hupd, hrep⟩ := hlengthened.repair hk (by simp only [hins.first_eq, hbase, hoff]) hx
  refine ⟨b', ?_, hrep⟩
  rw [insertEntry, hsome]
  simp only [Bool.false_eq_true, if_false, htailOff, hset, toInt32_newEntrySize hx (by omega), hupd.1]
  rfl

theorem insertEntryExact_run {root : Bytes} {c : List (Frame Bytes)} {k : Tree} {name : Bytes}
    {isDir : Bool} {base off : ℕ} (h : Represents b root (plug c k)) (hk : k ≠ .nil)
    (hname : NameOk name) (hnew : name ∉ k.names) (hlen : name.length < 2 ^ 31)
    (hbase : b.firstNameOff = base) (hoff : off = runPos base c + entriesSize k) (realloc : ℕ → Bool) :
    b.InsertEntryExact realloc (dirOff base c) off name isDir false := by
  have hin := runPos_add_le base c (treeSize k)
  have htail := h.tail_eq
  have hsize := treeSize_of_ne_nil hk
  rw [hbase, treeSize_plug] at htail
  refine ⟨insertNewNameExact h.sized realloc (by omega) isDir false hlen, fun b₁ hsome => ?_⟩
  have hins := insertNewName_cases h.sized realloc off isDir false hlen
  simp only [Bool.false_eq_true, if_false, Nat.add_zero] at hins
  rcases hins with ⟨-, hnone⟩ | ⟨-, b₂, hsome', hins⟩
  · cases hsome.symm.trans hnone
  obtain rfl := Option.some.inj (hsome'.symm.trans hsome)
  have hmax := hins.sized.tail_le_max
  have htail₁ := hins.tail_eq
  obtain ⟨htailOff, hexact, m, hset, hlengthened⟩ := hins.lengthened h hk hname hnew hbase hoff rfl
  obtain ⟨b', hupd, -⟩ := hlengthened.repair hk (by simp only [hins.first_eq, hbase, hoff]) rfl
  have hdelta := toInt32_newEntrySize (show newEntrySize name isDir = _ from rfl) (by omega)
  simp only [hdelta, Bool.false_eq_true, if_false, htailOff, hset]
  exact ⟨rfl, fun hroot => ⟨hins.sized.readsExact, hexact hroot⟩, hupd.2⟩

/-- The image of a tree with the listing `k` in the context `c`, whose bytes have just been put in:
they stand where they belong, the offsets that span them are from before. -/
structure Attached (b : FsBuf) (root : Bytes) (c : List (Frame Bytes)) (k : Tree) : Prop where
  sized : b.Sized
  root_ok : RootOk root
  root_at : b.head.Holds dataStart (root ++ [0])
  first_eq : b.firstNameOff = dataStart + root.length + 1
  tail_eq : b.tail = b.firstNameOff + plugSize c (treeSize k)
  valid : (plug c k).Valid NameOk
  ctx : ContextAt b.head b.firstNameOff c true (treeSize k) 0
  entries : EntriesAt b.head (runPos b.firstNameOff c) 0 k
  up : UpAt b.head (runPos b.firstNameOff c + entriesSize k) (upRel b.firstNameOff (entriesSize k) c)
  below : BelowAt b.head (runPos b.firstNameOff c + entriesSize k + 5) 0 k

/-- Repairing the offsets after a listing has been put in. -/
theorem Attached.repair {root : Bytes} {c : List (Frame Bytes)} {k : Tree}
    (h : Attached b root c k) (hk : k ≠ .nil) :
    ∃ b', (b.updateOffsets (runPos b.firstNameOff c) (treeSize k) true = some b' ∧
        b.UpdateOffsetsExact (runPos b.firstNameOff c) (treeSize k) true) ∧
      Represents b' root (plug c k) := by
  have hfirst := h.first_eq
  have htail := h.tail_eq
  have hmax := h.sized.tail_le_max
  have hsize := treeSize_of_ne_nil hk
  have hle := base_le_runPos b.firstNameOff c
  have hin := runPos_add_le b.firstNameOff c (treeSize k)
  rw [plugSize_eq] at htail hin
  obtain ⟨m', hupd, hctx', hframe'⟩ := updateOffsets_first (treeSize k) h.sized rfl h.ctx
    h.valid h.entries h.up (by simp) (by omega) rfl (by omega) (by rw [plugSize_eq]; omega) (by omega)
  have hsame : ∀ {a l : ℕ}, runPos b.firstNameOff c ≤ a →
      a + l ≤ runPos b.firstNameOff c + treeSize k → SameBytes b.head m' a a l :=
    fun ha hl i hi => hframe' _ (by omega)
  refine ⟨_, hupd, h.root_ok, ?_, hfirst, ?_, h.sized.with_head m', ?_, h.valid⟩
  · refine h.root_at.congr fun i hi => hframe' _ ?_
    simp only [List.length_append, List.length_singleton] at hi
    omega
  · rw [treeSize_plug, plugSize_eq]
    exact htail
  · exact treeAt_of_run hk hctx' (h.entries.congr (hsame le_rfl (by omega)))
      (h.up.congr (hsame (by omega) (by omega))) (h.below.congr (hsame (by omega) (by omega)))

/-- Around what has been put in below an empty folder, the parent tag of the new run and the kids offset of
the folder are written. -/
theorem Inserted.attached {b₁ : FsBuf} {root : Bytes} {f : Frame Bytes} {c : List (Frame Bytes)} {name : Bytes}
    {isDir : Bool} {base off x : ℕ} (hins : Inserted b b₁ off (x + 5) (entryBytes name isDir))
    (h : Represents b root (plug (f :: c) .nil)) (hname : NameOk name) (hbase : b.firstNameOff = base)
    (hoff : off = runPos base (f :: c)) (hx : newEntrySize name isDir = x) :
    MovedExact off x ∧ addDelta off x = off + x ∧ b₁.SetParentOffsetExact (off + x) (ownerPos base f c) ∧
      (b₁.setParentOffset (off + x) (ownerPos base f c)).SetKidsOffExact (ownerPos base f c) off ∧
      ∃ m, (b₁.setParentOffset (off + x) (ownerPos base f c)).doSetKidsOff (ownerPos base f c) off =
          { b₁ with head := m } ∧
        Attached { b₁ with head := m } root (f :: c) (cons name (newEntry isDir) .nil) := by
  have hpos := h.first_pos
  have hle := base_le_runPos base c
  have htail := h.tail_eq
  have hctx := ((treeAt_plug _ _ _).mp h.image).1
  have hf : NameOk f.name := ((valid_append _ _).mp (Valid.of_plug (c := c) h.valid)).2.1.1
  simp only [ne_eq, not_true_eq_false, decide_false, treeSize_nil] at hctx
  rw [hbase] at hpos htail hctx
  rw [treeSize_plug, treeSize_nil] at htail
  have hin := runPos_add_le base (f :: c) 0
  have hrun := runPos_cons base f c
  have hsize := frameSize_eq f
  have howner : ownerPos base f c = runPos base c + entriesSize f.left := rfl
  have hsized := hins.sized
  have hcap := hsized.tail_le
  have hfirst := hins.first_eq
  have htail₁ := hins.tail_eq
  have hlt := hsized.tail_le_max
  have hmoved : MovedExact off x := movedExact_of_nonneg (by omega) (by omega)
  have hadd : addDelta off x = off + x := by
    rw [MovedExact] at hmoved
    omega
  have hend : off + x = runPos base (f :: c) + x := by omega
  -- the parent tag of the new run
  obtain ⟨m₂, hset, hup₂, hframe₂⟩ := setParentOffset_owner (b := b₁) base hend (by omega) (by omega)
  have hbefore : SameBytes b.head m₂ 0 0 off := fun i hi => by
    rw [hframe₂ _ (by omega), hins.before _ (by omega)]
  have hbehind : SameBytes b.head m₂ off (off + (x + 5)) (b.tail - off) := fun i hi => by
    rw [hframe₂ _ (by omega), hins.behind i hi]
  have hctx₂ : ContextAt m₂ base (f :: c) false (x + 5) 0 := by
    refine hctx.congr ?_ ?_ (n := b.tail - off) (by omega)
    · simpa using hbefore.sub (k := base) (l := runPos base (f :: c) - base) (by omega)
    · rw [← hoff]
      exact hbehind
  -- the kids offset of the folder
  have hkidsOff : off = if true then runPos base (f :: c) else 0 := by simpa using hoff
  obtain ⟨m₃, hkids, hctx₃, hframe₃⟩ := doSetKidsOff_owner (b := { b₁ with head := m₂ }) off
    hctx₂ hf true hkidsOff (by simp only; omega) (by omega)
  refine ⟨hmoved, hadd, setParentOffsetExact_owner base hend (by omega) (by omega) (by omega), ?_, m₃, ?_, ?_⟩
  · rw [hset]
    exact setKidsOffExact_owner off hctx₂ hf true hkidsOff (by simp only; omega) (by omega)
  · rw [hset, hkids]
  have htree : treeSize (cons name (newEntry isDir) .nil) = x + 5 := by
    rw [treeSize_of_ne_nil (cons_ne_nil _ _ _), entriesSize_newEntry, belowSize_newEntry, hx]
  refine ⟨hsized.with_head m₃, h.root_ok, ?_, hfirst.trans h.first_eq, ?_,
    h.valid.replug (valid_newEntry hname isDir), ?_, ?_, ?_, belowAt_newEntry _ _ _ _⟩
  · have hfirst' := h.first_eq
    refine h.root_at.congr fun i hi => ?_
    simp only [List.length_append, List.length_singleton] at hi
    rw [hframe₃ _ (by omega)]
    simpa using hbefore (dataStart + i) (by omega)
  · simp only [htree, hfirst]
    rw [plugSize_eq]
    omega
  · simpa only [htree, hfirst, hbase] using hctx₃
  · simp only [hfirst, hbase, ← hoff]
    refine (entriesAt_newEntry hins.entry 0).congr fun i hi => ?_
    rw [entriesSize_newEntry, hx] at hi
    rw [hframe₃ _ (by omega), hframe₂ _ (by omega)]
  · simp only [hfirst, hbase, ← hoff, entriesSize_newEntry, hx]
    exact hup₂.congr fun i hi => hframe₃ _ (by omega)

/-- The repair behind an insertion below an empty folder. -/
theorem Inserted.attached_repair {b₁ : FsBuf} {root : Bytes} {f : Frame Bytes} {c : List (Frame Bytes)}
    {name : Bytes} {isDir : Bool} {base off x : ℕ} {m : Mem}
    (hins : Inserted b b₁ off (x + 5) (entryBytes name isDir)) (hbase : b.firstNameOff = base)
    (hoff : off = runPos base (f :: c)) (hx : newEntrySize name isDir = x)
    (hattached : Attached { b₁ with head := m } root (f :: c) (cons name (newEntry isDir) .nil)) :
    ∃ b', (({ b₁ with head := m } : FsBuf).updateOffsets off ((x : ℤ) + (1 + 4)) true = some b' ∧
        ({ b₁ with head := m } : FsBuf).UpdateOffsetsExact off ((x : ℤ) + (1 + 4)) true) ∧
      Represents b' root (plug (f :: c) (cons name (newEntry isDir) .nil)) := by
  have hrepair := hattached.repair (cons_ne_nil _ _ _)
  have hpos : runPos ({ b₁ with head := m } : FsBuf).firstNameOff (f :: c) = off := by
    simp only [hins.first_eq, hbase, ← hoff]
  have htree : treeSize (cons name (newEntry isDir) .nil) = x + 5 := by
    rw [treeSize_of_ne_nil (cons_ne_nil _ _ _), entriesSize_newEntry, belowSize_newEntry, hx]
  have hdelta : (x : ℤ) + (1 + 4) = (x + 5 : ℕ) := by push_cast; omega
  rwa [hpos, htree, ← hdelta] at hrepair

/-- `insert_path` makes a run for the first kid of an empty folder. -/
theorem insertEntry_empty {root : Bytes} {f : Frame Bytes} {c : List (Frame Bytes)} {name : Bytes}
    {isDir : Bool} {base off x : ℕ} (h : Represents b root (plug (f :: c) .nil))
    (hname : NameOk name) (hlen : name.length < 2 ^ 31) (hbase : b.firstNameOff = base)
    (hoff : off = runPos base (f :: c)) (hx : newEntrySize name isDir = x) (realloc : ℕ → Bool)
    (change : FsChange) :
    (GrowthFails b realloc (x + 5) ∧
      b.insertEntry realloc (ownerPos base f c) off name isDir true change =
        some (.noMem, b, change)) ∨
    (¬ GrowthFails b realloc (x + 5) ∧ ∃ b',
      b.insertEntry realloc (ownerPos base f c) off name isDir true change =
        some (.ok, b', ⟨off, (x : ℤ) + (1 + 4)⟩) ∧
      Represents b' root (plug (f :: c) (cons name (newEntry isDir) .nil))) := by
  have hins := insertNewName_cases h.sized realloc off isDir true hlen
  simp only [if_true, hx] at hins
  rcases hins with ⟨hfail, hnone⟩ | ⟨hfail, b₁, hsome, hins⟩
  · exact .inl ⟨hfail, by rw [insertEntry, hnone]⟩
  refine .inr ⟨hfail, ?_⟩
  have hmax := hins.sized.tail_le_max
  have htail := hins.tail_eq
  obtain ⟨-, hadd, -, -, m, hset, hattached⟩ := hins.attached h hname hbase hoff hx
  obtain ⟨b', hupd, hrep⟩ := hins.attached_repair hbase hoff hx hattached
  refine ⟨b', ?_, hrep⟩
  rw [insertEntry, hsome]
  simp only [if_true, toInt32_newEntrySize hx (by omega), hadd, hset, hupd.1]
  rfl

theorem insertEntryExact_empty {root : Bytes} {f : Frame Bytes} {c : List (Frame Bytes)} {name : Bytes}
    {isDir : Bool} {base off : ℕ} (h : Represents b root (plug (f :: c) .nil))
    (hname : NameOk name) (hlen : name.length < 2 ^ 31) (hbase : b.firstNameOff = base)
    (hoff : off = runPos base (f :: c)) (realloc : ℕ → Bool) :
    b.InsertEntryExact realloc (ownerPos base f c) off name isDir true := by
  have hin := runPos_add_le base (f :: c) 0
  have htail := h.tail_eq
  rw [hbase, treeSize_plug, treeSize_nil] at htail
  refine ⟨insertNewNameExact h.sized realloc (by omega) isDir true hlen, fun b₁ hsome => ?_⟩
  have hins := insertNewName_cases h.sized realloc off isDir true hlen
  simp only [if_true] at hins
  rcases hins with ⟨-, hnone⟩ | ⟨-, b₂, hsome', hins⟩
  · cases hsome.symm.trans hnone
  obtain rfl := Option.some.inj (hsome'.symm.trans hsome)
  have hmax := hins.sized.tail_le_max
  have htail₁ := hins.tail_eq
  obtain ⟨hmoved, hadd, hparent, hkids, m, hset, hattached⟩ := hins.attached h hname hbase hoff rfl
  obtain ⟨b', hupd, -⟩ := hins.attached_repair hbase hoff rfl hattached
  have hdelta := toInt32_newEntrySize (show newEntrySize name isDir = _ from rfl) (by omega)
  simp only [hdelta, if_true, hadd, hset]
  exact ⟨rfl, hmoved, hparent, by omega, hkids, hupd.2⟩

/-- The search for a kid of the name: it ends at the parent tag. -/
theorem findSiblingLoop_eq (hb : b.Sized) (name : Bytes) {t : Tree} {off d : ℕ}
    (h : EntriesAt b.head off d t) (hz : b.head.get (off + entriesSize t) = 0)
    (hv : t.Valid NameOk) (hfit : off + entriesSize t < b.tail) (fuel : ℕ)
    (hfuel : t.names.length < fuel) :
    b.findSiblingLoop name fuel off = if name ∈ t.names then none else some (off + entriesSize t) := by
  have hcap := hb.tail_le
  induction t generalizing off d fuel with
  | nil =>
    obtain ⟨fuel, rfl⟩ : ∃ k, fuel = k + 1 := ⟨fuel - 1, by omega⟩
    simp only [entriesSize_nil, Nat.add_zero] at hz
    simp [findSiblingLoop, hz]
  | leaf n r ih =>
    obtain ⟨fuel, rfl⟩ : ∃ k, fuel = k + 1 := ⟨fuel - 1, by omega⟩
    simp only [entriesSize_leaf, names_leaf, List.length_cons, List.mem_cons] at hz hfit hfuel ⊢
    have hne := get_ne_zero_of_holds h.1 hv.1
    rw [findSiblingLoop, if_pos ⟨by omega, hne⟩, strAt_of_file h.1 hv.1 (by omega),
      nextName_of_file h.1 hv.1 (by omega)]
    by_cases hn : n = name
    · simp [hn]
    · have hnext := ih h.2 (by simpa only [Nat.add_assoc] using hz) hv.2.2 (by omega)
        fuel (by omega)
      rw [if_neg hn, hnext]
      simp [Ne.symm hn, Nat.add_assoc]
  | node n k r _ ih =>
    obtain ⟨fuel, rfl⟩ : ∃ k, fuel = k + 1 := ⟨fuel - 1, by omega⟩
    simp only [entriesSize_node, names_node, List.length_cons, List.mem_cons] at hz hfit hfuel ⊢
    have hne := get_ne_zero_of_holds h.1 hv.1
    rw [findSiblingLoop, if_pos ⟨by omega, hne⟩, strAt_of_dir h.1 hv.1 (by omega),
      nextName_of_dir h.1 hv.1 (by omega)]
    by_cases hn : n = name
    · simp [hn]
    · have hnext := ih h.2 (by simpa only [Nat.add_assoc] using hz) hv.2.2.2 (by omega)
        fuel (by omega)
      rw [if_neg hn, hnext]
      simp [Ne.symm hn, Nat.add_assoc]

end FsBuf

/-! ## The path of the new entry -/

theorem strrchrSlash_eq_some {p parent name : Bytes} (h : strrchrSlash p = some (parent, name)) :
    p = parent ++ slash :: name ∧ slash ∉ name := by
  induction p generalizing parent with
  | nil => simp [strrchrSlash] at h
  | cons c cs ih =>
    rw [strrchrSlash] at h
    split at h
    · rename_i parent' name' hcs
      simp only [Option.some.injEq, Prod.mk.injEq] at h
      obtain ⟨rfl, rfl⟩ := h
      obtain ⟨hcs, hname⟩ := ih hcs
      exact ⟨by rw [hcs, List.cons_append], hname⟩
    · rename_i hcs
      split at h
      · rename_i hc
        simp only [Option.some.injEq, Prod.mk.injEq] at h
        obtain ⟨rfl, rfl⟩ := h
        refine ⟨by rw [hc, List.nil_append], ?_⟩
        clear ih
        induction cs with
        | nil => simp
        | cons d ds ih =>
          rw [strrchrSlash] at hcs
          split at hcs
          · simp at hcs
          · rename_i hds
            split at hcs
            · simp at hcs
            · rename_i hd
              simp [ih hds, Ne.symm hd]
      · simp at h

theorem strrchrSlash_append (p : Bytes) {name : Bytes} (hname : slash ∉ name) :
    strrchrSlash (p ++ slash :: name) = some (p, name) := by
  have hnone : strrchrSlash name = none := by
    cases hs : strrchrSlash name with
    | none => rfl
    | some s =>
      obtain ⟨a, r⟩ := s
      have := (strrchrSlash_eq_some hs).1
      exact absurd (this ▸ hname) (by simp)
  induction p with
  | nil => simp [strrchrSlash, hnone]
  | cons c p ih => simp [strrchrSlash, ih]

/-- The bytes an insertion below a listing needs: a parent tag as well when it has no run yet. -/
def insertSize (k : Tree) (name : Bytes) (isDir : Bool) : ℕ :=
  FsBuf.newEntrySize name isDir + if k = .nil then 5 else 0

namespace FsBuf

variable {b : FsBuf}

/-- A directory that a path leads to passes the two tests of `do_insert_path`. -/
theorem dirOff_isDir {root : Bytes} {c : List (Frame Bytes)} {k : Tree} (h : Represents b root (plug c k)) :
    ¬ (dirOff b.firstNameOff c = 0 ∨
      (dataStart ≠ dirOff b.firstNameOff c ∧ b.doIsFile (dirOff b.firstNameOff c))) := by
  have hpos := h.first_pos
  have htail := h.tail_eq
  have hcap := h.sized.tail_le
  rw [treeSize_plug] at htail
  have hin := runPos_add_le b.firstNameOff c (treeSize k)
  cases c with
  | nil => simp [dirOff, dataStart]
  | cons f c =>
    have hle := base_le_runPos b.firstNameOff c
    have hrun := runPos_cons b.firstNameOff f c
    have hsize := frameSize_eq f
    have howner : ownerPos b.firstNameOff f c = runPos b.firstNameOff c + entriesSize f.left := rfl
    have hf : NameOk f.name := ((valid_append _ _).mp (Valid.of_plug (c := c) h.valid)).2.1.1
    rw [dirOff, doIsFile_of_dir ((treeAt_plug _ _ _).mp h.image).1.1.owner hf (by omega)]
    rintro (h0 | ⟨-, h0⟩)
    · omega
    · simp at h0

/-- Where `do_insert_path` finds the kids of the directory, 0 without kids. -/
theorem kidsOffset_dirOff {root : Bytes} {c : List (Frame Bytes)} {k : Tree} (h : Represents b root (plug c k))
    (hroot : c = [] → k ≠ .nil) :
    (if dataStart = dirOff b.firstNameOff c then b.firstNameOff
      else b.getKidsOffset (dirOff b.firstNameOff c)) =
        if k = .nil then 0 else runPos b.firstNameOff c := by
  have hpos := h.first_pos
  have htail := h.tail_eq
  rw [treeSize_plug] at htail
  have hin := runPos_add_le b.firstNameOff c (treeSize k)
  cases c with
  | nil => rw [dirOff, if_pos rfl, if_neg (hroot rfl)]; rfl
  | cons f c =>
    have hle := base_le_runPos b.firstNameOff c
    have howner : ownerPos b.firstNameOff f c = runPos b.firstNameOff c + entriesSize f.left := rfl
    rw [dirOff, if_neg (by omega), getKidsOffset_owner h.sized ((treeAt_plug _ _ _).mp h.image).1.1
      (Valid.of_plug (c := c) h.valid) (by omega)]
    simp [ite_not]

/-- `do_insert_path` once the parent is known to be a directory. -/
theorem doInsertPath_dir {root path parent name : Bytes} {c : List (Frame Bytes)} {k : Tree}
    (h : Represents b root (plug c k)) (hroot : c = [] → k ≠ .nil)
    (hsplit : strrchrSlash path = some (parent, name)) (hname : NameOk name)
    (hlen : name.length < 2 ^ 31) (hparent : b.getPathOffset parent = dirOff b.firstNameOff c)
    (realloc : ℕ → Bool) (isDir : Bool) (change : FsChange) :
    (name ∈ k.names → b.doInsertPath realloc path isDir change = some (.pathExists, b, change)) ∧
    (name ∉ k.names →
      (GrowthFails b realloc (insertSize k name isDir) ∧
        b.doInsertPath realloc path isDir change = some (.noMem, b, change)) ∨
      (¬ GrowthFails b realloc (insertSize k name isDir) ∧ ∃ b',
        b.doInsertPath realloc path isDir change = some (.ok, b',
          ⟨runPos b.firstNameOff c + entriesSize k, insertSize k name isDir⟩) ∧
        Represents b' root (plug c (k ++ cons name (newEntry isDir) .nil)))) := by
  have hpos := h.first_pos
  have hle := base_le_runPos b.firstNameOff c
  have hfit := h.fits
  have htail := h.tail_eq
  have hcap := h.sized.tail_le
  rw [treeSize_plug] at hfit htail
  have hin := runPos_add_le b.firstNameOff c (treeSize k)
  have himage := (treeAt_plug _ _ _).mp h.image
  rw [doInsertPath, hsplit]
  simp only [hname.1, if_false, hparent, dirOff_isDir h, kidsOffset_dirOff h hroot]
  by_cases hk : k = .nil
  · subst hk
    cases c with
    | nil => exact absurd rfl (hroot rfl)
    | cons f c =>
      have hoff := getInsertOffset_eq h.sized f c himage.1 h.valid (by omega)
        (by rw [htail, treeSize_nil])
      simp only [if_true, ne_eq, not_true_eq_false, if_false, dirOff, hoff, names_nil,
        List.not_mem_nil, false_imp_iff, not_false_eq_true, true_imp_iff, true_and, insertSize,
        nil_append, entriesSize_nil, Nat.add_zero]
      simpa using insertEntry_empty h hname hlen rfl rfl rfl realloc change
  · have hsize := treeSize_of_ne_nil hk
    have hnames := length_names_le k
    obtain ⟨-, hent, hup, -⟩ := h.image.run hk
    have hfind := findSiblingLoop_eq h.sized name hent hup.1 (Valid.of_plug h.valid)
      (by omega) b.tail (by omega)
    have h0 : runPos b.firstNameOff c ≠ 0 := by omega
    simp only [hk, if_false, h0, ne_eq, not_false_eq_true, if_true, hfind, insertSize, Nat.add_zero]
    refine ⟨fun hmem => by rw [if_pos hmem], fun hmem => ?_⟩
    rw [if_neg hmem]
    exact insertEntry_run h hk hname hmem hlen rfl rfl rfl realloc change

end FsBuf

/-! ## `insert_path` -/

/-- A path as callers pass it: a C string whose length is an `int`. -/
structure CPath where
  bytes : Bytes
  zero : (0 : UInt8) ∉ bytes
  fits : bytes.length < 2 ^ 31

/-- The insertion that a path asks for on the tree: the address and the listing of the parent and
the new name, or the error that the tree gives. -/
def insertTarget (root : Bytes) (t : Tree) (path : Bytes) :
    Except Ret (List Bytes × Tree × Bytes) :=
  match strrchrSlash path with
  | none => .error .noPath
  | some (parent, name) =>
    if name = [] then .error .noPath
    else
      match resolve root t parent with
      | none => .error .noPath
      | some q =>
        match t.entryAt q with
        | some (.node k) => if name ∈ k.names then .error .pathExists else .ok (q, k, name)
        | _ => .error .noPath

theorem insertTarget_eq_ok {root : Bytes} {t : Tree} {p : Bytes} {q : List Bytes} {k : Tree}
    {name : Bytes} (h : insertTarget root t p = .ok (q, k, name)) :
    ∃ parent, strrchrSlash p = some (parent, name) ∧ name ≠ [] ∧ resolve root t parent = some q ∧
      t.entryAt q = some (.node k) ∧ name ∉ k.names := by
  unfold insertTarget at h
  split at h
  · simp at h
  rename_i parent name' hsplit
  split at h
  · simp at h
  rename_i hname
  split at h
  · simp at h
  rename_i q' hres
  split at h
  · rename_i k' hentry
    split at h
    · simp at h
    rename_i hmem
    simp only [Except.ok.injEq, Prod.mk.injEq] at h
    obtain ⟨rfl, rfl, rfl⟩ := h
    exact ⟨parent, hsplit, hname, hres, hentry, hmem⟩
  · simp at h

/-- The name at the end of a path that is not empty is one that an entry can have. -/
theorem CPath.nameOk (path : CPath) {parent name : Bytes}
    (h : strrchrSlash path.bytes = some (parent, name)) (hne : name ≠ []) :
    NameOk name ∧ name.length < 2 ^ 31 := by
  obtain ⟨hpath, hslash⟩ := strrchrSlash_eq_some h
  have hzero := path.zero
  have hfits := path.fits
  rw [hpath] at hzero hfits
  simp only [List.mem_append, List.mem_cons, not_or] at hzero
  simp only [List.length_append, List.length_cons] at hfits
  exact ⟨⟨hne, hzero.2.2, hslash⟩, by omega⟩

/-- A directory that a path leads to, in its context. -/
theorem Represents.exists_plug_of_resolve {b : FsBuf} {root : Bytes} {t k : Tree}
    (h : Represents b root t) {p : Bytes} {q : List Bytes} (hres : resolve root t p = some q)
    (hentry : t.entryAt q = some (.node k)) :
    ∃ c, t = plug c k ∧ path c = q ∧ Fits c ∧ b.getPathOffset p = dirOff b.firstNameOff c := by
  rcases h.lookup_cases p with ⟨hnone, -⟩ | ⟨hroot, hoff⟩ | ⟨c, l, r, n, e, rfl, hc, hl, hat, hoff⟩
  · simp [hnone] at hres
  · obtain rfl : [] = q := Option.some.inj (hroot.symm.trans hres)
    refine ⟨[], by simpa [entryAt] using hentry, rfl, by simp [Fits], hoff⟩
  · obtain rfl : path c ++ [n] = q := Option.some.inj (hat.symm.trans hres)
    rw [entryAt_plug hc] at hentry
    obtain rfl : e = .node k := by
      simp only [entryAt, find?_append_cons hl] at hentry
      cases e <;> simp_all
    refine ⟨⟨l, n, r⟩ :: c, rfl, rfl, ?_, hoff⟩
    intro f hf
    rcases List.mem_cons.mp hf with rfl | hf
    · exact hl
    · exact hc f hf

namespace FsBuf

variable {b : FsBuf} {root : Bytes} {t : Tree}

/-- When the tree has no place for the entry, `insert_path` says so and leaves the buffer. -/
theorem insertPath_error (h : Represents b root t) {path : CPath} {ret : Ret}
    (he : insertTarget root t path.bytes = .error ret) (realloc : ℕ → Bool) (isDir : Bool)
    (change : FsChange) : b.insertPath realloc path.bytes isDir change = some (ret, b, change) := by
  rw [insertPath]
  rw [insertTarget] at he
  cases hsplit : strrchrSlash path.bytes with
  | none =>
    rw [hsplit] at he
    rw [doInsertPath, hsplit, Except.error.inj he]
  | some s =>
    obtain ⟨parent, name⟩ := s
    simp only [hsplit] at he
    by_cases hname : name = []
    · rw [if_pos hname] at he
      simp [doInsertPath, hsplit, hname, Except.error.inj he]
    rw [if_neg hname] at he
    rcases h.lookup_cases parent with ⟨hnone, hoff⟩ | ⟨hroot, hoff⟩ |
      ⟨c, l, r, n, e, rfl, hc, hl, hat, hoff⟩
    · rw [hnone] at he
      simp [doInsertPath, hsplit, hname, hoff, Except.error.inj he]
    · -- an existing name in the root's listing
      simp only [hroot, entryAt] at he
      split at he
      · rename_i hmem
        have ht : t ≠ .nil := by rintro rfl; simp at hmem
        obtain ⟨hok, hlen⟩ := path.nameOk hsplit hname
        rw [← Except.error.inj he]
        exact (doInsertPath_dir (c := []) (k := t) h (fun _ => ht) hsplit hok hlen hoff realloc isDir
          change).1 hmem
      · simp at he
    · rw [hat] at he
      simp only [entryAt_plug hc, entryAt, find?_append_cons hl] at he
      cases e with
      | leaf =>
        have hpos := h.first_pos
        have hle := base_le_runPos b.firstNameOff c
        have htail := h.tail_eq
        have hcap := h.sized.tail_le
        obtain ⟨-, hent, -, -⟩ := h.image.run (append_cons_ne_nil l r n .leaf)
        have hfile := ((entriesAt_append _ _ _ _).mp hent).2.1
        have hv := ((valid_append _ _).mp (Valid.of_plug h.valid)).2.1
        have hin := runPos_add_le b.firstNameOff c (treeSize (l ++ cons n .leaf r))
        have hsize := treeSize_of_ne_nil (append_cons_ne_nil l r n .leaf)
        rw [treeSize_plug] at htail
        simp only [entriesSize_append, cons_leaf, entriesSize_leaf] at hsize htail hin
        have hisFile := doIsFile_of_file hfile hv.1 (by omega)
        simp only [if_true, Except.error.injEq] at he
        simp only [doInsertPath, hsplit, hname, if_false, hoff, ← he]
        rw [if_pos (.inr ⟨by omega, hisFile⟩)]
      | node k =>
        simp only at he
        split at he
        · rename_i hmem
          have hk : k ≠ .nil := by rintro rfl; simp at hmem
          obtain ⟨hok, hlen⟩ := path.nameOk hsplit hname
          rw [← Except.error.inj he]
          exact (doInsertPath_dir (c := ⟨l, n, r⟩ :: c) h (fun _ => hk) hsplit hok hlen hoff realloc
            isDir change).1 hmem
        · simp at he

/-- Otherwise the new image is that of the tree with the entry, unless the buffer cannot grow. -/
theorem insertPath_ok (h : Represents b root t) (ht : t ≠ .nil) {path : CPath} {q : List Bytes}
    {k : Tree} {name : Bytes} (ho : insertTarget root t path.bytes = .ok (q, k, name))
    (realloc : ℕ → Bool) (isDir : Bool) (change : FsChange) :
    (GrowthFails b realloc (insertSize k name isDir) ∧
      b.insertPath realloc path.bytes isDir change = some (.noMem, b, change)) ∨
    (¬ GrowthFails b realloc (insertSize k name isDir) ∧ ∃ (b' : FsBuf) (off : ℕ),
      b.insertPath realloc path.bytes isDir change =
        some (.ok, b', ⟨off, insertSize k name isDir⟩) ∧
      Represents b' root (t.insert q name (newEntry isDir))) := by
  obtain ⟨parent, hsplit, hname, hres, hentry, hnew⟩ := insertTarget_eq_ok ho
  obtain ⟨hok, hlen⟩ := path.nameOk hsplit hname
  obtain ⟨c, rfl, rfl, hc, hparent⟩ := h.exists_plug_of_resolve hres hentry
  rw [insertPath, insert_plug hc]
  rcases (doInsertPath_dir h (fun hroot => by simpa [hroot] using ht) hsplit hok hlen hparent realloc
    isDir change).2 hnew with hfail | ⟨hroom, b', heq, hrep⟩
  · exact .inl hfail
  · exact .inr ⟨hroom, b', _, heq, hrep⟩

/-- A path with a slash in it has a last one. -/
theorem exists_strrchrSlash {p : Bytes} (h : slash ∈ p) :
    ∃ parent name, strrchrSlash p = some (parent, name) := by
  induction p with
  | nil => simp at h
  | cons c cs ih =>
    rw [strrchrSlash]
    cases hcs : strrchrSlash cs with
    | some s => exact ⟨_, _, rfl⟩
    | none =>
      have hc : c = slash := by
        by_contra hne
        obtain ⟨_, _, hsome⟩ := ih ((List.mem_cons.mp h).resolve_left (Ne.symm hne))
        rw [hcs] at hsome
        simp at hsome
      exact ⟨[], cs, by simp [hc]⟩

/-- `insert_path` refines insertion into the tree. -/
theorem insertPath_refines (h : Represents b root t) (ht : t ≠ .nil) (path : CPath)
    (hroot : root <+: path.bytes) (realloc : ℕ → Bool) (isDir : Bool) (change : FsChange) :
    ∃ parent name, path.bytes = parent ++ slash :: name ∧ slash ∉ name ∧ ∃ ret b' change',
      b.insertPath realloc path.bytes isDir change = some (ret, b', change') ∧
      (ret = .noPath ↔ name = [] ∨
        ¬ ∃ q k, resolve root t parent = some q ∧ t.entryAt q = some (.node k)) ∧
      (ret ≠ .ok → b' = b) ∧
      ∀ q k, name ≠ [] → resolve root t parent = some q → t.entryAt q = some (.node k) →
        (ret = .pathExists ↔ name ∈ k.names) ∧
        (ret = .noMem ↔ name ∉ k.names ∧ GrowthFails b realloc (insertSize k name isDir)) ∧
        (ret = .ok ↔ name ∉ k.names ∧ ¬ GrowthFails b realloc (insertSize k name isDir)) ∧
        (ret = .ok → Represents b' root (t.insert q name (newEntry isDir))) := by
  obtain ⟨r, hr⟩ := h.root_ok.exists_snoc
  have hslash : slash ∈ path.bytes := hroot.subset (by simp [hr])
  obtain ⟨parent, name, hsplit⟩ := exists_strrchrSlash hslash
  obtain ⟨hpath, hname⟩ := strrchrSlash_eq_some hsplit
  refine ⟨parent, name, hpath, hname, ?_⟩
  have hno : insertTarget root t path.bytes = .error .noPath ↔ name = [] ∨
      ¬ ∃ q k, resolve root t parent = some q ∧ t.entryAt q = some (.node k) := by
    rw [insertTarget, hsplit]
    by_cases hempty : name = []
    · simp [hempty]
    cases hres : resolve root t parent with
    | none => simp [hempty, hres]
    | some q =>
      cases hentry : t.entryAt q with
      | none => simp [hempty, hres, hentry]
      | some e =>
        cases e with
        | leaf => simp [hempty, hres, hentry]
        | node k => by_cases hmem : name ∈ k.names <;> simp [hempty, hres, hentry, hmem]
  have hyes : ∀ q k, name ≠ [] → resolve root t parent = some q → t.entryAt q = some (.node k) →
      insertTarget root t path.bytes =
        if name ∈ k.names then .error .pathExists else .ok (q, k, name) := by
    intro q k hne hres hentry
    rw [insertTarget, hsplit]
    simp [hne, hres, hentry]
  cases htarget : insertTarget root t path.bytes with
  | error ret =>
    refine ⟨ret, b, change, insertPath_error h htarget realloc isDir change, ?_, fun _ => rfl, ?_⟩
    · rw [← hno, htarget, Except.error.injEq]
    · intro q k hne hres hentry
      have hcase := hyes q k hne hres hentry
      rw [htarget] at hcase
      by_cases hmem : name ∈ k.names
      · obtain rfl : ret = .pathExists := by simpa [hmem] using hcase
        simp [hmem]
      · simp [hmem] at hcase
  | ok target =>
    obtain ⟨q₀, k₀, name₀⟩ := target
    have hnot : ¬ (name = [] ∨
        ¬ ∃ q k, resolve root t parent = some q ∧ t.entryAt q = some (.node k)) := by
      rw [← hno, htarget]
      simp
    have hsame : ∀ q k, name ≠ [] → resolve root t parent = some q → t.entryAt q = some (.node k) →
        name ∉ k.names ∧ q₀ = q ∧ k₀ = k ∧ name₀ = name := by
      intro q k hne hres hentry
      have hcase := hyes q k hne hres hentry
      rw [htarget] at hcase
      by_cases hmem : name ∈ k.names
      · simp [hmem] at hcase
      · simpa [hmem] using hcase
    rcases insertPath_ok h ht htarget realloc isDir change with
      ⟨hfail, heq⟩ | ⟨hroom, b', off, heq, hrep⟩
    · refine ⟨.noMem, b, change, heq, by simpa using hnot, fun _ => rfl, ?_⟩
      intro q k hne hres hentry
      obtain ⟨hmem, rfl, rfl, rfl⟩ := hsame q k hne hres hentry
      simp [hmem, hfail]
    · refine ⟨.ok, b', _, heq, by simpa using hnot, fun hne => absurd rfl hne, ?_⟩
      intro q k hne hres hentry
      obtain ⟨hmem, rfl, rfl, rfl⟩ := hsame q k hne hres hentry
      simp [hmem, hroom, hrep]

/-- The path `/d/a` for a root `/` with an empty folder `d`. -/
theorem insertPath_refines_sample : ∃ parent name,
    [47, 100, 47, 97] = parent ++ slash :: name ∧ slash ∉ name ∧ ∃ ret b' change',
      (imageBuf [47] (.node [100] .nil .nil) 64).insertPath (fun _ => false) [47, 100, 47, 97] false
        ⟨0, 0⟩ = some (ret, b', change') ∧
      (ret = .ok → Represents b' [47] (.node [100] (.leaf [97] .nil) .nil)) ∧ ret = .ok := by
  have hrep := represents_imageBuf [47] (.node [100] .nil .nil) 64
    ⟨rfl, rfl, by decide⟩ (by decide) (by decide) (by decide)
  obtain ⟨parent, name, hpath, hname, ret, b', change', heq, -, -, hcase⟩ := insertPath_refines hrep
    (by simp) ⟨[47, 100, 47, 97], by decide, by decide⟩ (by decide) (fun _ => false) false ⟨0, 0⟩
  have hsplit := strrchrSlash_append parent hname
  rw [← hpath] at hsplit
  obtain ⟨rfl, rfl⟩ : [47, 100] = parent ∧ [97] = name := by
    have : strrchrSlash [47, 100, 47, 97] = some ([47, 100], [97]) := by decide
    simpa [this] using hsplit
  obtain ⟨-, -, hok, hrep'⟩ := hcase [[100]] .nil (by simp) (by decide) (by decide)
  exact ⟨_, _, hpath, hname, ret, b', change', heq, hrep', hok.mpr ⟨by simp, by decide⟩⟩

end FsBuf

end DeepinAnything
