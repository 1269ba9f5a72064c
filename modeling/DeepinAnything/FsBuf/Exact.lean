import DeepinAnything.FsBuf.Scan
import DeepinAnything.FsBuf.Edit

/-!
# When the 32-bit arithmetic of the edits is exact

Each function of `fs_buf.c` that computes offsets gets a predicate that follows it line by line: the sums
and differences of `uint32_t` that it takes are those of the integers, what it reads back as an `int` is the
signed difference, the bytes it writes lie below the capacity, and a tag it writes holds the relative offset
and the directory mark it was given. The loops that only read test every offset against the tail before they
read there, so for these it is enough to look at all offsets below the tail (`ReadsExact`).
-/

namespace DeepinAnything

open ByteMem OrderedForest OrderedForest.Forest

/-! ## Sums and differences -/

/-- A sum of `uint32_t`, given by its exact value, does not wrap around. -/
def SumExact (n : ℕ) : Prop := u32 n = n

/-- The difference of two `uint32_t` is that of the integers. -/
def DiffExact (a b : ℕ) : Prop := (subU32 a b : ℤ) = a - b

/-- The difference of two `uint32_t`, read back as an `int`, is that of the integers. -/
def DeltaExact (a b : ℕ) : Prop := toInt32 (subU32 a b) = a - b

/-- A `uint32_t` plus an `int` is the sum of the integers. -/
def MovedExact (n : ℕ) (delta : ℤ) : Prop := (addDelta n delta : ℤ) = n + delta

theorem sumExact_of_lt {n : ℕ} (h : n < 2 ^ 32) : SumExact n := u32_of_lt h

theorem diffExact_of_le {a b : ℕ} (h : b ≤ a) (ha : a < 2 ^ 32) : DiffExact a b := by
  rw [DiffExact, subU32_of_le h ha]
  omega

theorem deltaExact_of_lt {a b : ℕ} (ha : a < 2 ^ 31) (hb : b < 2 ^ 31) : DeltaExact a b :=
  toInt32_subU32 ha hb

theorem movedExact_of_nonneg {n : ℕ} {delta : ℤ} (h : 0 ≤ (n : ℤ) + delta) (h' : (n : ℤ) + delta < 2 ^ 32) :
    MovedExact n delta :=
  addDelta_of_nonneg n delta h h'

namespace FsBuf

variable (b : FsBuf)

/-! ## Reading -/

/-- `next_name` -/
def NextNameExact (off : ℕ) : Prop := SumExact (b.nextName off)

/-- `get_kids_offset` -/
def KidsOffsetExact (off : ℕ) : Prop :=
  let tagOff := off + b.strlen off + 1
  SumExact (tagOff + b.getReloffByTag tagOff)

/-- The scans: `do_get_path_offset`, `get_tree_end_offset`, `get_folder_tail_offset` and the search for a
sibling in `do_insert_path`. -/
def ReadsExact : Prop := ∀ off < b.tail, b.NextNameExact off ∧ b.KidsOffsetExact off

/-- `get_path_offset`: the root path is measured with offsets, and the length of the path is an `int` that has
room for two more bytes. -/
def PathOffsetExact (path : Bytes) : Prop :=
  b.ReadsExact ∧ DiffExact b.firstNameOff (dataStart + 1) ∧ toInt32 path.length = path.length ∧
    toInt32 (path.length + 2) = path.length + 2

/-- A step from the parent tag at the end of a run to the parent. -/
def ParentTagExact (off : ℕ) : Prop := DiffExact (off + 1) (b.getReloffByTag (off + 1))

/-- `get_parent_offset` -/
def ParentOffsetExact (off : ℕ) : Prop :=
  let tail := b.getFolderTailOffset off
  tail ≠ 0 → b.ParentTagExact tail

/-- `get_1st_sibling_offset` -/
def FirstSiblingExact (off : ℕ) : Prop :=
  b.ParentOffsetExact off ∧ (b.getParentOffset off ≠ 0 → b.KidsOffsetExact (b.getParentOffset off))

/-- The loop of `get_insert_offset`. -/
def InsertOffsetLoopExact : ℕ → ℕ → ℕ → Prop
  | 0, _, _ => True
  | fuel + 1, nameOff, off =>
    off < b.tail →
      if b.head.get off = 0 then
        b.ParentTagExact off ∧
          let rel := b.getReloffByTag (off + 1)
          rel ≠ 0 → InsertOffsetLoopExact fuel (subU32 (off + 1) rel) (subU32 (off + 1) rel)
      else
        b.KidsOffsetExact off ∧ b.NextNameExact off ∧ InsertOffsetLoopExact fuel nameOff (b.nextName off)

/-- `get_insert_offset` -/
def InsertOffsetExact (off : ℕ) : Prop := b.InsertOffsetLoopExact b.loopFuel off off

/-! ## Writing -/

/-- A write of a tag at `tagOff` that has led from `b` to `b'`: the relative offset is one that a tag has
room for, the tag lies in the buffer, and reading it gives the relative offset and the directory mark. -/
structure TagExact (b b' : FsBuf) (tagOff rel : ℕ) : Prop where
  rel_lt : rel < 2 ^ 30
  inside : tagOff + 4 ≤ b.capacity
  read : b'.getReloffByTag tagOff = rel
  mark : b'.head.load32 tagOff % (fsTagMask + 1) = fsTagDir

/-- `set_parent_offset` -/
def SetParentOffsetExact (nameOff parentOff : ℕ) : Prop :=
  let rel := if parentOff > 0 then subU32 (nameOff + 1) parentOff else parentOff
  (parentOff > 0 → DiffExact (nameOff + 1) parentOff) ∧
    TagExact b (b.setParentOffset nameOff parentOff) (nameOff + 1) rel

/-- `do_set_kids_off` -/
def SetKidsOffExact (nameOff kidsOff : ℕ) : Prop :=
  let tagOff := nameOff + b.strlen nameOff + 1
  let rel := if kidsOff ≠ 0 then subU32 kidsOff tagOff else kidsOff
  (kidsOff ≠ 0 → DiffExact kidsOff tagOff) ∧ TagExact b (b.doSetKidsOff nameOff kidsOff) tagOff rel

/-- `add_capacity` -/
def AddCapacityExact (size : ℕ) : Prop :=
  let allocSize := size / fsNewBlkSize * fsNewBlkSize
  SumExact allocSize ∧
    let allocSize := if allocSize < size then allocSize + fsNewBlkSize else allocSize
    SumExact allocSize ∧ SumExact (b.capacity + allocSize)

/-- The test for room that is made before `size` bytes are put in. -/
def RoomExact (size : ℕ) : Prop :=
  SumExact (size + b.tail) ∧ (u32 (size + b.tail) ≥ b.capacity → b.AddCapacityExact size)

/-- Moving the bytes from `off` to the tail by `size`, in a buffer that has been grown for that. -/
def MoveUpExact (off size : ℕ) : Prop :=
  SumExact (b.tail + size) ∧ off + size ≤ b.capacity ∧ (b.tail > off → b.tail + size ≤ b.capacity)

/-- `insert_new_name` -/
def InsertNewNameExact (realloc : ℕ → Bool) (off : ℕ) (name : Bytes) (isDir createParentTag : Bool) : Prop :=
  let tagSize := if isDir then 4 else 1
  let extraSize := name.length + 1 + tagSize + if createParentTag then 1 + 4 else 0
  SumExact extraSize ∧ b.RoomExact extraSize ∧
    ∀ grown, (if u32 (extraSize + b.tail) ≥ b.capacity then b.addCapacity realloc extraSize else some b) =
        some grown →
      grown.MoveUpExact off extraSize ∧
        ∀ b', b.insertNewName realloc off name isDir createParentTag = some b' → isDir →
          TagExact grown b' (off + name.length + 1) 0

/-- `append_new_name` -/
def AppendNewNameExact (realloc : ℕ → Bool) (name : Bytes) (isDir : Bool) : Prop :=
  b.InsertNewNameExact realloc b.tail name isDir false

/-- `append_parent` -/
def AppendParentExact (realloc : ℕ → Bool) (parentOff : ℕ) : Prop :=
  b.RoomExact (4 + 1) ∧
    ∀ grown, (if u32 (4 + 1 + b.tail) ≥ b.capacity then b.addCapacity realloc (1 + 4) else some b) =
        some grown →
      grown.SetParentOffsetExact grown.tail parentOff ∧ SumExact (grown.tail + (1 + 4))

/-! ## Offset repair -/

/-- `UPDATE_KIDS_OFF` -/
def UpdateKidsOffExact (off : ℕ) (delta : ℤ) : Prop :=
  let kidsOff := b.getKidsOffset off
  b.KidsOffsetExact off ∧
    (kidsOff ≠ 0 →
      MovedExact kidsOff delta ∧
        let kidsOff := addDelta kidsOff delta
        b.SetKidsOffExact off kidsOff ∧
          let b := b.doSetKidsOff off kidsOff
          b.ReadsExact ∧ b.SetParentOffsetExact (b.getFolderTailOffset kidsOff) off)

/-- The first loop of `update_offsets`. -/
def UpdateSiblingsExact (startOff : ℕ) (delta : ℤ) : ℕ → FsBuf → ℕ → Prop
  | 0, _, _ => True
  | fuel + 1, b, off =>
    off < startOff →
      b.UpdateKidsOffExact off delta ∧
        let b := b.updateKidsOff off delta
        b.NextNameExact off ∧ UpdateSiblingsExact startOff delta fuel b (b.nextName off)

/-- The second loop of `update_offsets`. -/
def UpdateParentsExact (delta : ℤ) : ℕ → FsBuf → ℕ → ℕ → Prop
  | 0, _, _, _ => True
  | fuel + 1, b, startOff, off =>
    off ≠ 0 ∧ off < b.tail →
      if b.head.get off = 0 then
        b.ParentTagExact off ∧
          let rel := b.getReloffByTag (off + 1)
          rel ≠ 0 → UpdateParentsExact delta fuel b (subU32 (off + 1) rel) (subU32 (off + 1) rel)
      else
        (off > startOff → b.UpdateKidsOffExact off delta) ∧
          let b := if off > startOff then b.updateKidsOff off delta else b
          b.NextNameExact off ∧ UpdateParentsExact delta fuel b startOff (b.nextName off)

/-- `update_offsets` -/
def UpdateOffsetsExact (startOff : ℕ) (delta : ℤ) (updateSiblings : Bool) : Prop :=
  if updateSiblings then
    b.ReadsExact ∧ b.FirstSiblingExact startOff ∧
      let off := b.get1stSiblingOffset startOff
      (off ≠ 0 →
        UpdateSiblingsExact startOff delta startOff b off ∧
          let b := updateSiblingsLoop startOff delta startOff b off
          b.ReadsExact ∧ b.ParentOffsetExact startOff ∧
            let off := b.getParentOffset startOff
            UpdateParentsExact delta b.loopFuel b off off)
  else UpdateParentsExact delta b.loopFuel b startOff startOff

/-! ## Insertion -/

/-- `do_insert_path` from the call of `insert_new_name` on. -/
def InsertEntryExact (realloc : ℕ → Bool) (parentOff kidsOff : ℕ) (name : Bytes)
    (isDir emptyFolder : Bool) : Prop :=
  b.InsertNewNameExact realloc kidsOff name isDir emptyFolder ∧
    ∀ b', b.insertNewName realloc kidsOff name isDir emptyFolder = some b' →
      let size := name.length + 1 + if isDir then 4 else 1
      let delta := toInt32 size
      delta = size ∧
        if emptyFolder then
          MovedExact kidsOff delta ∧ b'.SetParentOffsetExact (addDelta kidsOff delta) parentOff ∧
            let b := b'.setParentOffset (addDelta kidsOff delta) parentOff
            let delta := delta + (1 + 4)
            delta < 2 ^ 31 ∧ b.SetKidsOffExact parentOff kidsOff ∧
              let b := b.doSetKidsOff parentOff kidsOff
              b.UpdateOffsetsExact kidsOff delta true
        else
          (dataStart ≠ parentOff →
            b'.ReadsExact ∧ b'.SetParentOffsetExact (b'.getFolderTailOffset kidsOff) parentOff) ∧
            let b :=
              if dataStart ≠ parentOff then b'.setParentOffset (b'.getFolderTailOffset kidsOff) parentOff
              else b'
            b.UpdateOffsetsExact kidsOff delta true

/-- `insert_path` -/
def InsertPathExact (realloc : ℕ → Bool) (path : Bytes) (isDir : Bool) : Prop :=
  ∀ parent name, strrchrSlash path = some (parent, name) → name ≠ [] →
    let parentOff := b.getPathOffset parent
    b.PathOffsetExact parent ∧
      (parentOff ≠ 0 → b.KidsOffsetExact parentOff ∧
        ((dataStart ≠ parentOff → b.doIsFile parentOff = false) →
          let kidsOff := if dataStart = parentOff then b.firstNameOff else b.getKidsOffset parentOff
          if kidsOff ≠ 0 then
            ∀ off, b.findSiblingLoop name b.tail kidsOff = some off →
              b.InsertEntryExact realloc parentOff off name isDir false
          else
            b.InsertOffsetExact parentOff ∧
              ∀ off, b.getInsertOffset parentOff = some off →
                b.InsertEntryExact realloc parentOff off name isDir true))

/-! ## Removal -/

/-- Moving the bytes behind the `size` ones at `off` down over them. -/
def MoveDownExact (off size : ℕ) : Prop :=
  SumExact (off + size) ∧ DiffExact b.tail size ∧
    (off + size < b.tail → off + (b.tail - off - size) ≤ b.capacity)

/-- The part of `do_remove_path` that takes the subtree of a directory out. -/
def RemoveKidsExact (nameOff kidsOff treeEndOff : ℕ) : Prop :=
  b.SetKidsOffExact nameOff 0 ∧ DiffExact treeEndOff kidsOff ∧ DeltaExact kidsOff treeEndOff ∧
    let b := b.doSetKidsOff nameOff 0
    b.MoveDownExact kidsOff (subU32 treeEndOff kidsOff) ∧
      let head :=
        if treeEndOff < b.tail then b.head.move kidsOff treeEndOff (b.tail - treeEndOff) else b.head
      let b := { b with head := head, tail := subU32 b.tail (subU32 treeEndOff kidsOff) }
      b.UpdateOffsetsExact nameOff (toInt32 (subU32 kidsOff treeEndOff)) false

/-- The part of `do_remove_path` that takes the entry itself out. -/
def RemoveEntryExact (nameOff : ℕ) : Prop :=
  let parentOff := b.getParentOffset nameOff
  let size := subU32 (b.nextName nameOff) nameOff
  b.ReadsExact ∧ b.FirstSiblingExact nameOff ∧ b.NextNameExact nameOff ∧ DiffExact (b.nextName nameOff) nameOff ∧
    SumExact (nameOff + size) ∧
    if b.head.get (nameOff + size) = 0 ∧ b.get1stSiblingOffset nameOff = nameOff then
      let size := size + (1 + 4)
      SumExact size ∧ (parentOff ≠ 0 → b.SetKidsOffExact parentOff 0) ∧
        let b := if parentOff ≠ 0 then b.doSetKidsOff parentOff 0 else b
        b.MoveDownExact nameOff size ∧ DeltaExact 0 size ∧
          let b := b.closeGap nameOff size
          (parentOff ≠ 0 → b.UpdateOffsetsExact parentOff (toInt32 (subU32 0 size)) false)
    else
      (parentOff ≠ 0 → SumExact (parentOff + size) ∧
        b.SetParentOffsetExact (b.getFolderTailOffset nameOff) (u32 (parentOff + size))) ∧
        let b :=
          if parentOff ≠ 0 then b.setParentOffset (b.getFolderTailOffset nameOff) (u32 (parentOff + size))
          else b
        b.MoveDownExact nameOff size ∧ DeltaExact 0 size ∧
          let b := b.closeGap nameOff size
          b.UpdateOffsetsExact nameOff (toInt32 (subU32 0 size)) true

/-- `do_remove_path`, whether or not the bytes of the subtree are copied. -/
def RemovePathExact (path : Bytes) : Prop :=
  let nameOff := b.getPathOffset path
  b.PathOffsetExact path ∧
    (nameOff ≠ 0 →
      if nameOff = dataStart then DiffExact b.tail b.firstNameOff ∧ DeltaExact b.firstNameOff b.tail
      else
        let kidsOff := b.getKidsOffset nameOff
        b.KidsOffsetExact nameOff ∧
          if kidsOff ≠ 0 then
            let treeEndOff := b.getTreeEndOffset kidsOff
            SumExact treeEndOff ∧ b.RemoveKidsExact nameOff kidsOff treeEndOff ∧
              ∀ b', b.removeKids nameOff kidsOff treeEndOff = some b' → b'.RemoveEntryExact nameOff
          else b.RemoveEntryExact nameOff)

/-! ## Renaming -/

/-- The part of `do_rename_path` that puts the copied subtree back below the folder at `dstOff`. -/
def SpliceTreeExact (reallocTree : ℕ → Bool) (dstOff : ℕ) (tree : Bytes) : Prop :=
  let treeSize := tree.length
  SumExact treeSize ∧ b.RoomExact treeSize ∧
    ∀ grown, (if u32 (treeSize + b.tail) ≥ b.capacity then b.addCapacity reallocTree treeSize else some b) =
        some grown →
      grown.ReadsExact ∧ grown.InsertOffsetExact dstOff ∧
        ∀ kidsOff, grown.getInsertOffset dstOff = some kidsOff →
          grown.MoveUpExact kidsOff treeSize ∧
            let head :=
              if grown.tail > kidsOff then
                grown.head.move (kidsOff + treeSize) kidsOff (grown.tail - kidsOff)
              else grown.head
            let b := { grown with head := head.store kidsOff tree, tail := u32 (grown.tail + treeSize) }
            b.SetKidsOffExact dstOff kidsOff ∧
              let b := b.doSetKidsOff dstOff kidsOff
              b.ReadsExact ∧ b.SetParentOffsetExact (b.getFolderTailOffset kidsOff) dstOff ∧
                let b := b.setParentOffset (b.getFolderTailOffset kidsOff) dstOff
                toInt32 treeSize = treeSize ∧ b.UpdateOffsetsExact kidsOff (toInt32 treeSize) true

/-! ## Reading an image -/

variable {b : FsBuf}

theorem strlen_le (b : FsBuf) (off : ℕ) : b.strlen off ≤ b.capacity - off := Mem.length_cstr_le_limit _ _ _

theorem Sized.nextNameExact (hb : b.Sized) {off : ℕ} (h : off ≤ b.capacity) : b.NextNameExact off := by
  have hmax : b.capacity ≤ 2 ^ 30 := hb.capacity_le
  have hlen := b.strlen_le off
  refine sumExact_of_lt ?_
  rw [nextName]
  split <;> omega

theorem Sized.kidsOffsetExact (hb : b.Sized) {off : ℕ} (h : off ≤ b.capacity) : b.KidsOffsetExact off := by
  have hmax : b.capacity ≤ 2 ^ 30 := hb.capacity_le
  have hlen := b.strlen_le off
  have hrel := b.getReloffByTag_lt (off + b.strlen off + 1)
  exact sumExact_of_lt (by omega)

/-- The scans are exact on any bytes, whether or not they are an image. -/
theorem Sized.readsExact (hb : b.Sized) : b.ReadsExact := fun off h => by
  have hcap := hb.tail_le
  exact ⟨hb.nextNameExact (by omega), hb.kidsOffsetExact (by omega)⟩

theorem parentTagExact_of_up {base off e : ℕ} {c : List (Frame Bytes)} (hup : UpAt b.head off (upRel base e c))
    (hoff : off = runPos base c + e) (hbase : 0 < base) (hlt : off < 2 ^ 30) : b.ParentTagExact off := by
  have hrel : upRel base e c ≤ off := by
    cases c with
    | nil => exact Nat.zero_le _
    | cons f c =>
      have hle := base_le_runPos base c
      rw [upRel, ownerPos]
      omega
  rw [ParentTagExact, getReloffByTag_of_up hup (by omega)]
  exact diffExact_of_le (by omega) (by omega)

/-- `get_parent_offset` from anywhere in a run. -/
theorem parentOffsetExact (hb : b.Sized) {base off d e : ℕ} {c : List (Frame Bytes)} {r : Tree}
    (hr : EntriesAt b.head off d r) (hv : r.Valid NameOk)
    (hup : UpAt b.head (off + entriesSize r) (upRel base e c))
    (hoff : off + entriesSize r = runPos base c + e) (hbase : 0 < base)
    (hfit : off + entriesSize r < b.tail) : b.ParentOffsetExact off := by
  have hmax := hb.tail_le_max
  rw [ParentOffsetExact, getFolderTailOffset_eq hb hr hup.1 hv hfit]
  exact fun _ => parentTagExact_of_up hup hoff hbase (by omega)

/-- `get_1st_sibling_offset` from anywhere in a run. -/
theorem firstSiblingExact (hb : b.Sized) {base off d e : ℕ} {c : List (Frame Bytes)} {r : Tree}
    (hr : EntriesAt b.head off d r) (hv : r.Valid NameOk)
    (hup : UpAt b.head (off + entriesSize r) (upRel base e c))
    (hoff : off + entriesSize r = runPos base c + e) (hbase : 0 < base)
    (hfit : off + entriesSize r < b.tail) : b.FirstSiblingExact off := by
  refine ⟨parentOffsetExact hb hr hv hup hoff hbase hfit, fun _ => hb.kidsOffsetExact ?_⟩
  have hcap := hb.tail_le
  rw [getParentOffset_eq hb hr hv hup hoff hbase hfit]
  cases c with
  | nil => exact Nat.zero_le _
  | cons f c =>
    have hrun := runPos_cons base f c
    have hsize := frameSize_eq f
    rw [ownerOff_cons, ownerPos]
    omega

/-- `get_insert_offset`, on its way from anywhere in a run up to the root. -/
theorem insertOffsetLoopExact (hb : b.Sized) {base : ℕ} {c : List (Frame Bytes)} {l r : Tree} {off : ℕ}
    (himage : TreeAt b.head base 0 (plug c (l ++ r))) (hv : (plug c (l ++ r)).Valid NameOk)
    (hbase : 0 < base) (hfit : base + treeSize (plug c (l ++ r)) ≤ b.tail) (hne : l ++ r ≠ .nil)
    (hoff : off = runPos base c + entriesSize l) (fuel nameOff : ℕ) :
    b.InsertOffsetLoopExact fuel nameOff off := by
  have hcap := hb.tail_le
  have hmax := hb.tail_le_max
  induction fuel generalizing c l r off nameOff with
  | zero => trivial
  | succ fuel ih =>
    intro hlt
    have hin := runPos_add_le base c (treeSize (l ++ r))
    have hsize := treeSize_of_ne_nil hne
    obtain ⟨-, hent, hup, -⟩ := himage.run hne
    rw [treeSize_plug] at hfit
    rw [entriesSize_append] at hsize
    have hvr := ((valid_append _ _).mp (Valid.of_plug hv)).2.1
    have hentr := ((entriesAt_append _ _ _ _).mp hent).2
    rw [← hoff] at hentr
    -- the next entry of the run, or its parent tag
    have hnext : ∀ (x r' : Tree), x ++ r' = r → off + entriesSize x = b.nextName off →
        b.InsertOffsetLoopExact fuel nameOff (b.nextName off) := by
      rintro x r' rfl hx
      refine ih (c := c) (l := l ++ x) (r := r') ?_ ?_ ?_ ?_ ?_ nameOff
      · rwa [append_assoc]
      · rwa [append_assoc]
      · rwa [append_assoc, treeSize_plug]
      · rwa [append_assoc]
      · rw [entriesSize_append, ← hx]
        omega
    cases r with
    | nil =>
      rw [append_nil, ← hoff] at hup
      rw [if_pos hup.1]
      refine ⟨parentTagExact_of_up hup hoff hbase (by omega), ?_⟩
      cases c with
      | nil =>
        rw [getReloffByTag_of_up hup (by simp [upRel])]
        exact fun h => absurd rfl h
      | cons f c =>
        have hle := base_le_runPos base c
        have hrun := runPos_cons base f c
        have hfsize := frameSize_eq f
        have hrel : upRel base (entriesSize l) (f :: c) =
            runPos base (f :: c) + entriesSize l + 1 - ownerPos base f c := rfl
        have howner : ownerPos base f c = runPos base c + entriesSize f.left := rfl
        rw [getReloffByTag_of_up hup (by omega)]
        intro rel
        rw [hoff, subU32_upRel f c (by omega)]
        rw [append_nil] at himage hv hne hfit
        refine fun _ => ih (l := f.left) (r := node f.name l f.right) himage hv ?_ ?_ howner _
        · rw [← plug_cons, treeSize_plug]
          exact hfit
        · exact append_cons_ne_nil f.left f.right f.name (.node l)
    | leaf n r =>
      rw [if_neg (get_ne_zero_of_holds hentr.1 hvr.1)]
      refine ⟨hb.kidsOffsetExact (by omega), hb.nextNameExact (by omega), hnext (.leaf n .nil) r rfl ?_⟩
      rw [nextName_of_file hentr.1 hvr.1 (by simp at hsize; omega)]
      simp
      omega
    | node n k r =>
      rw [if_neg (get_ne_zero_of_holds hentr.1 hvr.1)]
      refine ⟨hb.kidsOffsetExact (by omega), hb.nextNameExact (by omega), hnext (.node n k .nil) r rfl ?_⟩
      rw [nextName_of_dir hentr.1 hvr.1 (by simp at hsize; omega)]
      simp
      omega

end FsBuf

end DeepinAnything
