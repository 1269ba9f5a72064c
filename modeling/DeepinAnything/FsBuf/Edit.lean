import DeepinAnything.FsBuf.Basic

/-!
# Insertion, removal and renaming in the linear file tree (`fs_buf.c`)

Every edit moves the rest of the buffer and then repairs the relative offsets that span the place
of the edit. A function gives `none` when one of the climbs to the root it makes does not end,
which only a damaged image can cause.
-/

namespace DeepinAnything

open ByteMem

/-- `fs_change`: the bytes from `startOff` on have moved by `delta`. -/
structure FsChange where
  startOff : ℕ
  delta : ℤ
deriving DecidableEq, Repr

/-- What the C allocator answers during one call, by size: `malloc` for the copy of a subtree,
`realloc` when a name is inserted, `reallocTree` when a subtree is put back; and `slot`, what
stands in an `fs_change` the caller passes in. -/
structure Heap where
  malloc : ℕ → Bool
  realloc : ℕ → Bool
  reallocTree : ℕ → Bool
  slot : FsChange

/-- `strrchr(path, '/')`: what is before and what is behind the last slash. -/
def strrchrSlash : Bytes → Option (Bytes × Bytes)
  | [] => none
  | c :: cs =>
    match strrchrSlash cs with
    | some (parent, name) => some (c :: parent, name)
    | none => if c = slash then some ([], cs) else none

namespace FsBuf

/-! ## Offset repair -/

/-- `UPDATE_KIDS_OFF` -/
def updateKidsOff (b : FsBuf) (off : ℕ) (delta : ℤ) : FsBuf :=
  let kidsOff := b.getKidsOffset off
  if kidsOff = 0 then b
  else
    let kidsOff := addDelta kidsOff delta
    let b := b.doSetKidsOff off kidsOff
    b.setParentOffset (b.getFolderTailOffset kidsOff) off

/-- The first loop of `update_offsets`, over the siblings before `startOff`. -/
def updateSiblingsLoop (startOff : ℕ) (delta : ℤ) : ℕ → FsBuf → ℕ → FsBuf
  | 0, b, _ => b
  | fuel + 1, b, off =>
    if off < startOff then
      let b := b.updateKidsOff off delta
      updateSiblingsLoop startOff delta fuel b (b.nextName off)
    else b

/-- The second loop of `update_offsets`: the later siblings of the entry at `startOff`, then those
of its parent, and so on up to the root. -/
def updateParentsLoop (delta : ℤ) : ℕ → FsBuf → ℕ → ℕ → Option FsBuf
  | 0, _, _, _ => none
  | fuel + 1, b, startOff, off =>
    if off ≠ 0 ∧ off < b.tail then
      if b.head.get off = 0 then
        let rel := b.getReloffByTag (off + 1)
        if rel = 0 then some b
        else updateParentsLoop delta fuel b (subU32 (off + 1) rel) (subU32 (off + 1) rel)
      else
        let b := if off > startOff then b.updateKidsOff off delta else b
        updateParentsLoop delta fuel b startOff (b.nextName off)
    else some b

/-- `update_offsets` -/
def updateOffsets (b : FsBuf) (startOff : ℕ) (delta : ℤ) (updateSiblings : Bool) : Option FsBuf :=
  if updateSiblings then
    let off := b.get1stSiblingOffset startOff
    if off = 0 then some b
    else
      let b := updateSiblingsLoop startOff delta startOff b off
      let off := b.getParentOffset startOff
      updateParentsLoop delta b.loopFuel b off off
  else updateParentsLoop delta b.loopFuel b startOff startOff

/-! ## Insertion -/

/-- The loop of `do_insert_path` over the kids of the parent: the end of the run, or `none` when
one of them has the name. -/
def findSiblingLoop (b : FsBuf) (name : Bytes) : ℕ → ℕ → Option ℕ
  | 0, off => some off
  | fuel + 1, off =>
    if off < b.tail ∧ b.head.get off ≠ 0 then
      if b.strAt off = name then none else findSiblingLoop b name fuel (b.nextName off)
    else some off

/-- `do_insert_path` from the call of `insert_new_name` on. -/
def insertEntry (b : FsBuf) (realloc : ℕ → Bool) (parentOff kidsOff : ℕ) (name : Bytes)
    (isDir emptyFolder : Bool) (change : FsChange) : Option (Ret × FsBuf × FsChange) :=
  match b.insertNewName realloc kidsOff name isDir emptyFolder with
  | none => some (.noMem, b, change)
  | some b =>
    let delta := toInt32 (name.length + 1 + if isDir then 4 else 1)
    if emptyFolder then
      let b := b.setParentOffset (addDelta kidsOff delta) parentOff
      let delta := delta + (1 + 4)
      let b := b.doSetKidsOff parentOff kidsOff
      (b.updateOffsets kidsOff delta true).map fun b => (.ok, b, ⟨kidsOff, delta⟩)
    else
      let b :=
        if dataStart ≠ parentOff then b.setParentOffset (b.getFolderTailOffset kidsOff) parentOff
        else b
      (b.updateOffsets kidsOff delta true).map fun b => (.ok, b, ⟨kidsOff, delta⟩)

/-- `do_insert_path`. The path is cut at its last slash and put together again, which leaves no
trace here. -/
def doInsertPath (b : FsBuf) (realloc : ℕ → Bool) (path : Bytes) (isDir : Bool)
    (change : FsChange) : Option (Ret × FsBuf × FsChange) :=
  match strrchrSlash path with
  | none => some (.noPath, b, change)
  | some (parent, name) =>
    if name = [] then some (.noPath, b, change)
    else
      let parentOff := b.getPathOffset parent
      if parentOff = 0 ∨ (dataStart ≠ parentOff ∧ b.doIsFile parentOff) then
        some (.noPath, b, change)
      else
        let kidsOff := if dataStart = parentOff then b.firstNameOff else b.getKidsOffset parentOff
        if kidsOff ≠ 0 then
          match b.findSiblingLoop name b.tail kidsOff with
          | none => some (.pathExists, b, change)
          | some kidsOff => b.insertEntry realloc parentOff kidsOff name isDir false change
        else
          match b.getInsertOffset parentOff with
          | none => none
          | some kidsOff => b.insertEntry realloc parentOff kidsOff name isDir true change

/-- `insert_path` -/
def insertPath (b : FsBuf) (realloc : ℕ → Bool) (path : Bytes) (isDir : Bool) (change : FsChange) :
    Option (Ret × FsBuf × FsChange) :=
  b.doInsertPath realloc path isDir change

/-! ## Removal -/

/-- `COPY_TREE`: the bytes from `treeStartOff` to `treeEndOff`, when the caller wants them. `none`
is `ERR_NO_MEM`. -/
def copyTree (b : FsBuf) (malloc : ℕ → Bool) (wanted : Bool) (treeStartOff treeEndOff : ℕ) :
    Option (Option Bytes) :=
  if wanted then
    let size := subU32 treeEndOff treeStartOff
    if malloc size then some (some (b.head.load treeStartOff size)) else none
  else some none

/-- The part of `do_remove_path` that takes the subtree of a directory out. -/
def removeKids (b : FsBuf) (nameOff kidsOff treeEndOff : ℕ) : Option FsBuf :=
  let b := b.doSetKidsOff nameOff 0
  let head :=
    if treeEndOff < b.tail then b.head.move kidsOff treeEndOff (b.tail - treeEndOff) else b.head
  let b := { b with head := head, tail := subU32 b.tail (subU32 treeEndOff kidsOff) }
  b.updateOffsets nameOff (toInt32 (subU32 kidsOff treeEndOff)) false

/-- The end of `do_remove_path`: the bytes behind the `size` removed ones move over them. -/
def closeGap (b : FsBuf) (nameOff size : ℕ) : FsBuf :=
  let head :=
    if nameOff + size < b.tail then
      b.head.move nameOff (nameOff + size) (b.tail - nameOff - size)
    else b.head
  { b with head := head, tail := subU32 b.tail size }

/-- The part of `do_remove_path` that takes the entry itself out, and its run with it when it is
the only kid. -/
def removeEntry (b : FsBuf) (nameOff : ℕ) : Option (FsBuf × FsChange) :=
  let parentOff := b.getParentOffset nameOff
  let sibling1 := b.get1stSiblingOffset nameOff
  let size := subU32 (b.nextName nameOff) nameOff
  if b.head.get (nameOff + size) = 0 ∧ sibling1 = nameOff then
    let size := size + (1 + 4)
    let b := if parentOff ≠ 0 then b.doSetKidsOff parentOff 0 else b
    let b := b.closeGap nameOff size
    let delta := toInt32 (subU32 0 size)
    (if parentOff ≠ 0 then b.updateOffsets parentOff delta false else some b).map
      fun b => (b, ⟨nameOff, delta⟩)
  else
    let b :=
      if parentOff ≠ 0 then
        b.setParentOffset (b.getFolderTailOffset nameOff) (u32 (parentOff + size))
      else b
    let b := b.closeGap nameOff size
    let delta := toInt32 (subU32 0 size)
    (b.updateOffsets nameOff delta true).map fun b => (b, ⟨nameOff, delta⟩)

/-- `do_remove_path`. `changes` are the first `*change_count` elements of the caller's array;
`copyKids` says whether the caller wants the subtree's bytes, which come last in the result. -/
def doRemovePath (b : FsBuf) (malloc : ℕ → Bool) (path : Bytes) (changes : List FsChange)
    (copyKids : Bool) : Option (Ret × FsBuf × List FsChange × Option Bytes) :=
  let nameOff := b.getPathOffset path
  if nameOff = 0 then some (.noPath, b, changes, none)
  else if nameOff = dataStart then
    match b.copyTree malloc copyKids b.firstNameOff b.tail with
    | none => some (.noMem, b, changes, none)
    | some kidsTree =>
      some (.ok, { b with tail := b.firstNameOff },
        [⟨b.firstNameOff, toInt32 (subU32 b.firstNameOff b.tail)⟩], kidsTree)
  else
    let kidsOff := b.getKidsOffset nameOff
    if kidsOff ≠ 0 then
      let treeEndOff := b.getTreeEndOffset kidsOff
      match b.copyTree malloc copyKids kidsOff treeEndOff with
      | none => some (.noMem, b, [], none)
      | some kidsTree =>
        match b.removeKids nameOff kidsOff treeEndOff with
        | none => none
        | some b =>
          (b.removeEntry nameOff).map fun (b, change) =>
            (.ok, b, [⟨kidsOff, toInt32 (subU32 kidsOff treeEndOff)⟩, change], kidsTree)
    else (b.removeEntry nameOff).map fun (b, change) => (.ok, b, [change], none)

/-- `remove_path` -/
def removePath (b : FsBuf) (path : Bytes) (changes : List FsChange) :
    Option (Ret × FsBuf × List FsChange) :=
  (b.doRemovePath (fun _ => true) path changes false).map fun (ret, b, changes, _) =>
    (ret, b, changes)

/-! ## Renaming -/

/-- The part of `do_rename_path` that puts the copied subtree back below the folder at `dstOff`. -/
def spliceTree (b : FsBuf) (reallocTree : ℕ → Bool) (dstOff : ℕ) (tree : Bytes)
    (changes : List FsChange) : Option (Ret × FsBuf × List FsChange) :=
  let treeSize := tree.length
  let grown :=
    if u32 (treeSize + b.tail) ≥ b.capacity then b.addCapacity reallocTree treeSize else some b
  match grown with
  | none => some (.noMem, b, changes)
  | some b =>
    match b.getInsertOffset dstOff with
    | none => none
    | some kidsOff =>
      let head :=
        if b.tail > kidsOff then b.head.move (kidsOff + treeSize) kidsOff (b.tail - kidsOff)
        else b.head
      let b := { b with head := head.store kidsOff tree, tail := u32 (b.tail + treeSize) }
      let b := b.doSetKidsOff dstOff kidsOff
      let b := b.setParentOffset (b.getFolderTailOffset kidsOff) dstOff
      (b.updateOffsets kidsOff (toInt32 treeSize) true).map fun b =>
        (.ok, b, changes ++ [⟨kidsOff, toInt32 treeSize⟩])

/-- `do_rename_path` behind its checks: remove the source, insert the destination unless it
exists (whatever comes of that), look the destination up again and put the subtree back. -/
def moveEntry (b : FsBuf) (heap : Heap) (srcPath dstPath : Bytes) (srcIsFile : Bool) (dstOff : ℕ)
    (changes : List FsChange) : Option (Ret × FsBuf × List FsChange) :=
  match b.doRemovePath heap.malloc srcPath changes true with
  | none => none
  | some (ret, b, changes, kidsTree) =>
    if ret ≠ .ok then some (ret, b, changes)
    else
      let inserted :=
        if dstOff = 0 then
          (b.doInsertPath heap.realloc dstPath (!srcIsFile) heap.slot).map fun (_, b, change) =>
            (b, changes ++ [change])
        else some (b, changes)
      match inserted with
      | none => none
      | some (b, changes) =>
        match kidsTree with
        | none => some (.ok, b, changes)
        | some tree => b.spliceTree heap.reallocTree (b.getPathOffset dstPath) tree changes

/-- `do_rename_path` -/
def doRenamePath (b : FsBuf) (heap : Heap) (srcPath dstPath : Bytes) (changes : List FsChange) :
    Option (Ret × FsBuf × List FsChange) :=
  let srcOff := b.getPathOffset srcPath
  if srcOff = 0 then some (.noPath, b, changes)
  else
    let dstOff := b.getPathOffset dstPath
    if dstOff = dataStart then some (.nested, b, changes)
    else
      let srcIsFile := b.doIsFile srcOff
      if dstOff ≠ 0 ∧ b.doIsFile dstOff ≠ srcIsFile then some (.pathDiffer, b, changes)
      else if dstOff ≠ 0 ∧ srcIsFile = false ∧ b.getKidsOffset dstOff ≠ 0 then
        some (.notEmpty, b, changes)
      else
        match strrchrSlash dstPath with
        | none => some (.noPath, b, changes)
        | some (parent, name) =>
          if name = [] then some (.noPath, b, changes)
          else
            let dstParentOff := b.getPathOffset parent
            if dstParentOff = 0 ∨ (dstParentOff = dataStart ∧ b.doIsFile dstParentOff) then
              some (.noPath, b, changes)
            else b.moveEntry heap srcPath dstPath srcIsFile dstOff changes

/-- `rename_path` -/
def renamePath (b : FsBuf) (heap : Heap) (srcPath dstPath : Bytes) (changes : List FsChange) :
    Option (Ret × FsBuf × List FsChange) :=
  b.doRenamePath heap srcPath dstPath changes

end FsBuf

end DeepinAnything
