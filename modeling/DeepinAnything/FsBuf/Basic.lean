import Mathlib.Data.Int.Notation
import Mathlib.Tactic.Common
import DeepinAnything.Lib.Memory

/-!
# The linear file tree: buffer, tags and scans (`fs_buf.c`)

An `fs_buf` keeps a directory tree in one block of memory. After eight reserved bytes and the
root path come runs of entries, one run for each directory that has children: a name, its
terminator and a tag. A file's tag is one zero byte; a directory's tag is a 32-bit word with the
offset of its first child relative to the tag; an empty name closes a run, and the tag behind it
leads back to the directory that owns the run. This module has the functions that read and write
single entries and the loops that scan the runs.

Offsets are `uint32_t` in the source; they are natural numbers here, and every place where the
32-bit value can differ from the exact one goes through `u32`, `subU32` or `addDelta`.
-/

namespace DeepinAnything

open ByteMem

/-! ## Machine arithmetic -/

/-- The value of a `uint32_t` that is assigned `n`. -/
def u32 (n : ℕ) : ℕ := n % 2 ^ 32

/-- The difference of two `uint32_t`. -/
def subU32 (a b : ℕ) : ℕ := (a + (2 ^ 32 - b % 2 ^ 32)) % 2 ^ 32

/-- A `uint32_t` plus an `int`. -/
def addDelta (n : ℕ) (delta : ℤ) : ℕ := ((n + delta) % 2 ^ 32).toNat

/-- A `uint32_t` read back as an `int`. -/
def toInt32 (n : ℕ) : ℤ := if n % 2 ^ 32 < 2 ^ 31 then (n % 2 ^ 32 : ℕ) else (n % 2 ^ 32 : ℕ) - 2 ^ 32

theorem u32_of_lt {n : ℕ} (h : n < 2 ^ 32) : u32 n = n := Nat.mod_eq_of_lt h

theorem subU32_of_le {a b : ℕ} (h : b ≤ a) (ha : a < 2 ^ 32) : subU32 a b = a - b := by
  unfold subU32; omega

theorem addDelta_of_nonneg (n : ℕ) (delta : ℤ) (h : 0 ≤ (n : ℤ) + delta)
    (h' : (n : ℤ) + delta < 2 ^ 32) : (addDelta n delta : ℤ) = n + delta := by
  unfold addDelta; omega

theorem toInt32_subU32 {a b : ℕ} (ha : a < 2 ^ 31) (hb : b < 2 ^ 31) :
    toInt32 (subU32 a b) = (a : ℤ) - b := by
  unfold toInt32 subU32; split <;> omega

theorem toInt32_of_lt {a : ℕ} (ha : a < 2 ^ 31) : toInt32 a = a := by
  unfold toInt32; split <;> omega

/-! ## The buffer -/

/-- The path separator. -/
def slash : UInt8 := 47

def dataStart : ℕ := 8

def fsNewBlkSize : ℕ := 2 ^ 20

def fsTagBits : ℕ := 2

def fsTagMask : ℕ := 2 ^ fsTagBits - 1

def maxFsbufSize : ℕ := 2 ^ (8 * 4 - fsTagBits)

def fsTagFile : UInt8 := 0

def fsTagDir : ℕ := 1

/-- `struct __fs_buf__`. The bytes of `head` from `capacity` on are not the buffer's: they stand
for whatever a later `realloc` brings in. -/
structure FsBuf where
  head : Mem
  capacity : ℕ
  tail : ℕ
  firstNameOff : ℕ

/-- What the editing functions return: 0 or one of the `ERR_` codes of `fs_buf.h`. -/
inductive Ret where
  | ok
  | noMem
  | noPath
  | pathExists
  | nested
  | pathDiffer
  | notEmpty
deriving DecidableEq, Repr

/-- `new_fs_buf`, on the block `malloc` returned, if it and the lock could be had. -/
def newFsBuf (fresh : Option Mem) (capacity : ℕ) (rootPath : Bytes) : Option FsBuf :=
  if capacity > maxFsbufSize then none
  else if rootPath.length + fsNewBlkSize > capacity then none
  else if rootPath.head? ≠ some slash ∨ rootPath.getLast? ≠ some slash then none
  else fresh.map fun m =>
    { head := m.store dataStart (rootPath ++ [0])
      capacity := capacity
      tail := dataStart + rootPath.length + 1
      firstNameOff := dataStart + rootPath.length + 1 }

namespace FsBuf

variable (b : FsBuf)

/-- The C string at an offset of the buffer. -/
def strAt (off : ℕ) : Bytes := b.head.cstr (b.capacity - off) off

/-- `strlen` of the string at an offset. -/
def strlen (off : ℕ) : ℕ := (b.strAt off).length

/-- `get_root_path` -/
def getRootPath : Bytes := b.strAt dataStart

/-- `add_capacity`: grow by whole blocks. `realloc` says whether a block of that size can be had;
`none` stands for the failure return. -/
def addCapacity (realloc : ℕ → Bool) (size : ℕ) : Option FsBuf :=
  let allocSize := size / fsNewBlkSize * fsNewBlkSize
  let allocSize := if allocSize < size then u32 (allocSize + fsNewBlkSize) else allocSize
  if u32 (b.capacity + allocSize) > maxFsbufSize then none
  else if realloc (b.capacity + allocSize) then some { b with capacity := b.capacity + allocSize }
  else none

/-- The bytes of a directory or parent tag with relative offset `rel`. -/
def tagBytes (rel : ℕ) : Bytes := le32 (u32 (rel * 2 ^ fsTagBits) + fsTagDir)

/-- `set_parent_offset`: an empty name, and a tag relative to its own position. A parent offset
of 0 stands for the root. -/
def setParentOffset (nameOff parentOff : ℕ) : FsBuf :=
  let rel := if parentOff > 0 then subU32 (nameOff + 1) parentOff else parentOff
  { b with head := (b.head.store nameOff [0]).store (nameOff + 1) (tagBytes rel) }

/-- The bytes written for a new entry: the name, its terminator and a tag without kids. -/
def entryBytes (name : Bytes) (isDir : Bool) : Bytes :=
  name ++ [0] ++ if isDir then le32 fsTagDir else [fsTagFile]

/-- `insert_new_name`: make room at `off` for the entry, and for a parent tag behind it when
`createParentTag` is set; the parent tag itself is left to the caller. `none` is `ERR_NO_MEM`. -/
def insertNewName (realloc : ℕ → Bool) (off : ℕ) (name : Bytes) (isDir createParentTag : Bool) :
    Option FsBuf :=
  let tagSize := if isDir then 4 else 1
  let extraSize := u32 (name.length + 1 + tagSize + if createParentTag then 1 + 4 else 0)
  let grown :=
    if u32 (extraSize + b.tail) ≥ b.capacity then b.addCapacity realloc extraSize else some b
  grown.map fun b =>
    let head :=
      if b.tail > off then b.head.move (off + extraSize) off (b.tail - off) else b.head
    { b with head := head.store off (entryBytes name isDir), tail := u32 (b.tail + extraSize) }

/-- `append_new_name` -/
def appendNewName (realloc : ℕ → Bool) (name : Bytes) (isDir : Bool) : Option FsBuf :=
  b.insertNewName realloc b.tail name isDir false

/-- `append_parent` -/
def appendParent (realloc : ℕ → Bool) (parentOff : ℕ) : Option FsBuf :=
  let grown := if u32 (4 + 1 + b.tail) ≥ b.capacity then b.addCapacity realloc (1 + 4) else some b
  grown.map fun b => { b.setParentOffset b.tail parentOff with tail := u32 (b.tail + (1 + 4)) }

/-- `do_is_file` -/
def doIsFile (nameOff : ℕ) : Bool := b.head.get (nameOff + b.strlen nameOff + 1) = fsTagFile

/-- `next_name` -/
def nextName (nameOff : ℕ) : ℕ :=
  let tagOff := nameOff + b.strlen nameOff + 1
  if b.head.get tagOff = fsTagFile then tagOff + 1 else tagOff + 4

/-- `do_set_kids_off` -/
def doSetKidsOff (nameOff kidsOff : ℕ) : FsBuf :=
  let tagOff := nameOff + b.strlen nameOff + 1
  let rel := if kidsOff ≠ 0 then subU32 kidsOff tagOff else kidsOff
  { b with head := b.head.store tagOff (tagBytes rel) }

/-- `get_reloff_by_tag` -/
def getReloffByTag (tagOff : ℕ) : ℕ :=
  let tag := b.head.load32 tagOff
  (tag - tag % (fsTagMask + 1)) / 2 ^ fsTagBits

/-- `get_kids_offset`: 0 for a file and for a directory without kids. -/
def getKidsOffset (nameOff : ℕ) : ℕ :=
  if b.doIsFile nameOff then 0
  else
    let tagOff := nameOff + b.strlen nameOff + 1
    let rel := b.getReloffByTag tagOff
    if rel = 0 then 0 else u32 (tagOff + rel)

/-! ## Lookup -/

/-- The loop of `do_get_path_offset` at `offset`, with `p` what is left of the path. Names are
matched as prefixes of `p` that end at its end or at a slash. Offsets only grow, so the fuel
`tail` does not run out. -/
def doGetPathOffsetLoop : ℕ → Bytes → ℕ → ℕ
  | 0, _, _ => 0
  | fuel + 1, p, offset =>
    if offset < b.tail then
      let name := b.strAt offset
      if name = [] then 0
      else if name.isPrefixOf p then
        match p.drop name.length with
        | [] => offset
        | c :: rest =>
          if c = slash then
            let kidsOff := b.getKidsOffset offset
            if kidsOff = 0 then 0 else doGetPathOffsetLoop fuel rest kidsOff
          else doGetPathOffsetLoop fuel p (b.nextName offset)
      else doGetPathOffsetLoop fuel p (b.nextName offset)
    else 0

/-- `do_get_path_offset`: 0 when not found, `DATA_START` for the root. -/
def doGetPathOffset (path : Bytes) : ℕ :=
  if path = [] ∧ b.firstNameOff = dataStart + 2 then dataStart
  else if ¬ (b.getRootPath).isPrefixOf path then 0
  else
    let p := path.drop (b.firstNameOff - dataStart - 1)
    if p = [] then dataStart else b.doGetPathOffsetLoop b.tail p b.firstNameOff

/-- `get_path_offset`: a path that is not found is tried again with its last slash taken off or,
when it has none, with one added. The source looks at the byte before an empty path here; both
branches then end without a match, and the model takes the second one. -/
def getPathOffset (path : Bytes) : ℕ :=
  let offset := b.doGetPathOffset path
  if offset = 0 then
    b.doGetPathOffset (if path.getLast? = some slash then path.dropLast else path ++ [slash])
  else offset

/-! ## Scans -/

/-- The number of pairs of offsets below the tail, and one more. -/
def loopFuel : ℕ := (b.tail + 1) * (b.tail + 1) + 1

/-- The loop of `get_tree_end_offset`. A run that it goes back to starts behind the one it has scanned, so
the fuel `loopFuel` does not run out. -/
def getTreeEndOffsetLoop : ℕ → ℕ → ℕ → ℕ
  | 0, _, _ => b.tail
  | fuel + 1, nameOff, lastKidsOff =>
    if nameOff < b.tail then
      if b.head.get nameOff ≠ 0 then
        let kidsOff := b.getKidsOffset nameOff
        getTreeEndOffsetLoop fuel (b.nextName nameOff)
          (if kidsOff ≠ 0 then kidsOff else lastKidsOff)
      else if lastKidsOff ≠ 0 then getTreeEndOffsetLoop fuel lastKidsOff 0
      else nameOff + 1 + 4
    else b.tail

/-- `get_tree_end_offset`: the end of the last run below the run at `startOff`. -/
def getTreeEndOffset (startOff : ℕ) : ℕ := b.getTreeEndOffsetLoop b.loopFuel startOff 0

/-- The loop of `get_insert_offset`, which climbs to the parent at the end of each run. On a
damaged image the climb can go in circles; `none` is a loop that has not ended within its fuel. -/
def getInsertOffsetLoop : ℕ → ℕ → ℕ → Option ℕ
  | 0, _, _ => none
  | fuel + 1, nameOff, off =>
    if off < b.tail then
      if b.head.get off = 0 then
        let rel := b.getReloffByTag (off + 1)
        if rel = 0 then some b.tail
        else getInsertOffsetLoop fuel (subU32 (off + 1) rel) (subU32 (off + 1) rel)
      else if off > nameOff ∧ b.getKidsOffset off ≠ 0 then some (b.getKidsOffset off)
      else getInsertOffsetLoop fuel nameOff (b.nextName off)
    else some b.tail

/-- `get_insert_offset`: where the kids of an empty folder go, which is where the kids of the
next folder with kids stand, among its later siblings or those of its ancestors. -/
def getInsertOffset (emptyFolderOff : ℕ) : Option ℕ :=
  b.getInsertOffsetLoop b.loopFuel emptyFolderOff emptyFolderOff

/-- The loop of `get_folder_tail_offset`. -/
def getFolderTailOffsetLoop : ℕ → ℕ → ℕ
  | 0, _ => 0
  | fuel + 1, nameOff =>
    if nameOff < b.tail then
      if b.head.get nameOff ≠ 0 then getFolderTailOffsetLoop fuel (b.nextName nameOff)
      else nameOff
    else 0

/-- `get_folder_tail_offset`: the parent tag that closes the run, 0 when there is none. -/
def getFolderTailOffset (nameOff : ℕ) : ℕ := b.getFolderTailOffsetLoop b.tail nameOff

/-- `get_parent_offset`: 0 for an entry of the root. -/
def getParentOffset (nameOff : ℕ) : ℕ :=
  let tail := b.getFolderTailOffset nameOff
  if tail = 0 then 0
  else
    let rel := b.getReloffByTag (tail + 1)
    if rel = 0 then 0 else subU32 (tail + 1) rel

/-- `get_1st_sibling_offset` -/
def get1stSiblingOffset (nameOff : ℕ) : ℕ :=
  let parentOff := b.getParentOffset nameOff
  if parentOff = 0 then b.firstNameOff else b.getKidsOffset parentOff

end FsBuf

/-! ## The path of an entry -/

/-- What writing a path backwards into a caller's buffer comes to: the buffer and the start of the
string in it, a write outside the buffer, or a loop without end. -/
inductive PathWrite where
  | written (path : Mem) (dst : ℕ)
  | outOfBounds
  | endless

/-- `bs` written in front of `dst`. -/
def prependPath (path : Mem) (dst : ℕ) (bs : Bytes) : PathWrite :=
  if bs.length ≤ dst then .written (path.store (dst - bs.length) bs) (dst - bs.length)
  else .outOfBounds

namespace FsBuf

/-- The loop of `do_get_path_by_name_off`. It reads without a look at the tail; a run of it that
is longer than the buffer has come back to an offset. -/
def doGetPathByNameOffLoop (b : FsBuf) : ℕ → ℕ → Mem → ℕ → PathWrite
  | 0, _, _, _ => .endless
  | fuel + 1, src, path, dst =>
    if b.head.get src ≠ 0 then b.doGetPathByNameOffLoop fuel (b.nextName src) path dst
    else
      let rel := b.getReloffByTag (src + 1)
      if rel = 0 then
        prependPath path dst (b.head.load dataStart (b.firstNameOff - dataStart - 1))
      else
        let parent := src + 1 - rel
        match prependPath path dst [slash] with
        | .written path dst =>
          match prependPath path dst (b.strAt parent) with
          | .written path dst => b.doGetPathByNameOffLoop fuel parent path dst
          | r => r
        | r => r

/-- `do_get_path_by_name_off`, with `path` the caller's buffer of `pathSize` bytes. -/
def doGetPathByNameOff (b : FsBuf) (nameOff : ℕ) (path : Mem) (pathSize : ℕ) : PathWrite :=
  match prependPath path pathSize (b.strAt nameOff ++ [0]) with
  | .written path dst => b.doGetPathByNameOffLoop (b.capacity + 1) nameOff path dst
  | r => r

end FsBuf

end DeepinAnything
