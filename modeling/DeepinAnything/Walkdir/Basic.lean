import DeepinAnything.FsBuf.Basic

/-!
# Building an index from the file system (`walkdir.c`)

`walkdir` lists a directory, appends its entries as one run with a parent tag, and then walks the
directories among them, each behind everything written so far; the kids offset of a directory is
set before the walk below it and taken back when that found nothing.
-/

namespace DeepinAnything

open ByteMem

/-- `PATH_MAX`, the terminator included. -/
def pathMax : ℕ := 4096

/-- `d_type`, as far as the walk looks at it. -/
inductive DType where
  | dir
  | reg
  | lnk
  | other
deriving DecidableEq, Repr

/-- `struct dirent` -/
structure Dirent where
  name : Bytes
  type : DType
deriving DecidableEq, Repr

/-- What a walk meets: the directories it leaves out, what `opendir` and `readdir` give for a path
(`none` when it cannot be opened), whether the progress callback cancels, and the allocator. -/
structure WalkEnv where
  shouldSkipPath : Bytes → Bool
  opendir : Bytes → Option (List Dirent)
  pcf : ℕ → ℕ → Bytes → Option Bytes → Bool
  realloc : ℕ → Bool

/-- `progress_report`. `failed` is not in the source: it remembers that an append returned
`ERR_NO_MEM`, which the walk does not look at. -/
structure ProgressReport where
  fileCount : ℕ
  dirCount : ℕ
  failed : Bool
deriving DecidableEq, Repr

/-- What `walkdir` returns. `unfinished` is not in the source: it is a walk that was stopped before
its end, in the state it had reached. -/
inductive WalkResult where
  | emptyDir
  | nonemptyDir
  | cancelled
  | unfinished
deriving DecidableEq, Repr

/-- How a walk leaves things: its result, the buffer and the report. -/
abbrev Walk := WalkResult × FsBuf × ProgressReport

/-- The path of an entry: `"%s%s"` behind a slash, `"%s/%s"` otherwise. -/
def entryPath (name entry : Bytes) : Bytes :=
  if name.getLast? = some slash then name ++ entry else name ++ slash :: entry

/-- What `snprintf` leaves of it in `path`: it is told one byte less than the array has, and takes
one of those for the terminator. -/
def walkPath (name entry : Bytes) : Bytes := (entryPath name entry).take (pathMax - 1 - 1)

/-- The entries that are left out: `.` and `..`, and what is no directory, file or link. -/
def Dirent.isSkipped (de : Dirent) : Bool :=
  de.name = [46] || de.name = [46, 46] || (de.type ≠ .dir && de.type ≠ .reg && de.type ≠ .lnk)

namespace WalkEnv

variable (env : WalkEnv)

/-- The `readdir` loop of `walkdir`; the first component tells whether it was cancelled. -/
def readEntries (name : Bytes) : List Dirent → FsBuf → ProgressReport → Bool × FsBuf × ProgressReport
  | [], b, pr => (false, b, pr)
  | de :: des, b, pr =>
    if de.isSkipped then readEntries name des b pr
    else
      let isDir := decide (de.type = .dir)
      let appended := b.appendNewName env.realloc de.name isDir
      let b := appended.getD b
      let pr : ProgressReport :=
        { fileCount := if isDir then pr.fileCount else pr.fileCount + 1
          dirCount := if isDir then pr.dirCount + 1 else pr.dirCount
          failed := pr.failed || appended.isNone }
      if env.pcf pr.fileCount pr.dirCount name (some de.name) then (true, b, pr)
      else readEntries name des b pr

/-- The loop of `walkdir` over the siblings it has appended, up to `stop`. Offsets only grow, so
the fuel `stop` does not run out. -/
def walkSiblings
    (walk : Bytes → FsBuf → ℕ → ProgressReport → Walk) (name : Bytes) (stop : ℕ) :
    ℕ → FsBuf → ℕ → ProgressReport → Walk
  | 0, b, _, pr => (.nonemptyDir, b, pr)
  | fuel + 1, b, off, pr =>
    if off < stop then
      if b.doIsFile off then walkSiblings walk name stop fuel b (b.nextName off) pr
      else
        let b := b.doSetKidsOff off b.tail
        let (result, b, pr) := walk (walkPath name (b.strAt off)) b off pr
        if result = .cancelled ∨ result = .unfinished then (result, b, pr)
        else
          let b := if result = .emptyDir then b.doSetKidsOff off 0 else b
          walkSiblings walk name stop fuel b (b.nextName off) pr
    else (.nonemptyDir, b, pr)

/-- `walkdir`. Nothing bounds its depth on an arbitrary file system, so it has fuel. -/
def walkdir : ℕ → Bytes → FsBuf → ℕ → ProgressReport → Walk
  | 0, _, b, _, pr => (.unfinished, b, pr)
  | fuel + 1, name, b, parentOff, pr =>
    if env.shouldSkipPath name then (.emptyDir, b, pr)
    else if env.pcf pr.fileCount pr.dirCount name none then (.cancelled, b, pr)
    else
      match env.opendir name with
      | none => (.emptyDir, b, pr)
      | some des =>
        let start := b.tail
        let (cancelled, b, pr) := env.readEntries name des b pr
        if cancelled then (.cancelled, b, pr)
        else if start = b.tail then (.emptyDir, b, pr)
        else
          let stop := b.tail
          let appended := b.appendParent env.realloc parentOff
          let pr := { pr with failed := pr.failed || appended.isNone }
          walkSiblings (walkdir fuel) name stop stop (appended.getD b) start pr

/-- `build_fstree`: whether it was cancelled (`none` when it has not ended), the buffer and the
report. -/
def buildFstree (fuel : ℕ) (b : FsBuf) : Option Bool × FsBuf × ProgressReport :=
  let (result, b, pr) := env.walkdir fuel b.getRootPath b 0 ⟨0, 0, false⟩
  (if result = .unfinished then none else some (decide (result = .cancelled)), b, pr)

end WalkEnv

end DeepinAnything
