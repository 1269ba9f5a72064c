import Mathlib.Data.List.Dedup
import DeepinAnything.Server.LftManager

/-!
# Who owns the buffers (`lftmanager.cpp`)

The manager holds plain pointers to the `fs_buf`s: as values of `_global_fsBufMap`, where one buffer may
stand under several paths, as keys of `_global_fsBufToFileMap` and as members of
`_global_fsBufDirtyList`. Here the maps are put together with the heap, which tells what is allocated and
which buffers are installed, and with the builds that `addPath` has started.

An event loop handles one event after the other. A handler gives `none` where the program does not get to:
`malloc` does not return a block that is in use, and a null pointer is not followed.
-/

namespace DeepinAnything.Server

/-! ## The code -/

/-- A build whose `finished` handler has not run. `path` is the first of the equivalent paths. -/
structure Job where
  watcher : ℕ
  path : QString
  pathList : List QString
  autoIndex : Bool
  canceled : Bool
deriving DecidableEq

/-- The result of a build, or none of one that was cancelled. -/
def Job.result (job : Job) (built : Option ℕ) : Option ℕ := if job.canceled then none else built

/-- The manager with the heap. `fileKeys` are the keys of `_global_fsBufToFileMap`; `installed` are the
buffers that have been put into `_global_fsBufMap` and not freed since; `badFree` is set by a
`free_fs_buf` of what is not allocated. -/
structure Buffers (α : Type*) extends LftManager α where
  fileKeys : List ℕ
  jobs : List Job
  live : List ℕ
  installed : List ℕ
  badFree : Bool

/-- A call of `addPath` with what it gets from the system. `accepted` says that the caller is authorised
and that there is a serial URI; `first` is the first of the equivalent paths as a string. -/
structure AddPath where
  path : QString
  accepted : Bool
  pathList : List QString
  first : QString
  watcher : ℕ
  autoIndex : Bool

/-- A file in the directory that `refresh` goes through: the equivalent paths, the buffer if it can be
loaded, whether the buffer has entries, and the call of `addPath` if it has none. -/
structure LftFile where
  name : QString
  pathList : List QString
  loaded : Option ℕ
  filled : Bool
  rebuild : AddPath

/-- What `onMountAdded` finds: the mount point, the files to refresh, and the build for its partition. -/
structure Mount where
  mountPoint : QString
  files : List LftFile
  build : Option AddPath

namespace Buffers

variable {α : Type*} (s : Buffers α)

/-- A new buffer. -/
def malloc (buf : ℕ) : Option (Buffers α) :=
  if buf ∈ s.live then none else some { s with live := buf :: s.live }

/-- `free_fs_buf` -/
def freeFsBuf (buf : ℕ) : Buffers α :=
  { s with
    live := s.live.filter (· ≠ buf)
    installed := s.installed.filter (· ≠ buf)
    badFree := s.badFree || buf ∉ s.live }

/-- `removeBuf` -/
def removeBuf (buf : ℕ) (removeLFTFile : Bool) : Buffers α :=
  { s with
    toLftManager := s.toLftManager.removeBuf buf removeLFTFile
    fileKeys := s.fileKeys.filter (· ≠ buf) }.freeFsBuf buf

/-- What both loops over equivalent paths do: the old buffer at the path goes, the new one comes. -/
def installPath (buf : ℕ) (path : QString) : Buffers α :=
  let s := match s.fsBufMap.lookup path with
    | some oldBuf => s.removeBuf oldBuf false
    | none => s
  { s with
    fsBufMap := (path, buf) :: s.fsBufMap.filter (·.1 ≠ path)
    installed := s.installed.insert buf }

/-- `_global_fsBufToFileMap->insert` -/
def setFile (buf : ℕ) (lftFile : QString) : Buffers α :=
  { s with
    fsBufToFileMap := Function.update s.fsBufToFileMap buf lftFile
    fileKeys := s.fileKeys.insert buf }

/-- `addPath` -/
def addPath (req : AddPath) : Buffers α :=
  if !req.accepted || (s.fsWatcherMap.lookup req.path).isSome || req.pathList.isEmpty then s
  else
    { s with
      fsWatcherMap := req.pathList.foldl (fun m path => (path, req.watcher) :: m.filter (·.1 ≠ path))
        s.fsWatcherMap
      jobs := s.jobs ++ [⟨req.watcher, req.first, req.pathList, req.autoIndex, false⟩] }

/-- `cancelBuild` -/
def cancelBuild (path : QString) : Buffers α :=
  match s.fsWatcherMap.lookup path with
  | none => s
  | some watcher =>
    { s with
      toLftManager := s.toLftManager.cancelBuild path
      jobs := s.jobs.map fun job => { job with canceled := job.canceled || job.watcher = watcher } }

/-- `allowableBuf`; `allowed` is what `allowablePath` says of the root path. -/
def allowableBuf (allowed : Bool) (buf : ℕ) : Bool :=
  ".lft".toList.isSuffixOf (s.fsBufToFileMap buf) || allowed

/-- The buffer with which the `finished` handler goes on. -/
def taken (job : Job) (built : Option ℕ) (allowed : Bool) : Option ℕ :=
  (job.result built).filter fun buf =>
    (s.fsWatcherMap.lookup job.path).isSome && (!job.autoIndex || s.allowableBuf allowed buf)

/-- One turn of the loop of the `finished` handler. -/
def finishPath (buf : Option ℕ) (path : QString) : Buffers α :=
  let s := match buf with
    | some buf =>
      let s := s.installPath buf path
      { s with toLftManager := s.toLftManager.markLFTFileToDirty buf }
    | none => s
  { s with fsWatcherMap := s.fsWatcherMap.filter (·.1 ≠ path) }

/-- The `finished` handler of `addPath`, with the buffer that was built. -/
def finished (job : Job) (built : Option ℕ) (allowed : Bool) (lftFile : QString) : Option (Buffers α) :=
  let s := { s with jobs := s.jobs.erase job }
  let built? := match built with
    | some buf => s.malloc buf
    | none => some s
  built?.map fun s =>
    let buf := s.taken job built allowed
    let s := match job.result built, buf with
      | some discarded, none => s.freeFsBuf discarded
      | _, _ => s
    let s := job.pathList.foldl (fun s path => s.finishPath buf path) s
    match buf with
    | some buf => s.setFile buf lftFile
    | none => s

/-- One turn of the loop of `refresh`. -/
def refreshFile (file : LftFile) : Option (Buffers α) :=
  match file.pathList, file.loaded with
  | [], _ => some s
  | _, none => some s
  | pathList, some buf =>
    (s.malloc buf).map fun s =>
      if file.filled then (pathList.foldl (fun s path => s.installPath buf path) s).setFile buf file.name
      else (s.addPath file.rebuild).freeFsBuf buf

/-- `refresh` of the files that the filter lets through. -/
def refresh (files : List LftFile) : Option (Buffers α) := files.foldlM refreshFile s

/-- The paths that `refresh` returns. -/
def refreshed (files : List LftFile) : List QString :=
  files.flatMap fun file => if file.loaded.isSome && file.filled then file.pathList else []

/-- `onMountAdded` -/
def onMountAdded (mount : Mount) : Option (Buffers α) :=
  (s.refresh mount.files).map fun s =>
    if mount.mountPoint ∈ refreshed mount.files then s
    else
      match mount.build with
      | some req => s.addPath req
      | none => s

/-- `removePath`; `fileRemoved` says whether `QFile::remove` succeeds, `mount` is set if there is a
storage at the path. -/
def removePath (path : QString) (fileRemoved : Bool) (mount : Option Mount) : Option (Buffers α) :=
  match s.fsBufMap.lookup path with
  | none => some s
  | some buf =>
    let s := { s with fsBufMap := s.fsBufMap.filter (·.1 ≠ path) }
    let lftFile := s.fsBufToFileMap buf
    if ".LFT".toList.isSuffixOf lftFile then some s
    else
      let s := s.removeBuf buf fileRemoved
      match mount with
      | some mount => if fileRemoved && !lftFile.isEmpty then s.onMountAdded mount else some s
      | none => some s

/-- One turn of the loop of `onMountRemoved`. -/
def unmountPath (ready : Bool) (save : QString → Bool) (path : QString) : Buffers α :=
  match s.fsBufMap.lookup path with
  | none => s
  | some buf =>
    if s.lftBuinding path then s.cancelBuild path
    else
      let s := if buf ∈ s.fsBufDirtyList then { s with toLftManager := s.toLftManager.sync ready save path }
        else s
      s.removeBuf buf false

/-- The first loop of `_cleanAllIndex`. -/
def cleanBuf (allowed : ℕ → Bool) (buf : ℕ) : Buffers α :=
  if s.allowableBuf (allowed buf) buf then s else s.removeBuf buf true

/-- The second loop of `_cleanAllIndex`. A path whose build was cancelled with an equivalent one has no
watcher any more, and the null pointer is followed. -/
def cleanBuild (pathAllowed : QString → Bool) (path : QString) : Option (Buffers α) :=
  (s.fsWatcherMap.lookup path).map fun watcher =>
    if (s.jobs.find? (·.watcher = watcher)).any (·.autoIndex) && !pathAllowed path then s.cancelBuild path
    else s

/-- `_cleanAllIndex`, with the buffers in the order in which the set has them. -/
def cleanAllIndex (bufs : List ℕ) (allowed : ℕ → Bool) (pathAllowed : QString → Bool) :
    Option (Buffers α) :=
  let s := bufs.foldl (cleanBuf · allowed ·) s
  (s.fsWatcherMap.map Prod.fst).foldlM (cleanBuild · pathAllowed ·) s

end Buffers

/-- What the event loop handles. -/
inductive Event (α : Type*) where
  | addPath (req : AddPath)
  | cancelBuild (path : QString)
  | finished (job : Job) (built : Option ℕ) (allowed : Bool) (lftFile : QString)
  | refresh (files : List LftFile)
  | onMountAdded (mount : Mount)
  | removePath (path : QString) (fileRemoved : Bool) (mount : Option Mount)
  | onMountRemoved (mountRoot : QString) (paths : List QString) (ready : QString → Bool)
      (save : QString → QString → Bool)
  | cleanAllIndex (bufs : List ℕ) (allowed : ℕ → Bool) (pathAllowed : QString → Bool)
  | change (buf : ℕ) (ok : Bool) (image : α)
  | syncAll (ready : Bool) (save : QString → Bool)

namespace Buffers

variable {α : Type*}

/-- The manager after an event. The maps are gone through in any order of their keys. -/
def handle (s : Buffers α) : Event α → Option (Buffers α)
  | .addPath req => some (s.addPath req)
  | .cancelBuild path => some (s.cancelBuild path)
  | .finished job built allowed lftFile =>
    if job ∈ s.jobs then s.finished job built allowed lftFile else none
  | .refresh files => s.refresh files
  | .onMountAdded mount => s.onMountAdded mount
  | .removePath path fileRemoved mount => s.removePath path fileRemoved mount
  | .onMountRemoved mountRoot paths ready save =>
    if paths.Perm (s.hasLFTSubdirectories mountRoot) then
      some (paths.foldl (fun s path => s.unmountPath (ready path) (save path) path) s)
    else none
  | .cleanAllIndex bufs allowed pathAllowed =>
    if bufs.Perm s.fsBufList.dedup then s.cleanAllIndex bufs allowed pathAllowed else none
  | .change buf ok image =>
    if buf ∈ s.fsBufList then some { s with toLftManager := s.toLftManager.change buf ok image } else none
  | .syncAll ready save => some { s with toLftManager := s.toLftManager.syncAll ready save }

/-- The manager at its start. -/
def initial (content : ℕ → α) (disk : QString → Option α) : Buffers α where
  fsBufMap := []
  fsBufToFileMap := fun _ => []
  fsBufDirtyList := []
  fsWatcherMap := []
  content := content
  disk := disk
  fileKeys := []
  jobs := []
  live := []
  installed := []
  badFree := false

/-- The states of runs whose events all meet a condition. -/
inductive Reachable (ok : Buffers α → Event α → Prop) : Buffers α → Prop
  | initial (content : ℕ → α) (disk : QString → Option α) : Reachable ok (initial content disk)
  | step {s s' : Buffers α} {e : Event α} (hs : Reachable ok s) (he : ok s e)
      (hstep : s.handle e = some s') : Reachable ok s'

/-- Every buffer that the manager holds is allocated, no other was freed, and those that are installed
can be reached. -/
structure Safe (s : Buffers α) : Prop where
  mapped : ∀ buf ∈ s.fsBufList, buf ∈ s.live
  named : ∀ buf ∈ s.fileKeys, buf ∈ s.live
  dirty : ∀ buf ∈ s.fsBufDirtyList, buf ∈ s.live
  frees : s.badFree = false
  reached : ∀ buf ∈ s.installed, buf ∈ s.live ∧ ∃ path, s.fsBufMap.lookup path = some buf

/-- The files that `refresh` installs have no path twice. -/
def FilesOk (files : List LftFile) : Prop :=
  ∀ file ∈ files, file.loaded.isSome → file.filled → file.pathList.Nodup

/-- What is installed comes with a list of different paths, and a removal is not refused where the path is
the only one of its buffer. -/
def EventOk (s : Buffers α) : Event α → Prop
  | .finished job built allowed _ => (s.taken job built allowed).isSome → job.pathList.Nodup
  | .refresh files => FilesOk files
  | .onMountAdded mount => FilesOk mount.files
  | .removePath path _ mount =>
    (∀ buf, s.fsBufMap.lookup path = some buf → ".LFT".toList.isSuffixOf (s.fsBufToFileMap buf) →
      ∃ path' ≠ path, s.fsBufMap.lookup path' = some buf) ∧ ∀ m ∈ mount, FilesOk m.files
  | _ => True

/-! ## What every event keeps -/

/-- The installed buffers are those of the map, they are allocated, and nothing else is held. -/
structure Owned (s : Buffers α) : Prop where
  keys : (s.fsBufMap.map Prod.fst).Nodup
  installed_iff : ∀ buf, buf ∈ s.installed ↔ buf ∈ s.fsBufList
  live : ∀ buf ∈ s.installed, buf ∈ s.live
  named : ∀ buf ∈ s.fileKeys, buf ∈ s.installed
  dirty : ∀ buf ∈ s.fsBufDirtyList, buf ∈ s.installed
  frees : s.badFree = false
  jobs : ∀ job ∈ s.jobs, job.pathList ≠ []

variable {s s' : Buffers α} {buf : ℕ} {path : QString}

theorem mem_fsBufList : buf ∈ s.fsBufList ↔ ∃ path, (path, buf) ∈ s.fsBufMap := by
  show buf ∈ s.fsBufMap.map Prod.snd ↔ _
  simp

theorem Owned.lookup_iff (h : s.Owned) : s.fsBufMap.lookup path = some buf ↔ (path, buf) ∈ s.fsBufMap := by
  refine ⟨LftManager.mem_of_lookup, fun hmem => ?_⟩
  cases hlookup : s.fsBufMap.lookup path with
  | none => simpa using List.lookup_eq_none_iff.mp hlookup _ hmem
  | some buf' =>
    have := List.inj_on_of_nodup_map h.keys (LftManager.mem_of_lookup hlookup) hmem rfl
    rw [(Prod.mk.inj this).2]

theorem Owned.safe (h : s.Owned) : s.Safe := by
  refine ⟨fun buf hbuf => h.live buf ((h.installed_iff buf).mpr hbuf), fun buf hbuf => h.live buf (h.named buf hbuf),
    fun buf hbuf => h.live buf (h.dirty buf hbuf), h.frees, fun buf hbuf => ⟨h.live buf hbuf, ?_⟩⟩
  obtain ⟨path, hmem⟩ := mem_fsBufList.mp ((h.installed_iff buf).mp hbuf)
  exact ⟨path, h.lookup_iff.mpr hmem⟩

theorem owned_initial (content : ℕ → α) (disk : QString → Option α) : (initial content disk).Owned :=
  ⟨List.nodup_nil, fun _ => Iff.rfl, by simp [initial], by simp [initial], by simp [initial], rfl,
    by simp [initial]⟩

/-- Events that hold no other buffers and free none. -/
theorem Owned.congr (h : s.Owned) (hmap : s'.fsBufMap = s.fsBufMap) (hinstalled : s'.installed = s.installed)
    (hlive : s'.live = s.live) (hnamed : s'.fileKeys = s.fileKeys)
    (hdirty : ∀ buf ∈ s'.fsBufDirtyList, buf ∈ s.installed) (hfrees : s'.badFree = s.badFree)
    (hjobs : ∀ job ∈ s'.jobs, job.pathList ≠ []) : s'.Owned := by
  refine ⟨by rw [hmap]; exact h.keys, fun buf => ?_, by rw [hinstalled, hlive]; exact h.live,
    by rw [hnamed, hinstalled]; exact h.named, by rw [hinstalled]; exact hdirty, hfrees.trans h.frees, hjobs⟩
  rw [hinstalled, h.installed_iff, mem_fsBufList, mem_fsBufList, hmap]

/-! ## Allocation -/

theorem malloc_eq_some (h : s.malloc buf = some s') : buf ∉ s.live ∧ s' = { s with live := buf :: s.live } := by
  rw [malloc] at h
  split at h
  · simp at h
  · rename_i hfree
    exact ⟨hfree, (Option.some.inj h).symm⟩

/-- A new buffer is allocated and nowhere in the maps. -/
theorem Owned.malloc (h : s.Owned) (hs : s.malloc buf = some s') :
    s'.Owned ∧ buf ∈ s'.live ∧ buf ∉ s'.installed := by
  obtain ⟨hfree, rfl⟩ := malloc_eq_some hs
  refine ⟨⟨h.keys, h.installed_iff, fun b hb => ?_, h.named, h.dirty, h.frees, h.jobs⟩, List.mem_cons_self,
    fun hb => ?_⟩
  · exact List.mem_cons_of_mem _ (h.live b hb)
  · exact hfree (h.live buf hb)

/-- A buffer that is not installed can be freed. -/
theorem Owned.freeFsBuf (h : s.Owned) (hlive : buf ∈ s.live) (hnot : buf ∉ s.installed) :
    (s.freeFsBuf buf).Owned := by
  have hsame : s.installed.filter (· ≠ buf) = s.installed :=
    List.filter_eq_self.mpr fun b hb => decide_eq_true fun heq => hnot (heq ▸ hb)
  refine ⟨h.keys, fun b => ?_, fun b hb => ?_, fun b hb => ?_, fun b hb => ?_, ?_, h.jobs⟩
  · show b ∈ s.installed.filter (· ≠ buf) ↔ _
    rw [hsame]
    exact h.installed_iff b
  · have hb : b ∈ s.installed.filter (· ≠ buf) := hb
    obtain ⟨hb, hne⟩ := List.mem_filter.mp hb
    exact List.mem_filter.mpr ⟨h.live b hb, hne⟩
  · show b ∈ s.installed.filter (· ≠ buf)
    rw [hsame]
    exact h.named b hb
  · show b ∈ s.installed.filter (· ≠ buf)
    rw [hsame]
    exact h.dirty b hb
  · simp [Buffers.freeFsBuf, h.frees, hlive]

/-! ## Removal -/

theorem removeBuf_fsBufMap (s : Buffers α) (buf : ℕ) (flag : Bool) :
    (s.removeBuf buf flag).fsBufMap = s.fsBufMap.filter (·.2 ≠ buf) := by
  cases flag with
  | false => rfl
  | true =>
    simp only [removeBuf, freeFsBuf, LftManager.removeBuf, LftManager.doLFTFileToDirty, if_true]
    split <;> rfl

theorem removeBuf_fsBufDirtyList (s : Buffers α) (buf : ℕ) (flag : Bool) :
    (s.removeBuf buf flag).fsBufDirtyList = s.fsBufDirtyList.filter (· ≠ buf) := by
  cases flag with
  | false => rfl
  | true =>
    simp only [removeBuf, freeFsBuf, LftManager.removeBuf, LftManager.doLFTFileToDirty, if_true]
    split <;> rfl

theorem mem_removeBuf_fsBufList {b : ℕ} {flag : Bool} :
    b ∈ (s.removeBuf buf flag).fsBufList ↔ b ∈ s.fsBufList ∧ b ≠ buf := by
  rw [mem_fsBufList, mem_fsBufList, removeBuf_fsBufMap]
  simp

/-- A buffer that is installed is removed under all its paths and freed. -/
theorem Owned.removeBuf (h : s.Owned) (hbuf : buf ∈ s.installed) (flag : Bool) : (s.removeBuf buf flag).Owned := by
  have hinst : (s.removeBuf buf flag).installed = s.installed.filter (· ≠ buf) := rfl
  have hmem : ∀ {b : ℕ}, b ∈ s.installed → b ≠ buf → b ∈ (s.removeBuf buf flag).installed := fun hb hne => by
    rw [hinst]
    exact List.mem_filter.mpr ⟨hb, decide_eq_true hne⟩
  refine ⟨?_, fun b => ?_, fun b hb => ?_, fun b hb => ?_, fun b hb => ?_, ?_, h.jobs⟩
  · rw [removeBuf_fsBufMap]
    exact h.keys.sublist (List.filter_sublist.map _)
  · rw [mem_removeBuf_fsBufList, hinst, List.mem_filter, h.installed_iff, decide_eq_true_eq]
  · rw [hinst] at hb
    obtain ⟨hb, hne⟩ := List.mem_filter.mp hb
    exact List.mem_filter.mpr ⟨h.live b hb, hne⟩
  · have hb : b ∈ s.fileKeys.filter (· ≠ buf) := hb
    obtain ⟨hb, hne⟩ := List.mem_filter.mp hb
    exact hmem (h.named b hb) (of_decide_eq_true hne)
  · rw [removeBuf_fsBufDirtyList] at hb
    obtain ⟨hb, hne⟩ := List.mem_filter.mp hb
    exact hmem (h.dirty b hb) (of_decide_eq_true hne)
  · simp [Buffers.removeBuf, Buffers.freeFsBuf, h.frees, h.live buf hbuf]

/-- A filter that keeps the entry of a key finds it again. -/
theorem lookup_filter {β γ : Type*} [BEq β] [LawfulBEq β] {l : List (β × γ)} {f : β × γ → Bool} {k : β} {v : γ}
    (h : l.lookup k = some v) (hf : f (k, v) = true) : (l.filter f).lookup k = some v := by
  induction l with
  | nil => cases h
  | cons e l ih =>
    obtain ⟨k', v'⟩ := e
    rw [List.lookup_cons] at h
    rw [List.filter_cons]
    by_cases hk : k = k'
    · subst hk
      obtain rfl : v' = v := by simpa using h
      simp [hf]
    · have hrest : l.lookup k = some v := by simpa [beq_false_of_ne hk] using h
      split
      · rw [List.lookup_cons, beq_false_of_ne hk]
        exact ih hrest
      · exact ih hrest

/-! ## Installation -/

/-- The buffer can be installed under the paths that are left. -/
structure Ready (s : Buffers α) (buf : ℕ) (paths : List QString) : Prop where
  owned : s.Owned
  live : buf ∈ s.live
  free : ∀ path ∈ paths, (path, buf) ∉ s.fsBufMap

theorem Ready.installPath {paths : List QString} (h : s.Ready buf (path :: paths)) (hpath : path ∉ paths) :
    (s.installPath buf path).Ready buf paths ∧ buf ∈ (s.installPath buf path).installed := by
  -- without the old buffer the path is free
  obtain ⟨s₁, hs₁, howned, hlive, hnone, hsub⟩ : ∃ s₁ : Buffers α,
      (match s.fsBufMap.lookup path with
        | some oldBuf => s.removeBuf oldBuf false
        | none => s) = s₁ ∧ s₁.Owned ∧ buf ∈ s₁.live ∧ (∀ e ∈ s₁.fsBufMap, e.1 ≠ path) ∧
      ∀ e ∈ s₁.fsBufMap, e ∈ s.fsBufMap := by
    cases hlookup : s.fsBufMap.lookup path with
    | none =>
      refine ⟨s, rfl, h.owned, h.live, fun e he heq => ?_, fun e he => he⟩
      simpa [heq] using List.lookup_eq_none_iff.mp hlookup e he
    | some oldBuf =>
      have hmem := LftManager.mem_of_lookup hlookup
      have hne : buf ≠ oldBuf := fun heq => h.free path List.mem_cons_self (heq ▸ hmem)
      have hinst := (h.owned.installed_iff oldBuf).mpr (mem_fsBufList.mpr ⟨path, hmem⟩)
      refine ⟨_, rfl, h.owned.removeBuf hinst false, ?_, fun e he heq => ?_, fun e he => ?_⟩
      · exact List.mem_filter.mpr ⟨h.live, decide_eq_true hne⟩
      · rw [removeBuf_fsBufMap, List.mem_filter, decide_eq_true_eq] at he
        exact he.2 (congrArg Prod.snd (List.inj_on_of_nodup_map h.owned.keys he.1 hmem heq))
      · rw [removeBuf_fsBufMap] at he
        exact (List.mem_filter.mp he).1
  have hfilter : s₁.fsBufMap.filter (·.1 ≠ path) = s₁.fsBufMap :=
    List.filter_eq_self.mpr fun e he => decide_eq_true (hnone e he)
  have hnew : s.installPath buf path =
      { s₁ with fsBufMap := (path, buf) :: s₁.fsBufMap, installed := s₁.installed.insert buf } := by
    rw [Buffers.installPath, hs₁]
    simp only [hfilter]
  rw [hnew]
  refine ⟨⟨⟨?_, fun b => ?_, fun b hb => ?_, fun b hb => ?_, fun b hb => ?_, howned.frees,
    howned.jobs⟩, hlive, fun p hp hmem => ?_⟩, List.mem_insert_self⟩
  · refine List.nodup_cons.mpr ⟨fun hmem => ?_, howned.keys⟩
    obtain ⟨e, he, heq⟩ := List.mem_map.mp hmem
    exact hnone e he heq
  · have hlist : ({ s₁ with fsBufMap := (path, buf) :: s₁.fsBufMap, installed := s₁.installed.insert buf } :
        Buffers α).fsBufList = buf :: s₁.fsBufList := rfl
    rw [hlist, List.mem_cons, ← howned.installed_iff]
    exact List.mem_insert_iff
  · rcases List.mem_insert_iff.mp hb with rfl | hb
    · exact hlive
    · exact howned.live b hb
  · exact List.mem_insert_of_mem (howned.named b hb)
  · exact List.mem_insert_of_mem (howned.dirty b hb)
  · rcases List.mem_cons.mp hmem with heq | hmem
    · exact hpath ((Prod.mk.inj heq).1 ▸ hp)
    · exact h.free p (List.mem_cons_of_mem _ hp) (hsub _ hmem)

/-- A loop over different paths that installs the buffer under each of them. -/
theorem Ready.foldl {turn : Buffers α → QString → Buffers α} {paths : List QString} (h : s.Ready buf paths)
    (hpaths : paths.Nodup) (hne : paths ≠ [])
    (hturn : ∀ (s : Buffers α) (path : QString) (rest : List QString), s.Ready buf (path :: rest) →
      path ∉ rest → (turn s path).Ready buf rest ∧ buf ∈ (turn s path).installed) :
    (paths.foldl turn s).Owned ∧ buf ∈ (paths.foldl turn s).installed := by
  induction paths generalizing s with
  | nil => exact absurd rfl hne
  | cons path paths ih =>
    obtain ⟨hpath, hpaths⟩ := List.nodup_cons.mp hpaths
    obtain ⟨hready, hinst⟩ := hturn s path paths h hpath
    by_cases hlast : paths = []
    · subst hlast
      exact ⟨hready.owned, hinst⟩
    · exact ih hready hpaths hlast

theorem Ready.finishPath {paths : List QString} (h : s.Ready buf (path :: paths)) (hpath : path ∉ paths) :
    (s.finishPath (some buf) path).Ready buf paths ∧ buf ∈ (s.finishPath (some buf) path).installed := by
  obtain ⟨⟨howned, hlive, hfree⟩, hinst⟩ := h.installPath hpath
  refine ⟨⟨howned.congr rfl rfl rfl rfl (fun b hb => ?_) rfl howned.jobs, hlive, hfree⟩, hinst⟩
  rcases List.mem_insert_iff.mp hb with rfl | hb
  · exact hinst
  · exact howned.dirty b hb

theorem Owned.setFile (h : s.Owned) (hbuf : buf ∈ s.installed) (lftFile : QString) :
    (s.setFile buf lftFile).Owned := by
  refine ⟨h.keys, h.installed_iff, h.live, fun b hb => ?_, h.dirty, h.frees, h.jobs⟩
  rcases List.mem_insert_iff.mp hb with rfl | hb
  · exact hbuf
  · exact h.named b hb

/-! ## The handlers -/

theorem Owned.addPath (h : s.Owned) (req : AddPath) : (s.addPath req).Owned := by
  rw [Buffers.addPath]
  split
  · exact h
  · rename_i haccepted
    refine h.congr rfl rfl rfl rfl h.dirty rfl fun job hjob => ?_
    rcases List.mem_append.mp hjob with hjob | hjob
    · exact h.jobs job hjob
    · rw [List.mem_singleton.mp hjob]
      rintro (hnil : req.pathList = [])
      simp [hnil] at haccepted

theorem addPath_heap (s : Buffers α) (req : AddPath) :
    (s.addPath req).live = s.live ∧ (s.addPath req).installed = s.installed := by
  rw [Buffers.addPath]
  split <;> exact ⟨rfl, rfl⟩

theorem cancelBuild_toLftManager (m : LftManager α) (path : QString) :
    (m.cancelBuild path).fsBufMap = m.fsBufMap ∧ (m.cancelBuild path).fsBufDirtyList = m.fsBufDirtyList := by
  rw [LftManager.cancelBuild]
  split <;> exact ⟨rfl, rfl⟩

theorem Owned.cancelBuild (h : s.Owned) (path : QString) : (s.cancelBuild path).Owned := by
  rw [Buffers.cancelBuild]
  split
  · exact h
  · obtain ⟨hmap, hdirty⟩ := cancelBuild_toLftManager s.toLftManager path
    refine h.congr hmap rfl rfl rfl (fun b hb => h.dirty b (hdirty ▸ hb)) rfl fun job hjob => ?_
    obtain ⟨job₀, hjob₀, rfl⟩ := List.mem_map.mp hjob
    exact h.jobs job₀ hjob₀

/-- A build's result, if it is not cancelled. -/
theorem result_eq_some {job : Job} {built : Option ℕ} (h : job.result built = some buf) : built = some buf := by
  rw [Job.result] at h
  split at h
  · simp at h
  · exact h

/-- The loop of a build that is discarded holds no buffer. -/
theorem Owned.foldl_finishPath_none (h : s.Owned) (paths : List QString) :
    (paths.foldl (fun s path => s.finishPath none path) s).Owned := by
  induction paths generalizing s with
  | nil => exact h
  | cons path paths ih => exact ih (h.congr rfl rfl rfl rfl h.dirty rfl h.jobs)

/-- Taking the job out and allocating its result changes nothing about which buffer is taken. -/
theorem taken_of_built {job : Job} {built : Option ℕ} {s₁ : Buffers α}
    (hs : (match built with
      | some buf => ({ s with jobs := s.jobs.erase job } : Buffers α).malloc buf
      | none => some { s with jobs := s.jobs.erase job }) = some s₁) (allowed : Bool) :
    s₁.taken job built allowed = s.taken job built allowed := by
  cases built with
  | none =>
    obtain rfl := Option.some.inj hs
    rfl
  | some buf =>
    obtain ⟨-, rfl⟩ := malloc_eq_some hs
    rfl

/-- The handler takes its result and installs it, frees it, or lets it be. -/
theorem Owned.finished (h : s.Owned) {job : Job} {built : Option ℕ} {allowed : Bool} {lftFile : QString}
    (hjob : job ∈ s.jobs) (hok : (s.taken job built allowed).isSome → job.pathList.Nodup)
    (hs : s.finished job built allowed lftFile = some s') : s'.Owned := by
  obtain ⟨s₁, hs₁, rfl⟩ := Option.map_eq_some_iff.mp hs
  have h₀ : ({ s with jobs := s.jobs.erase job } : Buffers α).Owned :=
    h.congr rfl rfl rfl rfl h.dirty rfl fun job' hjob' => h.jobs job' (List.mem_of_mem_erase hjob')
  dsimp only
  rw [taken_of_built hs₁]
  cases htake : s.taken job built allowed with
  | none =>
    cases hresult : job.result built with
    | none =>
      refine Owned.foldl_finishPath_none ?_ _
      cases built with
      | none => exact Option.some.inj hs₁ ▸ h₀
      | some buf => exact (h₀.malloc hs₁).1
    | some buf =>
      obtain rfl := result_eq_some hresult
      obtain ⟨h₁, hlive, hnot⟩ := h₀.malloc hs₁
      exact (h₁.freeFsBuf hlive hnot).foldl_finishPath_none _
  | some buf =>
    have hresult : job.result built = some buf := (Option.filter_eq_some_iff.mp htake).1
    obtain rfl := result_eq_some hresult
    obtain ⟨h₁, hlive, hnot⟩ := h₀.malloc hs₁
    simp only [hresult]
    have hready : s₁.Ready buf job.pathList :=
      ⟨h₁, hlive, fun p _ hmem => hnot ((h₁.installed_iff buf).mpr (mem_fsBufList.mpr ⟨p, hmem⟩))⟩
    obtain ⟨howned, hinst⟩ := hready.foldl (hok (by rw [htake]; rfl)) (h.jobs job hjob)
      fun s path rest hr hp => hr.finishPath hp
    exact howned.setFile hinst lftFile

/-- The buffer stands under the paths that have been done, and under no other. -/
structure Placed (s : Buffers α) (buf : ℕ) (done : List QString) : Prop where
  there : ∀ path ∈ done, s.fsBufMap.lookup path = some buf
  only : ∀ e ∈ s.fsBufMap, e.2 = buf → e.1 ∈ done

theorem Placed.finishPath {done : List QString} {path : QString} (h : s.Placed buf done) (hpath : path ∉ done) :
    (s.finishPath (some buf) path).Placed buf (path :: done) ∧
      (s.finishPath (some buf) path).content = s.content := by
  -- the old buffer at the path is another one
  obtain ⟨s₁, hs₁, hthere, honly, hcontent⟩ : ∃ s₁ : Buffers α,
      (match s.fsBufMap.lookup path with
        | some oldBuf => s.removeBuf oldBuf false
        | none => s) = s₁ ∧ (∀ p ∈ done, s₁.fsBufMap.lookup p = some buf) ∧
      (∀ e ∈ s₁.fsBufMap, e.2 = buf → e.1 ∈ done) ∧ s₁.content = s.content := by
    cases hlookup : s.fsBufMap.lookup path with
    | none => exact ⟨s, rfl, h.there, h.only, rfl⟩
    | some oldBuf =>
      have hne : buf ≠ oldBuf := by
        rintro rfl
        exact hpath (h.only _ (LftManager.mem_of_lookup hlookup) rfl)
      refine ⟨_, rfl, fun p hp => ?_, fun e he heq => ?_, rfl⟩
      · rw [removeBuf_fsBufMap]
        exact lookup_filter (h.there p hp) (by simpa using hne)
      · rw [removeBuf_fsBufMap] at he
        exact h.only e (List.mem_filter.mp he).1 heq
  have hmap : (s.finishPath (some buf) path).fsBufMap = (path, buf) :: s₁.fsBufMap.filter (·.1 ≠ path) := by
    rw [← hs₁]
    rfl
  refine ⟨⟨fun p hp => ?_, fun e he heq => ?_⟩, ?_⟩
  · rw [hmap, List.lookup_cons]
    by_cases hsame : p = path
    · simp [hsame]
    · rw [beq_false_of_ne hsame]
      exact lookup_filter (hthere p ((List.mem_cons.mp hp).resolve_left hsame)) (by simpa using hsame)
  · rw [hmap] at he
    rcases List.mem_cons.mp he with rfl | he
    · exact List.mem_cons_self
    · exact List.mem_cons_of_mem _ (honly e (List.mem_filter.mp he).1 heq)
  · rw [← hcontent, ← hs₁]
    rfl

theorem Placed.foldl_finishPath {done paths : List QString} (h : s.Placed buf done) (hnodup : paths.Nodup)
    (hpaths : ∀ path ∈ paths, path ∉ done) :
    (∀ path ∈ paths, (paths.foldl (fun s path => s.finishPath (some buf) path) s).fsBufMap.lookup path = some buf) ∧
      (∀ path ∈ done, (paths.foldl (fun s path => s.finishPath (some buf) path) s).fsBufMap.lookup path = some buf) ∧
      (paths.foldl (fun s path => s.finishPath (some buf) path) s).content = s.content := by
  induction paths generalizing s done with
  | nil => exact ⟨fun _ hpath => absurd hpath List.not_mem_nil, h.there, rfl⟩
  | cons path paths ih =>
    obtain ⟨hnew, hrest⟩ := List.nodup_cons.mp hnodup
    obtain ⟨hplaced, hcontent⟩ := h.finishPath (hpaths path List.mem_cons_self)
    obtain ⟨hthere, hdone, hcontent'⟩ := ih hplaced hrest fun p hp => by
      rw [List.mem_cons, not_or]
      exact ⟨fun heq => hnew (heq ▸ hp), hpaths p (List.mem_cons_of_mem _ hp)⟩
    refine ⟨fun p hp => ?_, fun p hp => hdone p (List.mem_cons_of_mem _ hp), hcontent'.trans hcontent⟩
    rcases List.mem_cons.mp hp with rfl | hp
    · exact hdone p List.mem_cons_self
    · exact hthere p hp

/-- A build that is not discarded is installed under all its paths. -/
theorem finished_installs {job : Job} {allowed : Bool} {lftFile : QString}
    (hs : s.finished job (some buf) allowed lftFile = some s') (htaken : s.taken job (some buf) allowed = some buf)
    (hfresh : buf ∉ s.fsBufList) (hnodup : job.pathList.Nodup) :
    (∀ path ∈ job.pathList, s'.fsBufMap.lookup path = some buf) ∧ s'.content = s.content := by
  obtain ⟨s₁, hs₁, rfl⟩ := Option.map_eq_some_iff.mp hs
  obtain ⟨-, rfl⟩ := malloc_eq_some hs₁
  have hresult : job.result (some buf) = some buf := (Option.filter_eq_some_iff.mp htaken).1
  have htaken' : Buffers.taken { s with jobs := s.jobs.erase job, live := buf :: s.live } job (some buf) allowed =
      some buf := htaken
  simp only [htaken', hresult]
  have hplaced : Placed (α := α) { s with jobs := s.jobs.erase job, live := buf :: s.live } buf [] :=
    ⟨fun _ hpath => absurd hpath List.not_mem_nil, fun e he heq => absurd (heq ▸ List.mem_map_of_mem he) hfresh⟩
  obtain ⟨hthere, -, hcontent⟩ := hplaced.foldl_finishPath hnodup fun _ _ => List.not_mem_nil
  exact ⟨hthere, hcontent⟩

/-- A file is loaded and installed, or it is not held. -/
theorem Owned.refreshFile (h : s.Owned) {file : LftFile}
    (hok : file.loaded.isSome → file.filled → file.pathList.Nodup) (hs : s.refreshFile file = some s') :
    s'.Owned := by
  rw [Buffers.refreshFile.eq_def] at hs
  split at hs
  · exact Option.some.inj hs ▸ h
  · exact Option.some.inj hs ▸ h
  · rename_i buf hloaded hne
    obtain ⟨s₁, hs₁, rfl⟩ := Option.map_eq_some_iff.mp hs
    obtain ⟨h₁, hlive, hnot⟩ := h.malloc hs₁
    split
    · rename_i hfilled
      have hready : s₁.Ready buf file.pathList :=
        ⟨h₁, hlive, fun p _ hmem => hnot ((h₁.installed_iff buf).mpr (mem_fsBufList.mpr ⟨p, hmem⟩))⟩
      obtain ⟨howned, hinst⟩ := hready.foldl (hok (by rw [hloaded]; rfl) hfilled) hne
        fun s path rest hr hp => hr.installPath hp
      exact howned.setFile hinst file.name
    · obtain ⟨hlive', hinst⟩ := addPath_heap s₁ file.rebuild
      exact (h₁.addPath file.rebuild).freeFsBuf (hlive' ▸ hlive) (hinst ▸ hnot)

theorem Owned.refresh (h : s.Owned) {files : List LftFile} (hok : FilesOk files)
    (hs : s.refresh files = some s') : s'.Owned := by
  induction files generalizing s with
  | nil => exact Option.some.inj hs ▸ h
  | cons file files ih =>
    rw [Buffers.refresh, List.foldlM_cons] at hs
    obtain ⟨s₁, hs₁, hs⟩ := Option.bind_eq_some_iff.mp hs
    exact ih (h.refreshFile (hok file List.mem_cons_self) hs₁)
      (fun f hf => hok f (List.mem_cons_of_mem _ hf)) hs

theorem Owned.onMountAdded (h : s.Owned) {mount : Mount} (hok : FilesOk mount.files)
    (hs : s.onMountAdded mount = some s') : s'.Owned := by
  obtain ⟨s₁, hs₁, rfl⟩ := Option.map_eq_some_iff.mp hs
  have h₁ := h.refresh hok hs₁
  split
  · exact h₁
  · split
    · exact h₁.addPath _
    · exact h₁

/-- Taking the path first makes no difference to `removeBuf`, which takes all paths of the buffer. -/
theorem Owned.removeBuf_of_taken (h : s.Owned) (hlookup : s.fsBufMap.lookup path = some buf) (flag : Bool) :
    ({ s with fsBufMap := s.fsBufMap.filter (·.1 ≠ path) } : Buffers α).removeBuf buf flag =
      s.removeBuf buf flag := by
  have hfilter : (s.fsBufMap.filter (·.1 ≠ path)).filter (·.2 ≠ buf) = s.fsBufMap.filter (·.2 ≠ buf) := by
    rw [List.filter_filter]
    refine List.filter_congr fun e he => ?_
    by_cases hkey : e.1 = path
    · have : e.2 = buf := congrArg Prod.snd
        (List.inj_on_of_nodup_map h.keys he (LftManager.mem_of_lookup hlookup) hkey)
      simp [this]
    · simp [hkey]
  simp only [Buffers.removeBuf, LftManager.removeBuf, hfilter]

/-- A removal that is refused takes the path all the same, and the buffer stays under the other one. -/
theorem Owned.take (h : s.Owned) (hlookup : s.fsBufMap.lookup path = some buf) {path' : QString}
    (hne : path' ≠ path) (hlookup' : s.fsBufMap.lookup path' = some buf) :
    ({ s with fsBufMap := s.fsBufMap.filter (·.1 ≠ path) } : Buffers α).Owned := by
  refine ⟨h.keys.sublist (List.filter_sublist.map _), fun b => ?_, h.live, h.named, h.dirty, h.frees, h.jobs⟩
  show b ∈ s.installed ↔ b ∈ (s.fsBufMap.filter (·.1 ≠ path)).map Prod.snd
  rw [h.installed_iff, mem_fsBufList]
  constructor
  · rintro ⟨p, hp⟩
    by_cases hkey : p = path
    · subst hkey
      obtain rfl : buf = b := Option.some.inj (hlookup.symm.trans (h.lookup_iff.mpr hp))
      exact List.mem_map.mpr ⟨(path', buf), List.mem_filter.mpr
        ⟨LftManager.mem_of_lookup hlookup', decide_eq_true hne⟩, rfl⟩
    · exact List.mem_map.mpr ⟨(p, b), List.mem_filter.mpr ⟨hp, decide_eq_true hkey⟩, rfl⟩
  · intro hb
    obtain ⟨e, he, rfl⟩ := List.mem_map.mp hb
    exact ⟨e.1, (List.mem_filter.mp he).1⟩

theorem Owned.installed_of_lookup (h : s.Owned) (hlookup : s.fsBufMap.lookup path = some buf) :
    buf ∈ s.installed :=
  (h.installed_iff buf).mpr (mem_fsBufList.mpr ⟨path, LftManager.mem_of_lookup hlookup⟩)

theorem Owned.removePath (h : s.Owned) {fileRemoved : Bool} {mount : Option Mount}
    (hkey : ∀ buf, s.fsBufMap.lookup path = some buf → ".LFT".toList.isSuffixOf (s.fsBufToFileMap buf) →
      ∃ path' ≠ path, s.fsBufMap.lookup path' = some buf)
    (hok : ∀ m ∈ mount, FilesOk m.files) (hs : s.removePath path fileRemoved mount = some s') : s'.Owned := by
  rw [Buffers.removePath] at hs
  split at hs
  · exact Option.some.inj hs ▸ h
  · rename_i buf hlookup
    dsimp only at hs
    split at hs
    · rename_i hrefused
      obtain ⟨path', hne, hlookup'⟩ := hkey buf hlookup hrefused
      exact Option.some.inj hs ▸ h.take hlookup hne hlookup'
    · rw [h.removeBuf_of_taken hlookup] at hs
      have h₁ := h.removeBuf (h.installed_of_lookup hlookup) fileRemoved
      split at hs
      · split at hs
        · exact h₁.onMountAdded (hok _ rfl) hs
        · exact Option.some.inj hs ▸ h₁
      · exact Option.some.inj hs ▸ h₁

/-! ### Saving -/

/-- Saving takes buffers from the dirty list and leaves the maps. -/
theorem syncLoop_maps (save : QString → Bool) (mountPoint : QString) (rest : List (QString × ℕ))
    (savedBufList : List ℕ) (m : LftManager α) :
    (m.syncLoop save mountPoint rest savedBufList).fsBufMap = m.fsBufMap ∧
      (m.syncLoop save mountPoint rest savedBufList).fsBufDirtyList ⊆ m.fsBufDirtyList := by
  fun_induction LftManager.syncLoop save mountPoint rest savedBufList m with
  | case1 => exact ⟨rfl, fun _ hb => hb⟩
  | case2 _ _ _ _ _ _ ih => exact ih
  | case3 _ _ _ _ _ _ _ ih => exact ih
  | case4 _ _ _ _ _ _ _ _ _ ih => exact ih
  | case5 _ _ _ _ _ _ _ _ _ _ ih => exact ⟨ih.1, fun b hb => (List.mem_filter.mp (ih.2 hb)).1⟩
  | case6 _ _ _ _ _ _ _ _ _ _ ih => exact ih

theorem sync_maps (m : LftManager α) (ready : Bool) (save : QString → Bool) (mountPoint : QString) :
    (m.sync ready save mountPoint).fsBufMap = m.fsBufMap ∧
      (m.sync ready save mountPoint).fsBufDirtyList ⊆ m.fsBufDirtyList := by
  rw [LftManager.sync]
  split
  · exact syncLoop_maps save mountPoint m.fsBufMap [] m
  · exact ⟨rfl, fun _ hb => hb⟩

theorem Owned.sync (h : s.Owned) (ready : Bool) (save : QString → Bool) (mountPoint : QString) :
    ({ s with toLftManager := s.toLftManager.sync ready save mountPoint } : Buffers α).Owned := by
  obtain ⟨hmap, hdirty⟩ := sync_maps s.toLftManager ready save mountPoint
  exact h.congr hmap rfl rfl rfl (fun b hb => h.dirty b (hdirty hb)) rfl h.jobs

theorem Owned.syncAll (h : s.Owned) (ready : Bool) (save : QString → Bool) :
    ({ s with toLftManager := s.toLftManager.syncAll ready save } : Buffers α).Owned := by
  have hmap := (LftManager.cleanDirtyLFTFiles_frame (s := s.toLftManager.sync ready save [])).1
  exact h.congr (hmap.trans (sync_maps s.toLftManager ready save []).1) rfl rfl rfl
    (fun b hb => absurd hb List.not_mem_nil) rfl h.jobs

theorem Owned.unmountPath (h : s.Owned) (ready : Bool) (save : QString → Bool) (path : QString) :
    (s.unmountPath ready save path).Owned := by
  rw [Buffers.unmountPath]
  split
  · exact h
  · rename_i buf hlookup
    have hinst := h.installed_of_lookup hlookup
    split
    · exact h.cancelBuild path
    · dsimp only
      split
      · exact (h.sync ready save path).removeBuf hinst false
      · exact h.removeBuf hinst false

theorem Owned.onMountRemoved (h : s.Owned) (paths : List QString) (ready : QString → Bool)
    (save : QString → QString → Bool) :
    (paths.foldl (fun s path => s.unmountPath (ready path) (save path) path) s).Owned := by
  induction paths generalizing s with
  | nil => exact h
  | cons path paths ih => exact ih (h.unmountPath (ready path) (save path) path)

/-- The set has every buffer once, so each is still installed in its turn. -/
theorem Owned.foldl_cleanBuf (h : s.Owned) {bufs : List ℕ} (hbufs : bufs.Nodup)
    (hinst : ∀ buf ∈ bufs, buf ∈ s.installed) (allowed : ℕ → Bool) :
    (bufs.foldl (cleanBuf · allowed ·) s).Owned := by
  induction bufs generalizing s with
  | nil => exact h
  | cons buf bufs ih =>
    obtain ⟨hbuf, hbufs⟩ := List.nodup_cons.mp hbufs
    rw [List.foldl_cons, cleanBuf]
    split
    · exact ih h hbufs fun b hb => hinst b (List.mem_cons_of_mem _ hb)
    · refine ih (h.removeBuf (hinst buf List.mem_cons_self) true) hbufs fun b hb => ?_
      exact List.mem_filter.mpr ⟨hinst b (List.mem_cons_of_mem _ hb),
        decide_eq_true fun heq => hbuf (heq ▸ hb)⟩

theorem Owned.foldlM_cleanBuild (h : s.Owned) {paths : List QString} {pathAllowed : QString → Bool}
    (hs : paths.foldlM (cleanBuild · pathAllowed ·) s = some s') : s'.Owned := by
  induction paths generalizing s with
  | nil => exact Option.some.inj hs ▸ h
  | cons path paths ih =>
    rw [List.foldlM_cons] at hs
    obtain ⟨s₁, hs₁, hs⟩ := Option.bind_eq_some_iff.mp hs
    obtain ⟨watcher, -, rfl⟩ := Option.map_eq_some_iff.mp hs₁
    refine ih ?_ hs
    split
    · exact h.cancelBuild path
    · exact h

/-! ## Runs -/

theorem Owned.handle (h : s.Owned) {e : Event α} (hok : s.EventOk e) (hs : s.handle e = some s') : s'.Owned := by
  cases e with
  | addPath req => exact Option.some.inj hs ▸ h.addPath req
  | cancelBuild path => exact Option.some.inj hs ▸ h.cancelBuild path
  | finished job built allowed lftFile =>
    rw [Buffers.handle] at hs
    split at hs
    · rename_i hjob
      exact h.finished hjob hok hs
    · simp at hs
  | refresh files => exact h.refresh hok hs
  | onMountAdded mount => exact h.onMountAdded hok hs
  | removePath path fileRemoved mount => exact h.removePath hok.1 hok.2 hs
  | onMountRemoved mountRoot paths ready save =>
    rw [Buffers.handle] at hs
    split at hs
    · exact Option.some.inj hs ▸ h.onMountRemoved paths ready save
    · simp at hs
  | cleanAllIndex bufs allowed pathAllowed =>
    rw [Buffers.handle] at hs
    split at hs
    · rename_i hperm
      have h₁ := h.foldl_cleanBuf (hperm.nodup_iff.mpr (List.nodup_dedup _))
        (fun buf hbuf => (h.installed_iff buf).mpr (List.mem_dedup.mp (hperm.mem_iff.mp hbuf))) allowed
      exact h₁.foldlM_cleanBuild hs
    · simp at hs
  | change buf ok image =>
    rw [Buffers.handle] at hs
    split at hs
    · rename_i hbuf
      obtain rfl := Option.some.inj hs
      cases ok with
      | false => exact h.congr rfl rfl rfl rfl h.dirty rfl h.jobs
      | true =>
        refine h.congr rfl rfl rfl rfl (fun b hb => ?_) rfl h.jobs
        rcases List.mem_insert_iff.mp hb with rfl | hb
        · exact (h.installed_iff b).mpr hbuf
        · exact h.dirty b hb
    · simp at hs
  | syncAll ready save => exact Option.some.inj hs ▸ h.syncAll ready save

theorem Reachable.owned (h : Reachable EventOk s) : s.Owned := by
  induction h with
  | initial content disk => exact owned_initial content disk
  | step _ hok hstep ih => exact ih.handle hok hstep

/-- In a run whose events are all as `EventOk` says, the buffers are safe in every state. -/
theorem reachable_safe (h : Reachable EventOk s) : s.Safe := h.owned.safe

/-- An automatic build whose paths are given, and its end. -/
def sampleBuild (pathList : List QString) : List (Event ℕ) :=
  [.addPath ⟨"/d".toList, true, pathList, "/d".toList, 7, true⟩,
    .finished ⟨7, "/d".toList, pathList, true, false⟩ (some 1) true "/d.LFT".toList]

/-- A run from the start. -/
def sampleRun (events : List (Event ℕ)) : Option (Buffers ℕ) :=
  events.foldlM handle (initial (fun _ => 0) fun _ => none)

theorem Reachable.foldlM {ok : Buffers α → Event α → Prop} {events : List (Event α)} (h : Reachable ok s)
    (hok : ∀ e ∈ events, ∀ s, ok s e) (hs : events.foldlM Buffers.handle s = some s') : Reachable ok s' := by
  induction events generalizing s with
  | nil => exact Option.some.inj hs ▸ h
  | cons e events ih =>
    rw [List.foldlM_cons] at hs
    obtain ⟨s₁, hs₁, hs⟩ := Option.bind_eq_some_iff.mp hs
    exact ih (h.step (hok e List.mem_cons_self s) hs₁) (fun e he => hok e (List.mem_cons_of_mem _ he)) hs

theorem reachable_safe_sample : ∃ s, sampleRun (sampleBuild ["/d".toList, "/e".toList]) = some s ∧
    s.fsBufList = [1, 1] ∧ s.Safe := by
  obtain ⟨s, hs⟩ : ∃ s, sampleRun (sampleBuild ["/d".toList, "/e".toList]) = some s := ⟨_, rfl⟩
  have hlist : s.fsBufList = [1, 1] := by
    obtain rfl := Option.some.inj hs
    rfl
  refine ⟨s, hs, hlist, reachable_safe (Reachable.foldlM (.initial _ _) (fun e he s => ?_) hs)⟩
  rcases List.mem_pair.mp he with rfl | rfl
  · trivial
  · intro _
    decide

/-- A removal that is refused hides the index all the same, and an index with a repeated path is freed while
it is installed. -/
theorem not_reachable_safe :
    (∃ s, sampleRun (sampleBuild ["/d".toList] ++ [.removePath "/d".toList true none]) = some s ∧
      Reachable (fun _ _ => True) s ∧ 1 ∈ s.installed ∧ s.fsBufMap = [] ∧ ¬ s.Safe) ∧
    ∃ s, sampleRun (sampleBuild ["/d".toList, "/d".toList]) = some s ∧
      Reachable (fun _ _ => True) s ∧ 1 ∈ s.fsBufList ∧ 1 ∉ s.live ∧ ¬ s.Safe := by
  have hreach : ∀ (events : List (Event ℕ)) {s : Buffers ℕ}, sampleRun events = some s →
      Reachable (fun _ _ => True) s := fun _ _ hs => Reachable.foldlM (.initial _ _) (fun _ _ _ => trivial) hs
  refine ⟨⟨_, rfl, hreach (sampleBuild ["/d".toList] ++ [.removePath "/d".toList true none]) rfl,
      List.mem_singleton_self 1, rfl, fun hsafe => ?_⟩,
    ⟨_, rfl, hreach (sampleBuild ["/d".toList, "/d".toList]) rfl, List.mem_cons_self, List.not_mem_nil,
      fun hsafe => ?_⟩⟩
  · obtain ⟨path, hpath⟩ := (hsafe.reached 1 (List.mem_singleton_self 1)).2
    cases hpath
  · exact absurd (hsafe.mapped 1 List.mem_cons_self) List.not_mem_nil

end Buffers

end DeepinAnything.Server
